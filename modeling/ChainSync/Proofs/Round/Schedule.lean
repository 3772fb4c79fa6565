import ChainSync.Proofs.Import.Cases
import ChainSync.Proofs.Queue.HeaderQueues

/-!
# The schedule of a single peer

While one peer only is tracked, a pass of header requests comes down to one visit: the peer is
available again a second after its latest request, and the visit asks it for a range that its mode,
its latest request and the local best block determine, or withholds the request because the range
starts above what the peer advertises. Main statement: every pass ends in one of these ways, unless
the peer advertises a chain lighter than the local one or a sum does not fit.
-/

namespace ChainSync

/-- The only number below one is zero. -/
theorem ChaCha.Random.below_one (g : ChaCha.Random) : (g.below 1).1 = 0 := by
  have hin (tries : Nat) : ∀ g : ChaCha.Random, (belowIn 1 tries g).1 = 0 := by
    induction tries with
    | zero => exact fun _ ↦ rfl
    | succ tries ih =>
      intro g
      rw [belowIn]
      dsimp only
      split
      · rw [Nat.mul_one]
        exact Nat.div_eq_of_lt (UInt64.toNat_lt_size _)
      · exact ih _
  exact hin _ g

/-- A list without repetitions whose members are all the same has one member. -/
theorem eq_singleton_of_pairwise {α : Type} {R : α → α → Prop} {l : List α} {a : α}
    (distinct : l.Pairwise R) (same : ¬ R a a) (mem : a ∈ l) (only : ∀ b ∈ l, b = a) :
    l = [a] := by
  cases l with
  | nil => cases mem
  | cons b rest =>
    obtain rfl := only b List.mem_cons_self
    cases rest with
    | nil => rfl
    | cons d rest =>
      obtain rfl := only d (List.mem_cons_of_mem _ List.mem_cons_self)
      exact absurd ((List.pairwise_cons.mp distinct).1 d List.mem_cons_self) same

section

variable {α : Type} [Ord α] [Std.TransOrd α] [Std.LawfulEqOrd α] {a : α}

theorem toList_eq_singleton {t : Std.ExtTreeSet α} (mem : a ∈ t) (only : ∀ b ∈ t, b = a) :
    t.toList = [a] :=
  eq_singleton_of_pairwise t.distinct_toList (fun h ↦ h Std.ReflOrd.compare_self)
    (Std.ExtTreeSet.mem_toList.mpr mem) fun b hb ↦ only b (Std.ExtTreeSet.mem_toList.mp hb)

/-- A map whose only key is one lists just that entry. -/
theorem toList_eq_singleton_of_getElem? {β : Type} {t : Std.ExtTreeMap α β} {v : β}
    (found : t[a]? = some v) (only : ∀ b ∈ t, b = a) : t.toList = [(a, v)] := by
  refine eq_singleton_of_pairwise t.distinct_keys_toList (fun h ↦ h Std.ReflOrd.compare_self)
    (Std.ExtTreeMap.mem_toList_iff_getElem?_eq_some.mpr found) ?_
  rintro ⟨b, w⟩ hb
  have hw := Std.ExtTreeMap.mem_toList_iff_getElem?_eq_some.mp hb
  obtain rfl := only b (Std.ExtTreeMap.mem_iff_isSome_getElem?.mpr (by rw [hw]; rfl))
  rw [found] at hw
  cases hw
  rfl

end

namespace Registry

variable {r : Registry} {peer : PeerId} {info : PeerInfo}

theorem getElem?_of_active (active : r.active = [(peer, info)]) : r.peers[peer]? = some info := by
  apply Std.ExtTreeMap.mem_toList_iff_getElem?_eq_some.mp
  change (peer, info) ∈ r.active
  rw [active]
  exact List.mem_singleton_self _

/-- The greatest height advertised is that of the only connected peer. -/
theorem bestHead_of_active (active : r.active = [(peer, info)]) :
    r.bestHead = some info.bestNumber := by
  rw [bestHead, active]
  rfl

end Registry

namespace PeerRequests

/-- The sizes of requests lie between the least and the greatest. -/
structure Sized (p : PeerRequests) : Prop where
  /-- The size is not below the least. -/
  least : minSize.toNat ≤ p.size.toNat
  /-- The size is not above the greatest. -/
  greatest : p.size.toNat ≤ maxSize.toNat

/-- A peer that was never asked has a size. -/
theorem sized_new (info : PeerInfo) : (PeerRequests.new info).Sized :=
  ⟨Nat.le_refl _, (by decide : minSize.toNat ≤ maxSize.toNat)⟩

/-- The next size is one again. -/
theorem Sized.nextSize {p : PeerRequests} (sized : p.Sized) :
    minSize.toNat ≤ p.nextSize.toNat ∧ p.nextSize.toNat ≤ maxSize.toNat := by
  have hleast : minSize.toNat = 24 := rfl
  have hgreatest : maxSize.toNat = 40 := rfl
  have htwo : (2 : UInt32).toNat = 2 := rfl
  have hlimit : (minSize + 2).toNat = 26 := rfl
  have := sized.greatest
  unfold PeerRequests.nextSize PeerRequests.sizeAfter
  split
  · exact ⟨by decide, Nat.le_refl _⟩
  · next h =>
    have hle := UInt32.le_iff_toNat_le.mp (UInt32.not_lt.mp h)
    rw [UInt32.toNat_sub_of_le _ _ (UInt32.le_iff_toNat_le.mpr (by omega))]
    omega

/-- The latest request, and what the peer advertises, are the same. -/
structure Alike (p q : PeerRequests) : Prop where
  /-- The latest request started at the same height. -/
  first : q.first = p.first
  /-- It had the same size. -/
  size : q.size = p.size
  /-- The peer advertises the same height. -/
  lastBest : q.lastBest = p.lastBest

theorem Alike.sized {p q : PeerRequests} (alike : p.Alike q) (sized : p.Sized) : q.Sized :=
  ⟨alike.size ▸ sized.least, alike.size ▸ sized.greatest⟩

/-- Releasing a peer leaves its latest request. -/
theorem alike_tryRelease (p : PeerRequests) (now : Millis) (quota : Nat) :
    p.Alike (p.tryRelease now quota).2 := by
  unfold tryRelease
  split
  · exact ⟨rfl, rfl, rfl⟩
  · split
    · exact ⟨rfl, rfl, rfl⟩
    · split <;> exact ⟨rfl, rfl, rfl⟩

theorem mem_times_of_tryRelease {p : PeerRequests} {now t : Millis} {quota : Nat}
    (h : t ∈ (p.tryRelease now quota).2.times) : t ∈ p.times := by
  unfold tryRelease at h
  split at h
  · exact h
  · split at h
    · exact h
    · next oldest rest htimes =>
      split at h
      · rw [htimes]
        exact List.mem_cons_of_mem _ h
      · exact h

/-- A peer that was not asked within the last second is released. -/
theorem tryRelease_of_rested {p : PeerRequests} {now : Millis} {quota : Nat} (hquota : 1 ≤ quota)
    (rested : ∀ t ∈ p.times, t + window ≤ now) : (p.tryRelease now quota).1 = true := by
  unfold tryRelease
  split
  · rfl
  · next hfull =>
    split
    · next hnil =>
      rw [hnil] at hfull
      exact absurd hquota hfull
    · next oldest rest htimes =>
      have := rested oldest (by rw [htimes]; exact List.mem_cons_self)
      rw [if_pos (Nat.le_sub_of_add_le' this)]

/-- Where the next request to a peer starts in a mode, when the local chain calls for requests from
`nextFirst` on. -/
def nextStart (p : PeerRequests) (nextFirst : UInt64) : SyncMode → Nat
  | .backward => max (p.first.toNat - RequestSchedule.backwardStep.toNat) 1
  | .forward => p.first.toNat + p.size.toNat
  | .normal =>
    if p.first = nextFirst then nextFirst.toNat + p.size.toNat else nextFirst.toNat

theorem Alike.nextSize {p q : PeerRequests} (alike : p.Alike q) : q.nextSize = p.nextSize := by
  rw [PeerRequests.nextSize, PeerRequests.nextSize, alike.size]

theorem Alike.nextStart {p q : PeerRequests} (alike : p.Alike q) (nextFirst : UInt64)
    (mode : SyncMode) : q.nextStart nextFirst mode = p.nextStart nextFirst mode := by
  unfold PeerRequests.nextStart
  rw [alike.first, alike.size]

end PeerRequests

namespace RequestSchedule

variable {peer : PeerId} {due now : Millis} {s : RequestSchedule} {p q : PeerRequests}

def withPeer (s : RequestSchedule) (peer : PeerId) (p : PeerRequests) : RequestSchedule :=
  { s with peers := s.peers.insert peer p }

theorem getElem?_withPeer (s : RequestSchedule) (peer other : PeerId) (p : PeerRequests) :
    (s.withPeer peer p).peers[other]? = if peer = other then some p else s.peers[other]? := by
  simp [withPeer, Std.ExtTreeMap.getElem?_insert]

/-- The later of two pieces of knowledge stays. -/
theorem withPeer_withPeer (s : RequestSchedule) (peer : PeerId) (p q : PeerRequests) :
    (s.withPeer peer p).withPeer peer q = s.withPeer peer q := by
  have : (s.peers.insert peer p).insert peer q = s.peers.insert peer q := by
    apply Std.ExtTreeMap.ext_getElem?
    intro other
    simp only [Std.ExtTreeMap.getElem?_insert]
    split <;> rfl
  simp only [withPeer, this]

/-- The schedule after a peer was asked, when the furthest request ends at a height. -/
def asked (s : RequestSchedule) (peer : PeerId) (p : PeerRequests) (requestHeight : UInt64) :
    RequestSchedule :=
  { s.withPeer peer p with
    requestHeight
    available := s.available.erase peer
    booked := s.booked.insert peer }

def freed (s : RequestSchedule) (peer : PeerId) : RequestSchedule :=
  { s with booked := s.booked.erase peer, available := s.available.insert peer }

/-- A booked peer becomes available if it is released. -/
theorem releaseIfAllowed_of_booked (booked : peer ∈ s.booked) (hp : s.peers[peer]? = some p)
    (now : Millis) :
    s.releaseIfAllowed now peer =
      if (p.tryRelease now s.maxPerSecond).1 then
        (s.withPeer peer (p.tryRelease now s.maxPerSecond).2).freed peer
      else s.withPeer peer (p.tryRelease now s.maxPerSecond).2 := by
  have hbooked : s.booked.contains peer = true := Std.ExtTreeSet.contains_iff_mem.mpr booked
  simp only [releaseIfAllowed, hbooked, hp, Bool.not_true, Bool.false_eq_true, if_false]
  rfl

/-- Releasing a peer does nothing, or forgets its earliest request at most. -/
theorem releaseIfAllowed_cases (s : RequestSchedule) (now : Millis) (peer : PeerId) :
    s.releaseIfAllowed now peer = s ∨
      ∃ p q, peer ∈ s.booked ∧ s.peers[peer]? = some p ∧ p.Alike q ∧ (∀ t ∈ q.times, t ∈ p.times) ∧
        (s.releaseIfAllowed now peer = s.withPeer peer q ∨
          s.releaseIfAllowed now peer = (s.withPeer peer q).freed peer) := by
  by_cases hbooked : peer ∈ s.booked
  · cases hp : s.peers[peer]? with
    | none =>
      left
      simp only [releaseIfAllowed, hp]
      split <;> rfl
    | some p =>
      refine .inr ⟨p, (p.tryRelease now s.maxPerSecond).2, hbooked, rfl, p.alike_tryRelease .., ?_,
        ?_⟩
      · exact fun t ht ↦ PeerRequests.mem_times_of_tryRelease ht
      · rw [releaseIfAllowed_of_booked hbooked hp]
        split
        · exact .inr rfl
        · exact .inl rfl
  · left
    have : s.booked.contains peer = false := by
      rw [← Bool.not_eq_true, Std.ExtTreeSet.contains_iff_mem]
      exact hbooked
    simp only [releaseIfAllowed, this, Bool.not_false, if_true]

/-- Releasing a peer leaves its latest request and the local height. -/
theorem alike_releaseIfAllowed (hp : s.peers[peer]? = some p) (now : Millis) :
    (∃ q, (s.releaseIfAllowed now peer).peers[peer]? = some q ∧ p.Alike q) ∧
      (s.releaseIfAllowed now peer).networkHeight = s.networkHeight ∧
      (s.releaseIfAllowed now peer).localHeight = s.localHeight := by
  rcases s.releaseIfAllowed_cases now peer with h | ⟨p', q, -, hp', halike, -, h⟩
  · rw [h]
    exact ⟨⟨p, hp, rfl, rfl, rfl⟩, rfl, rfl⟩
  · rw [hp] at hp'
    cases hp'
    have hq : (s.withPeer peer q).peers[peer]? = some q := by
      rw [getElem?_withPeer, if_pos rfl]
    rcases h with h | h
    · rw [h]
      exact ⟨⟨q, hq, halike⟩, rfl, rfl⟩
    · rw [h]
      exact ⟨⟨q, hq, halike⟩, rfl, rfl⟩

/-- The schedule with the local best block taken into account, after a choice among peers. -/
def raised (s : RequestSchedule) (localBest : UInt64) (random : ChaCha.Random) :
    RequestSchedule :=
  { s with localHeight := max s.localHeight localBest, random }

/-- No peer but one is tracked, it may be asked again once it is due, and no headers wait. -/
structure Lone (peer : PeerId) (due : Millis) (s : RequestSchedule) : Prop where
  /-- A peer may be asked at least once a second. -/
  quota : 1 ≤ s.maxPerSecond
  /-- No other peer is tracked. -/
  only : ∀ other ∈ s.peers, other = peer
  /-- No other peer is available. -/
  available : ∀ other ∈ s.available, other = peer
  /-- No other peer is booked. -/
  booked : ∀ other ∈ s.booked, other = peer
  /-- The peer is available or booked once it is tracked. -/
  ready : peer ∈ s.peers → peer ∈ s.available ∨ peer ∈ s.booked
  /-- It is due a second after every request at the earliest. -/
  rested {p : PeerRequests} : s.peers[peer]? = some p →
    ∀ t ∈ p.times, t + PeerRequests.window ≤ due
  /-- The size of its latest request is one of a request. -/
  sized {p : PeerRequests} : s.peers[peer]? = some p → p.Sized
  /-- No headers wait for their bodies. -/
  idle : s.headers.queues = ∅

/-- What is known of a peer, or what is known of it when it joins. -/
def seen (s : RequestSchedule) (peer : PeerId) (info : PeerInfo) : PeerRequests :=
  s.peers[peer]?.getD (.new info)

namespace Lone

theorem initial (peer : PeerId) (due : Millis) (maxPerSecond : Nat) (expiry : Millis)
    (seed : UInt64) : Lone peer due (.new maxPerSecond expiry seed) := by
  refine ⟨Nat.le_max_right _ _, ?_, ?_, ?_, ?_, ?_, ?_, rfl⟩ <;> simp [RequestSchedule.new]

theorem mono (lone : Lone peer due s) {due' : Millis} (hle : due ≤ due') : Lone peer due' s :=
  ⟨lone.quota, lone.only, lone.available, lone.booked, lone.ready,
    fun h t ht ↦ Nat.le_trans (lone.rested h t ht) hle, lone.sized, lone.idle⟩

theorem raised (lone : Lone peer due s) (localBest : UInt64) (random : ChaCha.Random) :
    Lone peer due (s.raised localBest random) :=
  ⟨lone.quota, lone.only, lone.available, lone.booked, lone.ready, lone.rested, lone.sized,
    lone.idle⟩

/-- What a tracked peer was seen as has a size. -/
theorem sized_seen (lone : Lone peer due s) (info : PeerInfo) : (s.seen peer info).Sized := by
  unfold seen
  cases h : s.peers[peer]? with
  | none => exact PeerRequests.sized_new info
  | some p => exact lone.sized h

/-- New knowledge of a tracked peer keeps it the only one. -/
theorem withPeer (lone : Lone peer due s) (ready : peer ∈ s.available ∨ peer ∈ s.booked)
    (sized : p.Sized) (rested : ∀ t ∈ p.times, t + PeerRequests.window ≤ due) :
    Lone peer due (s.withPeer peer p) := by
  have hp {q : PeerRequests} (h : (s.withPeer peer p).peers[peer]? = some q) : q = p := by
    rw [getElem?_withPeer, if_pos rfl] at h
    exact (Option.some.inj h).symm
  refine ⟨lone.quota, ?_, lone.available, lone.booked, fun _ ↦ ready, ?_, ?_, lone.idle⟩
  · intro other hmem
    rcases Std.ExtTreeMap.mem_insert.mp hmem with he | hmem
    · exact (Std.LawfulEqOrd.eq_of_compare he).symm
    · exact lone.only other hmem
  · intro q h
    rw [hp h]
    exact rested
  · intro q h
    rw [hp h]
    exact sized

/-- A peer that is asked stays the only one. -/
theorem asked (lone : Lone peer due s) (sized : p.Sized)
    (rested : ∀ t ∈ p.times, t + PeerRequests.window ≤ due) (height : UInt64) :
    Lone peer due (s.asked peer p height) := by
  have hmem : peer ∈ s.booked.insert peer :=
    Std.ExtTreeSet.mem_insert.mpr (.inl Std.ReflOrd.compare_self)
  have booked : Lone peer due { s with booked := s.booked.insert peer } := by
    refine ⟨lone.quota, lone.only, lone.available, ?_, fun _ ↦ .inr hmem, lone.rested, lone.sized,
      lone.idle⟩
    intro other h
    rcases Std.ExtTreeSet.mem_insert.mp h with he | h
    · exact (Std.LawfulEqOrd.eq_of_compare he).symm
    · exact lone.booked other h
  have known := booked.withPeer (.inr hmem) sized rested
  refine ⟨known.quota, known.only, ?_, known.booked, fun _ ↦ .inr hmem, known.rested, known.sized,
    known.idle⟩
  intro other h
  exact lone.available other (Std.ExtTreeSet.mem_erase.mp h).2

theorem freed (lone : Lone peer due s) : Lone peer due (s.freed peer) := by
  have hmem : peer ∈ s.available.insert peer :=
    Std.ExtTreeSet.mem_insert.mpr (.inl Std.ReflOrd.compare_self)
  refine ⟨lone.quota, lone.only, ?_, ?_, fun _ ↦ .inl hmem, lone.rested, lone.sized, lone.idle⟩
  · intro other h
    rcases Std.ExtTreeSet.mem_insert.mp h with he | h
    · exact (Std.LawfulEqOrd.eq_of_compare he).symm
    · exact lone.available other h
  · intro other h
    exact lone.booked other (Std.ExtTreeSet.mem_erase.mp h).2

/-- Releasing the peer keeps it the only one. -/
theorem releaseIfAllowed (lone : Lone peer due s) (now : Millis) :
    Lone peer due (s.releaseIfAllowed now peer) := by
  rcases s.releaseIfAllowed_cases now peer with h | ⟨p, q, booked, hp, halike, htimes, h⟩
  · rw [h]
    exact lone
  · have known := lone.withPeer (.inr booked) (halike.sized (lone.sized hp))
      fun t ht ↦ lone.rested hp t (htimes t ht)
    rcases h with h | h
    · rw [h]
      exact known
    · rw [h]
      exact known.freed

theorem mem_available_releaseIfAllowed (lone : Lone peer due s) (hp : s.peers[peer]? = some p)
    (rested : due ≤ now) (booked : peer ∈ s.booked) :
    peer ∈ (s.releaseIfAllowed now peer).available := by
  have hrelease : (p.tryRelease now s.maxPerSecond).1 = true :=
    PeerRequests.tryRelease_of_rested lone.quota fun t ht ↦
      Nat.le_trans (lone.rested hp t ht) rested
  rw [releaseIfAllowed_of_booked booked hp, if_pos hrelease]
  exact Std.ExtTreeSet.mem_insert.mpr (.inl Std.ReflOrd.compare_self)

/-- The connected peer stays the only one when it joins or advertises something else. -/
theorem meet (lone : Lone peer due s) (info : PeerInfo) :
    Lone peer due (s.meet peer info) ∧
      ∃ p, (s.meet peer info).peers[peer]? = some p ∧
        ({ s.seen peer info with lastBest := info.bestNumber }).Alike p := by
  unfold RequestSchedule.meet seen
  cases hp : s.peers[peer]? with
  | none =>
    have hmem : peer ∈ s.available.insert peer :=
      Std.ExtTreeSet.mem_insert.mpr (.inl Std.ReflOrd.compare_self)
    have available : Lone peer due { s with available := s.available.insert peer } := by
      refine ⟨lone.quota, lone.only, ?_, lone.booked, fun _ ↦ .inl hmem, lone.rested, lone.sized,
        lone.idle⟩
      intro other h
      rcases Std.ExtTreeSet.mem_insert.mp h with he | h
      · exact (Std.LawfulEqOrd.eq_of_compare he).symm
      · exact lone.available other h
    refine ⟨available.withPeer (.inl hmem) (PeerRequests.sized_new info) (fun t ht ↦ nomatch ht),
      .new info, ?_, ⟨rfl, rfl, rfl⟩⟩
    exact (getElem?_withPeer s peer peer _).trans (if_pos rfl)
  | some p =>
    have ready := lone.ready (Std.ExtTreeMap.mem_iff_isSome_getElem?.mpr (by simp [hp]))
    have sized := lone.sized hp
    have rested := lone.rested hp
    refine ⟨lone.withPeer ready ⟨sized.least, sized.greatest⟩ rested, _,
      (getElem?_withPeer s peer peer _).trans (if_pos rfl), ⟨rfl, rfl, rfl⟩⟩

/-- No tracked peer has left. -/
theorem departed (lone : Lone peer due s) {registry : Registry} {info : PeerInfo}
    (active : registry.active = [(peer, info)]) : s.departed registry = [] := by
  apply List.filter_eq_nil_iff.mpr
  intro other hmem
  rw [lone.only other (Std.ExtTreeMap.mem_keys.mp hmem), Std.ExtTreeMap.contains_eq_isSome_getElem?,
    Registry.getElem?_of_active active]
  exact Bool.false_ne_true

end Lone

/-- The only connected peer is tracked and available, with its latest request and what it
advertises now. -/
structure Refreshed (peer : PeerId) (info : PeerInfo) (s t : RequestSchedule)
    (p : PeerRequests) : Prop where
  /-- The peer is tracked. -/
  found : t.peers[peer]? = some p
  /-- Its latest request and what it advertises are known. -/
  alike : ({ s.seen peer info with lastBest := info.bestNumber }).Alike p
  /-- It is the only available peer. -/
  available : t.available.toList = [peer]
  /-- The greatest height advertised is its own. -/
  network : t.networkHeight = info.bestNumber
  /-- The greatest local height is as before. -/
  height : t.localHeight = s.localHeight

/-- Once it is due the only connected peer is available again. -/
theorem Lone.refresh (lone : Lone peer due s) {registry : Registry} {info : PeerInfo}
    (active : registry.active = [(peer, info)]) (rested : due ≤ now) :
    Lone peer due (s.refresh registry now) ∧
      ∃ p, Refreshed peer info s (s.refresh registry now) p := by
  have lone₁ : Lone peer due { s with networkHeight := info.bestNumber } :=
    ⟨lone.quota, lone.only, lone.available, lone.booked, lone.ready, lone.rested, lone.sized,
      lone.idle⟩
  obtain ⟨lone₂, p, hp, alike⟩ := lone₁.meet info
  have hrefresh : s.refresh registry now =
      (({ s with networkHeight := info.bestNumber }).meet peer info).booked.toList.foldl
        (RequestSchedule.releaseIfAllowed now)
        (({ s with networkHeight := info.bestNumber }).meet peer info) := by
    simp only [RequestSchedule.refresh, lone.departed active, List.foldl_nil,
      Registry.bestHead_of_active active, active, List.foldl_cons, Option.getD_some]
  have hheight : (({ s with networkHeight := info.bestNumber }).meet peer info).networkHeight =
        info.bestNumber ∧
      (({ s with networkHeight := info.bestNumber }).meet peer info).localHeight =
        s.localHeight := by
    unfold RequestSchedule.meet
    split <;> exact ⟨rfl, rfl⟩
  rw [hrefresh]
  generalize (({ s with networkHeight := info.bestNumber }).meet peer info) = t at *
  have htracked : peer ∈ t.peers := Std.ExtTreeMap.mem_iff_isSome_getElem?.mpr (by simp [hp])
  by_cases hbooked : peer ∈ t.booked
  · rw [toList_eq_singleton hbooked lone₂.booked, List.foldl_cons, List.foldl_nil]
    have lone₃ := lone₂.releaseIfAllowed now
    have havailable := lone₂.mem_available_releaseIfAllowed hp rested hbooked
    refine ⟨lone₃, ?_⟩
    obtain ⟨⟨q, hq, halike⟩, hnet, hlocal⟩ := alike_releaseIfAllowed hp now
    exact ⟨q, hq, ⟨halike.first.trans alike.first, halike.size.trans alike.size,
      halike.lastBest.trans alike.lastBest⟩, toList_eq_singleton havailable lone₃.available,
      hnet.trans hheight.1, hlocal.trans hheight.2⟩
  · have hnil : t.booked.toList = [] := by
      apply List.eq_nil_iff_forall_not_mem.mpr
      intro other h
      have hmem := Std.ExtTreeSet.mem_toList.mp h
      exact hbooked (lone₂.booked other hmem ▸ hmem)
    rw [hnil, List.foldl_nil]
    have havailable := (lone₂.ready htracked).resolve_right hbooked
    exact ⟨lone₂, p, hp, ⟨alike.first, alike.size, alike.lastBest⟩,
      toList_eq_singleton havailable lone₂.available, hheight.1, hheight.2⟩

/-- Where no headers wait, none are dropped. -/
theorem Lone.pruneHeaders (lone : Lone peer due s) (now : Millis) : s.pruneHeaders now = s := by
  have hprune : (s.headers.prune now).2 = s.headers := HeaderStore.prune_of_idle lone.idle now
  simp only [RequestSchedule.pruneHeaders, hprune]

/-! ### A visit -/

/-- How a visit of a tracked peer ends. -/
inductive VisitEnd (mode : SyncMode) (now : Millis) (peer : PeerId) (nextFirst : UInt64)
    (p : PeerRequests) (s : RequestSchedule) :
    Except Fault (Option HeaderRequest) → RequestSchedule → Prop
  /-- The range does not fit below the last height. -/
  | overflow {t : RequestSchedule}
      (full : UInt64.size ≤ p.nextStart nextFirst mode + p.nextSize.toNat) :
    VisitEnd mode now peer nextFirst p s (.error .additionOverflow) t
  /-- The peer is asked. -/
  | asked {first height : UInt64} (start : first.toNat = p.nextStart nextFirst mode)
      (within : first ≤ p.lastBest ∨ p.lastBest = 0) :
    VisitEnd mode now peer nextFirst p s (.ok (some ⟨peer, first, p.nextSize⟩))
      (s.asked peer ⟨p.name, mode, first, p.nextSize, p.lastBest, p.times ++ [now]⟩ height)
  /-- The range starts above what the peer advertises. -/
  | withheld {first : UInt64} (start : first.toNat = p.nextStart nextFirst mode)
      (beyond : p.lastBest < first) (known : p.lastBest ≠ 0) :
    VisitEnd mode now peer nextFirst p s (.ok none)
      (s.withPeer peer ⟨p.name, mode, 0, p.nextSize, p.lastBest, p.times⟩)

theorem exec_setPeer (peer : PeerId) (p : PeerRequests) (s : RequestSchedule) :
    (setPeer peer p).exec s = (.ok (), s.withPeer peer p) := rfl

/-- Issues the request to a peer that starts at a height, or withholds it. -/
def settle (mode : SyncMode) (now : Millis) (peer : PeerId) (p : PeerRequests)
    (first next : UInt64) : Step RequestSchedule (Option HeaderRequest × UInt64) := do
  let q : PeerRequests := ⟨p.name, mode, first, p.nextSize, p.lastBest, p.times⟩
  setPeer peer q
  if first ≤ q.lastBest || q.lastBest = 0 then
    let after ← checkedAdd first q.size.toUInt64
    modify fun s ↦ { s with
      requestHeight := max s.requestHeight after
      peers := s.peers.insert peer { q with times := q.times ++ [now] }
      available := s.available.erase peer
      booked := s.booked.insert peer }
    return (some ⟨peer, first, q.size⟩, next)
  else
    setPeer peer { q with first := 0 }
    return (none, next)

/-- Once its start is known, a request is issued or withheld. -/
theorem visitEnd_settle {mode : SyncMode} {nextFirst first : UInt64}
    (start : first.toNat = p.nextStart nextFirst mode) (next : UInt64) (s : RequestSchedule)
    (q : PeerRequests) :
    VisitEnd mode now peer nextFirst p s
      (((settle mode now peer p first next).exec (s.withPeer peer q)).1.map Prod.fst)
      ((settle mode now peer p first next).exec (s.withPeer peer q)).2 := by
  unfold settle
  dsimp only
  rw [Step.exec_bind_of_ok (exec_setPeer ..), withPeer_withPeer]
  split
  · next hwithin =>
    simp only [Step.exec_bind, Step.exec_lift]
    cases hsum : checkedAdd first p.nextSize.toUInt64 with
    | error e =>
      obtain ⟨full, rfl⟩ := checkedAdd_eq_error_iff.mp hsum
      rw [UInt32.toNat_toUInt64, start] at full
      exact .overflow full
    | ok after =>
      have hstate (height : UInt64) (r : PeerRequests) :
          ({ s.withPeer peer ⟨p.name, mode, first, p.nextSize, p.lastBest, p.times⟩ with
            requestHeight := height
            peers := (s.withPeer peer
              ⟨p.name, mode, first, p.nextSize, p.lastBest, p.times⟩).peers.insert peer r
            available := s.available.erase peer
            booked := s.booked.insert peer } : RequestSchedule) = s.asked peer r height := by
        have := congrArg RequestSchedule.peers
          (withPeer_withPeer s peer ⟨p.name, mode, first, p.nextSize, p.lastBest, p.times⟩ r)
        simp only [asked, withPeer] at this ⊢
        rw [this]
      have asked : VisitEnd mode now peer nextFirst p s (.ok (some ⟨peer, first, p.nextSize⟩))
          (s.asked peer ⟨p.name, mode, first, p.nextSize, p.lastBest, p.times ++ [now]⟩
            (max s.requestHeight after)) := .asked start (by simpa using hwithin)
      rw [← hstate] at asked
      exact asked
  · next hbeyond =>
    rw [Step.exec_bind_of_ok (exec_setPeer ..), withPeer_withPeer]
    simp only [Bool.or_eq_true, decide_eq_true_iff, not_or, UInt64.not_le] at hbeyond
    exact .withheld start hbeyond.1 hbeyond.2

/-- In the normal mode the end of the request is taken before it is issued or withheld. -/
private theorem visitEnd_normal {nextFirst first : UInt64}
    (start : first.toNat = p.nextStart nextFirst .normal) (s : RequestSchedule)
    (q : PeerRequests) :
    let run : Step RequestSchedule (Option HeaderRequest × UInt64) := do
      setPeer peer ⟨p.name, .normal, first, p.size, p.lastBest, p.times⟩
      let after ← checkedAdd first p.nextSize.toUInt64
      settle .normal now peer p first (max (← get).requestHeight after)
    VisitEnd .normal now peer nextFirst p s ((run.exec (s.withPeer peer q)).1.map Prod.fst)
      (run.exec (s.withPeer peer q)).2 := by
  dsimp only
  rw [Step.exec_bind_of_ok (exec_setPeer ..), withPeer_withPeer]
  simp only [Step.exec_bind, Step.exec_lift]
  cases hsum : checkedAdd first p.nextSize.toUInt64 with
  | error e =>
    obtain ⟨full, rfl⟩ := checkedAdd_eq_error_iff.mp hsum
    rw [UInt32.toNat_toUInt64, start] at full
    exact .overflow full
  | ok after => exact visitEnd_settle start _ s _

/-- Every visit of a tracked peer ends in one of the cases. -/
theorem visitEnd_visit (hp : s.peers[peer]? = some p) (mode : SyncMode) (now : Millis)
    (nextFirst : UInt64) :
    VisitEnd mode now peer nextFirst p s
      (((visit mode now peer nextFirst).exec s).1.map Prod.fst)
      ((visit mode now peer nextFirst).exec s).2 := by
  unfold visit
  rw [Step.exec_bind_of_ok (Step.exec_get s), hp]
  dsimp only
  rw [Step.exec_bind_of_ok (exec_setPeer ..)]
  cases mode with
  | backward =>
    have start : (max (monus p.first backwardStep) 1).toNat = p.nextStart nextFirst .backward := by
      rw [toNat_max, toNat_monus]
      rfl
    exact visitEnd_settle start nextFirst s { p with mode := .backward }
  | forward =>
    simp only [Step.exec_bind, Step.exec_lift]
    cases hsum : checkedAdd p.first p.size.toUInt64 with
    | error e =>
      obtain ⟨full, rfl⟩ := checkedAdd_eq_error_iff.mp hsum
      rw [UInt32.toNat_toUInt64] at full
      exact .overflow (Nat.le_trans full (Nat.le_add_right _ _))
    | ok first =>
      have start := checkedAdd_eq_ok_iff.mp hsum
      rw [UInt32.toNat_toUInt64] at start
      exact visitEnd_settle start nextFirst s { p with mode := .forward }
  | normal =>
    by_cases hsame : p.first = nextFirst
    · have hstart : p.nextStart nextFirst .normal = nextFirst.toNat + p.size.toNat := if_pos hsame
      rw [if_pos hsame, Step.exec_bind, Step.exec_lift]
      cases hsum : checkedAdd nextFirst p.size.toUInt64 with
      | error e =>
        obtain ⟨full, rfl⟩ := checkedAdd_eq_error_iff.mp hsum
        rw [UInt32.toNat_toUInt64, ← hstart] at full
        exact .overflow (Nat.le_trans full (Nat.le_add_right _ _))
      | ok first =>
        have start := checkedAdd_eq_ok_iff.mp hsum
        rw [UInt32.toNat_toUInt64, ← hstart] at start
        exact visitEnd_normal start s { p with mode := .normal }
    · have hstart : nextFirst.toNat = p.nextStart nextFirst .normal := (if_neg hsame).symm
      rw [if_neg hsame]
      exact visitEnd_normal hstart s { p with mode := .normal }

/-- A visit without a fault keeps the peer the only one. -/
theorem VisitEnd.lone {mode : SyncMode} {nextFirst : UInt64} {t : RequestSchedule}
    {answer : Option HeaderRequest} (lone : Lone peer due s) (hp : s.peers[peer]? = some p)
    (hle : due ≤ now) (ends : VisitEnd mode now peer nextFirst p s (.ok answer) t) :
    Lone peer (now + PeerRequests.window) t := by
  have lone' := lone.mono (Nat.le_trans hle (Nat.le_add_right now PeerRequests.window))
  have hsized := (lone.sized hp).nextSize
  cases ends with
  | asked start within =>
    refine lone'.asked ⟨hsized.1, hsized.2⟩ ?_ _
    intro time htime
    rcases List.mem_append.mp htime with h | h
    · exact lone'.rested hp time h
    · obtain rfl := List.mem_singleton.mp h
      exact Nat.le_refl _
  | withheld start beyond known =>
    have tracked := Std.ExtTreeMap.mem_iff_isSome_getElem?.mpr (by rw [hp]; rfl)
    have rested := lone'.rested hp
    exact lone'.withPeer (lone.ready tracked) ⟨hsized.1, hsized.2⟩ rested

/-! ### A pass -/

/-- How far requests overlap with the local chain. -/
def overlap (localBest network : UInt64) : UInt64 :=
  if localBest.toNat + overlapSwitch.toNat ≤ network.toNat then farOverlap else closeOverlap

/-- Where the local chain calls for requests from. -/
def nextFirst (localBest network : UInt64) : UInt64 :=
  max (monus localBest (overlap localBest network)) 1

/-- Requests are called for from at most fifteen below the local best block. -/
theorem nextFirst_bounds (localBest network : UInt64) :
    1 ≤ (nextFirst localBest network).toNat ∧
      (nextFirst localBest network).toNat ≤ max (localBest.toNat - 3) 1 ∧
      localBest.toNat ≤ (nextFirst localBest network).toNat + 15 := by
  have hone : (1 : UInt64).toNat = 1 := rfl
  have hfar : farOverlap.toNat = 3 := rfl
  have hclose : closeOverlap.toNat = 15 := rfl
  rw [nextFirst, toNat_max, toNat_monus, hone, overlap]
  split <;> omega

/-- How issuing the requests of a pass ends when only one peer can be asked. -/
inductive IssueEnd (peer : PeerId) (info : PeerInfo) (mode : SyncMode) (now : Millis)
    (localBest : UInt64) (localTotal : Difficulty) (p : PeerRequests) (s : RequestSchedule) :
    Except Fault (List HeaderRequest) → RequestSchedule → Prop
  /-- The local chain is too near to the last height. -/
  | full {t : RequestSchedule}
      (full : UInt64.size ≤ localBest.toNat + overlapSwitch.toNat ∨
        UInt64.size ≤ (max s.localHeight localBest).toNat + maxAhead.toNat) :
    IssueEnd peer info mode now localBest localTotal p s (.error .additionOverflow) t
  /-- The peer's chain is lighter than the local one. -/
  | light {random : ChaCha.Random} (light : info.totalDifficulty < localTotal) :
    IssueEnd peer info mode now localBest localTotal p s (.ok []) (s.raised localBest random)
  /-- The peer is visited. -/
  | visited {random : ChaCha.Random} {answer : Except Fault (Option HeaderRequest)}
      {t : RequestSchedule} (heavy : localTotal ≤ info.totalDifficulty)
      (ends : VisitEnd mode now peer (nextFirst localBest info.bestNumber) p
        (s.raised localBest random) answer t) :
    IssueEnd peer info mode now localBest localTotal p s (answer.map Option.toList) t

/-- Of at most one peer that one is picked, however far ahead the requests are. -/
theorem exec_pick_of_one {candidates : List PeerId} (hone : candidates = [] ∨ candidates = [peer])
    (s : RequestSchedule) :
    UInt64.size ≤ s.localHeight.toNat + maxAhead.toNat ∧
        (pick candidates).exec s = (.error .additionOverflow, s) ∨
      ∃ random, (pick candidates).exec s = (.ok candidates, { s with random }) := by
  unfold pick
  rw [Step.exec_bind_of_ok (Step.exec_get s), Step.exec_bind, Step.exec_lift]
  cases hsum : checkedAdd s.localHeight maxAhead with
  | error e =>
    obtain ⟨full, rfl⟩ := checkedAdd_eq_error_iff.mp hsum
    exact .inl ⟨full, rfl⟩
  | ok limit =>
    right
    dsimp only
    rcases hone with rfl | rfl
    · exact ⟨s.random, by simp⟩
    · split
      · refine ⟨(s.random.below 1).2, ?_⟩
        rw [Step.exec_bind_of_ok (Step.exec_set _ _)]
        change (Except.ok ([peer][(s.random.below 1).1]?.toList), _) = _
        rw [ChaCha.Random.below_one]
        rfl
      · exact ⟨s.random, rfl⟩

theorem exec_visitAll_singleton (modes : ModeTable) (now : Millis) (peer : PeerId)
    (nextFirst : UInt64) (s : RequestSchedule) :
    (visitAll modes now [peer] nextFirst).exec s =
      ((((visit (modes.mode peer) now peer nextFirst).exec s).1.map Prod.fst).map Option.toList,
        ((visit (modes.mode peer) now peer nextFirst).exec s).2) := by
  rw [visitAll, Step.exec_bind]
  cases (visit (modes.mode peer) now peer nextFirst).exec s with
  | mk answer t =>
    cases answer with
    | error e => rfl
    | ok answer =>
      obtain ⟨request, next⟩ := answer
      cases request <;> rfl

/-- After a refresh the requests of a pass are issued in one of these ways. -/
theorem Refreshed.issueEnd {info : PeerInfo} {s₀ : RequestSchedule}
    (refreshed : Refreshed peer info s₀ s p) {registry : Registry}
    (active : registry.active = [(peer, info)]) (modes : ModeTable) (now : Millis)
    (localBest : UInt64) (localTotal : Difficulty) :
    IssueEnd peer info (modes.mode peer) now localBest localTotal p s
      ((issue registry modes now localBest localTotal).exec s).1
      ((issue registry modes now localBest localTotal).exec s).2 := by
  unfold issue
  rw [Step.exec_bind_of_ok (Step.exec_modify _ _), Step.exec_bind, Step.exec_lift]
  cases hsum : checkedAdd localBest overlapSwitch with
  | error e =>
    obtain ⟨full, rfl⟩ := checkedAdd_eq_error_iff.mp hsum
    exact .full (.inl full)
  | ok switch =>
    have hswitch := checkedAdd_eq_ok_iff.mp hsum
    have hoverlap : (if switch ≤ s.networkHeight then farOverlap else closeOverlap) =
        overlap localBest info.bestNumber := by
      simp only [overlap, UInt64.le_iff_toNat_le, hswitch, refreshed.network]
    have hcandidates : ({ s with localHeight := max s.localHeight localBest }).candidates registry
        localTotal = if localTotal ≤ info.totalDifficulty then [peer] else [] := by
      unfold candidates
      simp only [refreshed.available, List.filter_cons, List.filter_nil,
        Registry.getElem?_of_active active, Option.any_some, decide_eq_true_eq]
    dsimp only
    rw [Step.exec_bind_of_ok (Step.exec_get _)]
    dsimp only
    rw [hoverlap, hcandidates]
    have hone : (if localTotal ≤ info.totalDifficulty then [peer] else []) = [] ∨
        (if localTotal ≤ info.totalDifficulty then [peer] else []) = [peer] := by
      split <;> simp
    rcases exec_pick_of_one hone { s with localHeight := max s.localHeight localBest } with
      ⟨full, hpick⟩ | ⟨random, hpick⟩
    · rw [Step.exec_bind_of_error hpick]
      exact .full (.inr full)
    · rw [Step.exec_bind_of_ok hpick]
      split
      · next heavy =>
        have hp : (s.raised localBest random).peers[peer]? = some p := refreshed.found
        rw [exec_visitAll_singleton]
        exact .visited heavy (visitEnd_visit hp ..)
      · next light => exact .light (BitVec.not_le.mp light)

end RequestSchedule
end ChainSync
