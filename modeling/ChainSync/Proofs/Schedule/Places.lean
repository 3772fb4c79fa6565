import ChainSync.Engine.HeaderPass
import ChainSync.Proofs.Round.Schedule

/-!
# Where a peer stands in the schedule

The schedule keeps what it knows of a peer, whether the peer is available or booked, and the headers
of it that wait in four collections. Seen from one peer they are one place: the peer is away, or it
is known and available, or it is known and booked. Every step of the schedule moves the place of
each peer by itself, whatever becomes of the other peers.
-/

namespace ChainSync

namespace PeerRequests

/-- How trying to release a peer ends. -/
inductive Tried (p : PeerRequests) (now : Millis) (quota : Nat) : Bool → PeerRequests → Prop
  /-- There is room for a request. -/
  | room (room : p.times.length < quota) : Tried p now quota true p
  /-- The earliest request is no longer in the last second and is forgotten. -/
  | aged {oldest : Millis} {rest : List Millis} (times : p.times = oldest :: rest)
    (old : window ≤ now - oldest) : Tried p now quota true { p with times := rest }
  /-- The earliest request is in the last second. -/
  | full (full : quota ≤ p.times.length)
    (young : ∀ oldest ∈ p.times.head?, now - oldest < window) : Tried p now quota false p

/-- Every try ends in one of the cases. -/
theorem tried_tryRelease (p : PeerRequests) (now : Millis) (quota : Nat) :
    p.Tried now quota (p.tryRelease now quota).1 (p.tryRelease now quota).2 := by
  unfold tryRelease
  split
  · next hroom => exact .room hroom
  · next hfull =>
    rw [Nat.not_lt] at hfull
    split
    · next hnil => exact .full hfull (by simp [hnil])
    · next oldest rest htimes =>
      split
      · next hold => exact .aged htimes hold
      · next hyoung => exact .full hfull (by simpa [htimes] using hyoung)

/-- A peer that is not released stays as it was. -/
theorem tryRelease_eq_self {p : PeerRequests} {now : Millis} {quota : Nat}
    (h : (p.tryRelease now quota).1 = false) : (p.tryRelease now quota).2 = p := by
  have htried := p.tried_tryRelease now quota
  rw [h] at htried
  generalize (p.tryRelease now quota).2 = q at htried ⊢
  cases htried
  rfl

end PeerRequests

/-- Where a peer stands in the schedule. -/
inductive Place where
  /-- It is not tracked. -/
  | away
  /-- It is tracked and available. -/
  | free (p : PeerRequests)
  /-- It is tracked and booked. -/
  | busy (p : PeerRequests)

namespace Place

def known : Place → Option PeerRequests
  | away => none
  | free p | busy p => some p

/-- The place of a connected peer that advertises this. -/
def meet (info : PeerInfo) : Place → Place
  | away => free (.new info)
  | free p => free { p with lastBest := info.bestNumber, name := info.name }
  | busy p => busy { p with lastBest := info.bestNumber, name := info.name }

/-- The place after the peer was released, if it may be. -/
def release (now : Millis) (quota : Nat) : Place → Place
  | busy p =>
    if (p.tryRelease now quota).1 then free (p.tryRelease now quota).2
    else busy (p.tryRelease now quota).2
  | place => place

/-- The place after a refresh, in which the peer advertises this if it is connected. -/
def refresh (advertised : Option PeerInfo) (now : Millis) (quota : Nat) (place : Place) : Place :=
  match advertised with
  | none => away
  | some info => (place.meet info).release now quota

/-- What issuing the requests of a pass at a time does to the place of a peer, and how often it asks
the peer. -/
inductive Issued (now : Millis) : Place → Nat → Place → Prop
  /-- The peer is not visited. -/
  | kept (place : Place) : Issued now place 0 place
  /-- A free peer is visited and not asked. -/
  | noted {p q : PeerRequests} (times : q.times = p.times) : Issued now (free p) 0 (free q)
  /-- A free peer is asked. -/
  | asked {p q : PeerRequests} (times : q.times = p.times ++ [now]) :
    Issued now (free p) 1 (busy q)

@[simp] theorem known_away : away.known = none := rfl

@[simp] theorem known_free (p : PeerRequests) : (free p).known = some p := rfl

@[simp] theorem known_busy (p : PeerRequests) : (busy p).known = some p := rfl

@[simp] theorem known_eq_none_iff {place : Place} : place.known = none ↔ place = away := by
  cases place <;> simp

/-- Meeting a peer again changes nothing. -/
theorem meet_meet (place : Place) (info : PeerInfo) :
    (place.meet info).meet info = place.meet info := by
  cases place <;> rfl

theorem meet_ne_away (place : Place) (info : PeerInfo) : place.meet info ≠ away := by
  cases place <;> simp [meet]

/-- Releasing a peer at the same time again changes nothing. -/
theorem release_release (place : Place) (now : Millis) (quota : Nat) :
    (place.release now quota).release now quota = place.release now quota := by
  cases place with
  | away => rfl
  | free p => rfl
  | busy p =>
    cases h : (p.tryRelease now quota).1 with
    | true => simp [release, h]
    | false => simp [release, h, PeerRequests.tryRelease_eq_self h]

theorem release_eq_away_iff {place : Place} {now : Millis} {quota : Nat} :
    place.release now quota = away ↔ place = away := by
  cases place with
  | away => simp [release]
  | free p => simp [release]
  | busy p =>
    simp only [release]
    split <;> simp

/-- After a refresh a peer is tracked exactly when it is connected. -/
theorem refresh_eq_away_iff {place : Place} {advertised : Option PeerInfo} {now : Millis}
    {quota : Nat} : place.refresh advertised now quota = away ↔ advertised = none := by
  cases advertised with
  | none => simp [refresh]
  | some info => simp [refresh, release_eq_away_iff, meet_ne_away]

end Place

/-! ### Schedules -/

namespace RequestSchedule

/-- A peer stands at a place of a schedule with a quota: what is known of the peer, whether it is
available and whether it is booked agree with the place, only headers of tracked peers wait, and
those of the peer are its own. -/
structure Stands (s : RequestSchedule) (quota : Nat) (peer : PeerId) (place : Place) : Prop where
  /-- A peer may be asked so often in any second. -/
  limit : s.maxPerSecond = quota
  /-- What is known of the peer. -/
  known : s.peers[peer]? = place.known
  /-- It is available exactly at a free place. -/
  available : peer ∈ s.available ↔ ∃ p, place = .free p
  /-- It is booked exactly at a busy place. -/
  booked : peer ∈ s.booked ↔ ∃ p, place = .busy p
  /-- No headers of a peer wait that is away. -/
  queued : peer ∈ s.headers.queues → place ≠ .away
  /-- Its headers are its own. -/
  own : s.headers.Own peer

variable {s : RequestSchedule} {quota : Nat} {peer other : PeerId} {place : Place}

/-- In a new schedule every peer is away. -/
theorem stands_new (maxPerSecond : Nat) (expiry : Millis) (seed : UInt64) (peer : PeerId) :
    (RequestSchedule.new maxPerSecond expiry seed).Stands (max maxPerSecond 1) peer .away := by
  refine ⟨rfl, by simp [new], by simp [new], by simp [new], by simp [new, HeaderStore.empty], ?_⟩
  apply HeaderStore.Own.of_notMem
  simp [new, HeaderStore.empty]

namespace Stands

theorem congr {t : RequestSchedule} (h : s.Stands quota peer place)
    (limit : t.maxPerSecond = s.maxPerSecond) (known : t.peers[peer]? = s.peers[peer]?)
    (available : peer ∈ t.available ↔ peer ∈ s.available)
    (booked : peer ∈ t.booked ↔ peer ∈ s.booked) (headers : t.headers = s.headers) :
    t.Stands quota peer place :=
  ⟨limit.trans h.limit, known.trans h.known, available.trans h.available, booked.trans h.booked,
    fun hq ↦ h.queued (headers ▸ hq), fun b hb ↦ h.own b (headers ▸ hb)⟩

theorem mem_peers_iff (h : s.Stands quota peer place) : peer ∈ s.peers ↔ place ≠ .away := by
  rw [Std.ExtTreeMap.mem_iff_isSome_getElem?, h.known, Option.isSome_iff_ne_none, ne_eq,
    Place.known_eq_none_iff]

theorem mem_departed_iff (h : s.Stands quota peer place) {registry : Registry} :
    peer ∈ s.departed registry ↔ place ≠ .away ∧ peer ∉ registry.peers := by
  rw [departed, List.mem_filter, Std.ExtTreeMap.mem_keys, h.mem_peers_iff, Bool.not_eq_true',
    ← Bool.not_eq_true, Std.ExtTreeMap.contains_iff_mem]

/-- The connected peers that are away join. -/
theorem exists_mem_joining_iff (h : s.Stands quota peer place) {registry : Registry} :
    (∃ entry ∈ s.joining registry, entry.1 = peer) ↔ peer ∈ registry.peers ∧ place = .away := by
  constructor
  · rintro ⟨⟨_, info⟩, hentry, rfl⟩
    obtain ⟨hactive, huntracked⟩ := List.mem_filter.mp hentry
    rw [Bool.not_eq_true', ← Bool.not_eq_true, Std.ExtTreeMap.contains_iff_mem, h.mem_peers_iff,
      not_not] at huntracked
    have hfound := Std.ExtTreeMap.mem_toList_iff_getElem?_eq_some.mp hactive
    exact ⟨Std.ExtTreeMap.mem_iff_isSome_getElem?.mpr (by rw [hfound]; rfl), huntracked⟩
  · rintro ⟨hconnected, haway⟩
    rw [Std.ExtTreeMap.mem_iff_isSome_getElem?] at hconnected
    obtain ⟨info, hfound⟩ := Option.isSome_iff_exists.mp hconnected
    refine ⟨(peer, info), List.mem_filter.mpr ⟨?_, ?_⟩, rfl⟩
    · exact Std.ExtTreeMap.mem_toList_iff_getElem?_eq_some.mpr hfound
    · rw [Bool.not_eq_true', ← Bool.not_eq_true, Std.ExtTreeMap.contains_iff_mem, h.mem_peers_iff,
        not_not]
      exact haway

/-- A peer that is dropped is away. -/
theorem removePeer (h : s.Stands quota peer place) (other : PeerId) :
    (s.removePeer other).Stands quota peer (if other = peer then .away else place) := by
  by_cases he : other = peer
  · subst he
    have hgone : other ∉ (s.headers.removePeer other).2.queues := by simp [HeaderStore.removePeer]
    rw [if_pos rfl]
    exact ⟨h.limit, by simp [RequestSchedule.removePeer], by simp [RequestSchedule.removePeer],
      by simp [RequestSchedule.removePeer], fun hq ↦ absurd hq hgone, .of_notMem hgone⟩
  · rw [if_neg he]
    refine ⟨h.limit, ?_, ?_, ?_, ?_, ?_⟩
    · simpa [RequestSchedule.removePeer, Std.ExtTreeMap.getElem?_erase, he] using h.known
    · simpa [RequestSchedule.removePeer, he] using h.available
    · simpa [RequestSchedule.removePeer, he] using h.booked
    · intro hq
      exact h.queued (Std.ExtTreeMap.mem_erase.mp hq).2
    · exact h.own.removePeer other

/-- What becomes known of another peer does not move this one. -/
theorem withPeer_of_ne (h : s.Stands quota peer place) (hne : other ≠ peer) (q : PeerRequests) :
    (s.withPeer other q).Stands quota peer place :=
  h.congr rfl (by rw [getElem?_withPeer, if_neg hne]) .rfl .rfl rfl

/-- A request to another peer does not move this one. -/
theorem asked_of_ne (h : s.Stands quota peer place) (hne : other ≠ peer) (q : PeerRequests)
    (height : UInt64) : (s.asked other q height).Stands quota peer place :=
  (h.withPeer_of_ne hne q).congr rfl rfl (by simp [asked, withPeer, hne])
    (by simp [asked, withPeer, hne]) rfl

variable {p : PeerRequests}

/-- A free peer stays free when something else becomes known of it. -/
theorem withPeer_free (h : s.Stands quota peer (.free p)) (q : PeerRequests) :
    (s.withPeer peer q).Stands quota peer (.free q) := by
  refine ⟨h.limit, by simp [withPeer], ?_, ?_, by simp, h.own⟩
  · simpa [withPeer] using h.available
  · simpa [withPeer] using h.booked

/-- A busy peer stays busy when something else becomes known of it. -/
theorem withPeer_busy (h : s.Stands quota peer (.busy p)) (q : PeerRequests) :
    (s.withPeer peer q).Stands quota peer (.busy q) := by
  refine ⟨h.limit, by simp [withPeer], ?_, ?_, by simp, h.own⟩
  · simpa [withPeer] using h.available
  · simpa [withPeer] using h.booked

theorem freed (h : s.Stands quota peer (.busy p)) : (s.freed peer).Stands quota peer (.free p) := by
  refine ⟨h.limit, h.known, ?_, ?_, by simp, h.own⟩
  · simp [RequestSchedule.freed]
  · simp [RequestSchedule.freed]

/-- A free peer that is asked is busy. -/
theorem asked (h : s.Stands quota peer (.free p)) (q : PeerRequests) (height : UInt64) :
    (s.asked peer q height).Stands quota peer (.busy q) := by
  refine ⟨h.limit, by simp [RequestSchedule.asked, withPeer], ?_, ?_, by simp, h.own⟩
  · simp [RequestSchedule.asked]
  · simp [RequestSchedule.asked]

/-- A connected peer is met, and the others stay. -/
theorem meet (h : s.Stands quota peer place) (other : PeerId) (info : PeerInfo) :
    (s.meet other info).Stands quota peer (if other = peer then place.meet info else place) := by
  unfold RequestSchedule.meet
  by_cases he : other = peer
  · subst he
    rw [if_pos rfl, h.known]
    cases place with
    | away =>
      refine ⟨h.limit, by simp [Place.meet], by simp [Place.meet], ?_, by simp [Place.meet],
        h.own⟩
      simpa [Place.meet] using h.booked
    | free p => exact h.withPeer_free _
    | busy p => exact h.withPeer_busy _
  · rw [if_neg he]
    split
    · exact h.withPeer_of_ne he _
    · exact h.congr rfl (by simp [Std.ExtTreeMap.getElem?_insert, he]) (by simp [he]) .rfl rfl

/-- A peer is released if it may be, and the others stay. -/
theorem releaseIfAllowed (h : s.Stands quota peer place) (now : Millis) (other : PeerId) :
    (s.releaseIfAllowed now other).Stands quota peer
      (if other = peer then place.release now quota else place) := by
  have hidle (hnot : other ∉ s.booked) : s.releaseIfAllowed now other = s :=
    (s.releaseIfAllowed_cases now other).resolve_right fun ⟨_, _, hbooked, _⟩ ↦ hnot hbooked
  by_cases he : other = peer
  · subst he
    rw [if_pos rfl]
    cases place with
    | busy p =>
      rw [releaseIfAllowed_of_booked (h.booked.mpr ⟨p, rfl⟩) h.known, Place.release, h.limit]
      split
      · exact (h.withPeer_busy _).freed
      · exact h.withPeer_busy _
    | away =>
      rw [hidle (by simp [h.booked])]
      exact h
    | free p =>
      rw [hidle (by simp [h.booked])]
      exact h
  · rw [if_neg he]
    rcases s.releaseIfAllowed_cases now other with hs | ⟨p, q, -, -, -, -, hs | hs⟩
    · rw [hs]
      exact h
    · rw [hs]
      exact h.withPeer_of_ne he q
    · rw [hs]
      exact (h.withPeer_of_ne he q).congr rfl rfl (by simp [RequestSchedule.freed, he])
        (by simp [RequestSchedule.freed, he]) rfl

end Stands

/-! ### A refresh -/

/-- When each step of a fold moves the place of a peer or leaves it, and moving it again changes
nothing, the fold moves it if any step does. -/
theorem foldl_place {α : Type} (op : RequestSchedule → α → RequestSchedule) (mine : α → Prop)
    [DecidablePred mine] (move : Place → Place) (again : ∀ place, move (move place) = move place)
    (l : List α) : ∀ {s : RequestSchedule} {place : Place},
      (∀ a ∈ l, ∀ (s : RequestSchedule) place, s.Stands quota peer place →
        (op s a).Stands quota peer (if mine a then move place else place)) →
      s.Stands quota peer place →
      (l.foldl op s).Stands quota peer (if ∃ a ∈ l, mine a then move place else place) := by
  induction l with
  | nil =>
    intro s place _ h
    simpa using h
  | cons a rest ih =>
    intro s place hstep h
    have hrest := ih (fun b hb ↦ hstep b (List.mem_cons_of_mem a hb))
      (hstep a List.mem_cons_self s place h)
    have hany : (∃ b ∈ a :: rest, mine b) ↔ mine a ∨ ∃ b ∈ rest, mine b := by simp
    rw [List.foldl_cons, if_congr hany rfl rfl]
    -- A later step may move the place again, which changes nothing.
    by_cases ha : mine a
    · rw [if_pos (.inl ha)]
      rw [if_pos ha, again, ite_self] at hrest
      exact hrest
    · rw [if_congr (or_iff_right ha) rfl rfl]
      rw [if_neg ha] at hrest
      exact hrest

namespace Stands

/-- The peers that are no longer connected are away, and the others stay. -/
theorem foldl_departed (h : s.Stands quota peer place) (registry : Registry) :
    ((s.departed registry).foldl RequestSchedule.removePeer s).Stands quota peer
      (if peer ∈ registry.peers then place else .away) := by
  have hfold := foldl_place RequestSchedule.removePeer (fun other ↦ other = peer) (fun _ ↦ .away)
    (fun _ ↦ rfl) (s.departed registry) (fun other _ t _ ht ↦ ht.removePeer other) h
  have hdeparted : (∃ other ∈ s.departed registry, other = peer) ↔
      place ≠ .away ∧ peer ∉ registry.peers := by
    rw [exists_eq_right, h.mem_departed_iff]
  have hplace : (if ∃ other ∈ s.departed registry, other = peer then .away else place) =
      if peer ∈ registry.peers then place else .away := by
    grind
  rw [hplace] at hfold
  exact hfold

/-- The connected peers are met, and the others stay. -/
theorem foldl_active (h : s.Stands quota peer place) (registry : Registry) :
    (registry.active.foldl (fun s entry ↦ s.meet entry.1 entry.2) s).Stands quota peer
      (match registry.peers[peer]? with
        | none => place
        | some info => place.meet info) := by
  have hadvertised {entry : PeerId × PeerInfo} (hentry : entry ∈ registry.active) :
      registry.peers[entry.1]? = some entry.2 :=
    Std.ExtTreeMap.mem_toList_iff_getElem?_eq_some.mp hentry
  cases hpeer : registry.peers[peer]? with
  | none =>
    have hnone {entry : PeerId × PeerInfo} (hentry : entry ∈ registry.active) :
        ¬ entry.1 = peer := by
      rintro rfl
      rw [hadvertised hentry] at hpeer
      cases hpeer
    have hfold := foldl_place (fun t entry ↦ t.meet entry.1 entry.2) (fun entry ↦ entry.1 = peer)
      id (fun _ ↦ rfl) registry.active (fun entry hentry t place ht ↦ by
        have hmet := ht.meet entry.1 entry.2
        rw [if_neg (hnone hentry)] at hmet ⊢
        exact hmet) h
    rw [if_neg (fun ⟨_, hentry, he⟩ ↦ hnone hentry he)] at hfold
    exact hfold
  | some info =>
    have hmem : ∃ entry ∈ registry.active, entry.1 = peer :=
      ⟨(peer, info), Std.ExtTreeMap.mem_toList_iff_getElem?_eq_some.mpr hpeer, rfl⟩
    have hfold := foldl_place (fun t entry ↦ t.meet entry.1 entry.2) (fun entry ↦ entry.1 = peer)
      (Place.meet info) (fun place ↦ place.meet_meet info) registry.active
      (fun entry hentry t place ht ↦ by
        have hmet := ht.meet entry.1 entry.2
        by_cases he : entry.1 = peer
        · have hinfo := hadvertised hentry
          rw [he, hpeer, Option.some_inj] at hinfo
          rw [hinfo]
          exact hmet
        · rw [if_neg he] at hmet ⊢
          exact hmet) h
    rw [if_pos hmem] at hfold
    exact hfold

/-- The booked peers are released if they may be, and the others stay. -/
theorem foldl_booked (h : s.Stands quota peer place) (now : Millis) :
    (s.booked.toList.foldl (RequestSchedule.releaseIfAllowed now) s).Stands quota peer
      (place.release now quota) := by
  have hfold := foldl_place (RequestSchedule.releaseIfAllowed now) (fun other ↦ other = peer)
    (Place.release now quota) (fun place ↦ place.release_release now quota) s.booked.toList
    (fun other _ t _ ht ↦ ht.releaseIfAllowed now other) h
  have hplace : (if ∃ other ∈ s.booked.toList, other = peer then place.release now quota
      else place) = place.release now quota := by
    cases place <;> simp [h.booked, Place.release]
  rw [hplace] at hfold
  exact hfold

/-- A refresh moves every peer by what it advertises now. -/
theorem refresh (h : s.Stands quota peer place) (registry : Registry) (now : Millis) :
    (s.refresh registry now).Stands quota peer
      (place.refresh registry.peers[peer]? now quota) := by
  have hleft := h.foldl_departed registry
  unfold RequestSchedule.refresh
  dsimp only
  generalize (s.departed registry).foldl RequestSchedule.removePeer s = t at *
  have hheight : ({ t with networkHeight := registry.bestHead.getD 0 } : RequestSchedule).Stands
      quota peer (if peer ∈ registry.peers then place else .away) :=
    hleft.congr rfl rfl .rfl .rfl rfl
  have hfreed := (hheight.foldl_active registry).foldl_booked now
  cases hpeer : registry.peers[peer]? with
  | none =>
    have hgone : peer ∉ registry.peers := by
      simp [Std.ExtTreeMap.mem_iff_isSome_getElem?, hpeer]
    rw [hpeer, if_neg hgone] at hfreed
    exact hfreed
  | some info =>
    have hhere : peer ∈ registry.peers := by
      rw [Std.ExtTreeMap.mem_iff_isSome_getElem?, hpeer]
      rfl
    rw [hpeer, if_pos hhere] at hfreed
    exact hfreed

end Stands

/-! ### Requests -/

/-- Something else may be known of a peer, but not when it was asked. -/
def Noted (s : RequestSchedule) (peer : PeerId) (p : PeerRequests) (t : RequestSchedule) : Prop :=
  ∃ q, t = s.withPeer peer q ∧ q.times = p.times

/-- Where the request to a peer cannot be issued, the peer was not asked. -/
theorem noted_settle {mode : SyncMode} {now : Millis} {p q : PeerRequests}
    {first next : UInt64} {e : Fault} {t : RequestSchedule}
    (h : (settle mode now peer p first next).exec (s.withPeer peer q) = (.error e, t)) :
    s.Noted peer p t := by
  unfold settle at h
  dsimp only at h
  rw [Step.exec_bind_of_ok (exec_setPeer ..), withPeer_withPeer] at h
  split at h
  · rw [Step.exec_bind, Step.exec_lift] at h
    cases hsum : checkedAdd first p.nextSize.toUInt64 with
    | error e =>
      rw [hsum] at h
      cases h
      exact ⟨_, rfl, rfl⟩
    | ok after =>
      rw [hsum] at h
      cases h
  · rw [Step.exec_bind_of_ok (exec_setPeer ..)] at h
    cases h

/-- A visit that faults did not ask the peer. -/
theorem noted_visit {p : PeerRequests} (hp : s.peers[peer]? = some p) {mode : SyncMode}
    {now : Millis} {nextFirst : UInt64} {e : Fault} {t : RequestSchedule}
    (h : (visit mode now peer nextFirst).exec s = (.error e, t)) : s.Noted peer p t := by
  unfold visit at h
  rw [Step.exec_bind_of_ok (Step.exec_get s), hp] at h
  dsimp only at h
  rw [Step.exec_bind_of_ok (exec_setPeer ..)] at h
  cases mode with
  | backward => exact noted_settle h
  | forward =>
    simp only [Step.exec_bind, Step.exec_lift] at h
    cases hsum : checkedAdd p.first p.size.toUInt64 with
    | error e =>
      rw [hsum] at h
      cases h
      exact ⟨_, rfl, rfl⟩
    | ok first =>
      rw [hsum] at h
      exact noted_settle h
  | normal =>
    have hstart {first : UInt64} {r : PeerRequests}
        (h : (do
          setPeer peer ⟨p.name, .normal, first, p.size, p.lastBest, p.times⟩
          let after ← checkedAdd first p.nextSize.toUInt64
          settle .normal now peer p first (max (← get).requestHeight after)).exec
            (s.withPeer peer r) = (.error e, t)) : s.Noted peer p t := by
      rw [Step.exec_bind_of_ok (exec_setPeer ..), withPeer_withPeer] at h
      simp only [Step.exec_bind, Step.exec_lift] at h
      cases hsum : checkedAdd first p.nextSize.toUInt64 with
      | error e =>
        rw [hsum] at h
        cases h
        exact ⟨_, rfl, rfl⟩
      | ok after =>
        rw [hsum] at h
        exact noted_settle h
    by_cases hsame : p.first = nextFirst
    · rw [if_pos hsame, Step.exec_bind, Step.exec_lift] at h
      cases hsum : checkedAdd nextFirst p.size.toUInt64 with
      | error e =>
        rw [hsum] at h
        cases h
        exact ⟨_, rfl, rfl⟩
      | ok first =>
        rw [hsum] at h
        exact hstart h
    · rw [if_neg hsame] at h
      exact hstart h

/-- How a visit of a peer ends, and the schedule that it leaves. -/
inductive Visits (now : Millis) (peer : PeerId) (s : RequestSchedule) :
    Except Fault (Option HeaderRequest × UInt64) → RequestSchedule → Prop
  /-- The peer is not tracked. -/
  | untracked {next : UInt64} (unknown : s.peers[peer]? = none) :
    Visits now peer s (.ok (none, next)) s
  /-- A sum does not fit. -/
  | faulted {p : PeerRequests} {e : Fault} {t : RequestSchedule} (known : s.peers[peer]? = some p)
    (noted : s.Noted peer p t) : Visits now peer s (.error e) t
  /-- The peer is not asked. -/
  | withheld {p : PeerRequests} {next : UInt64} {t : RequestSchedule}
    (known : s.peers[peer]? = some p) (noted : s.Noted peer p t) :
    Visits now peer s (.ok (none, next)) t
  /-- The peer is asked. -/
  | asked {p q : PeerRequests} {request : HeaderRequest} {next height : UInt64}
    (known : s.peers[peer]? = some p) (addressed : request.peer = peer)
    (times : q.times = p.times ++ [now]) :
    Visits now peer s (.ok (some request, next)) (s.asked peer q height)

/-- Every visit ends in one of the cases. -/
theorem visits_visit (mode : SyncMode) (now : Millis) (peer : PeerId) (nextFirst : UInt64)
    (s : RequestSchedule) :
    Visits now peer s ((visit mode now peer nextFirst).exec s).1
      ((visit mode now peer nextFirst).exec s).2 := by
  cases hp : s.peers[peer]? with
  | none =>
    have hrun : (visit mode now peer nextFirst).exec s = (.ok (none, nextFirst), s) := by
      unfold visit
      rw [Step.exec_bind_of_ok (Step.exec_get s), hp]
      rfl
    rw [hrun]
    exact .untracked hp
  | some p =>
    have hend := visitEnd_visit hp mode now nextFirst
    cases hrun : (visit mode now peer nextFirst).exec s with
    | mk r t =>
      rw [hrun] at hend
      cases r with
      | error e => exact .faulted hp (noted_visit hp hrun)
      | ok answer =>
        obtain ⟨request, next⟩ := answer
        cases hend with
        | asked _ _ => exact .asked hp rfl rfl
        | withheld _ _ _ => exact .withheld hp ⟨_, rfl, rfl⟩

/-- Visiting peers is visiting the first one and then, unless that faults, the rest. -/
theorem exec_visitAll_cons (modes : ModeTable) (now : Millis) (peer : PeerId) (rest : List PeerId)
    (nextFirst : UInt64) (s : RequestSchedule) :
    (visitAll modes now (peer :: rest) nextFirst).exec s =
      match (visit (modes.mode peer) now peer nextFirst).exec s with
      | (.error e, t) => (.error e, t)
      | (.ok (request, next), t) =>
        (((visitAll modes now rest next).exec t).1.map fun requests ↦ request.toList ++ requests,
          (visitAll modes now rest next).leaves t) := by
  rw [visitAll, Step.exec_bind]
  cases (visit (modes.mode peer) now peer nextFirst).exec s with
  | mk r t =>
    cases r with
    | error e => rfl
    | ok answer =>
      dsimp only
      rw [Step.exec_bind, Step.leaves]
      cases (visitAll modes now rest answer.2).exec t with
      | mk r' t' => cases r' <;> rfl

/-- How many requests of a pass ask a peer, if the pass does not fault. -/
def AsksOf (peer : PeerId) (n : Nat) (answer : Except Fault (List HeaderRequest)) : Prop :=
  ∀ requests, answer = .ok requests → requests.countP (fun r ↦ r.peer = peer) = n

theorem AsksOf.append {n m : Nat} {answer : Except Fault (List HeaderRequest)}
    (h : AsksOf peer n answer) {request : Option HeaderRequest}
    (first : request.toList.countP (fun r ↦ r.peer = peer) = m) :
    AsksOf peer (m + n) (answer.map fun requests ↦ request.toList ++ requests) := by
  intro requests hrequests
  cases answer with
  | error e => cases hrequests
  | ok rest =>
    cases hrequests
    rw [List.countP_append, first, h rest rfl]

namespace Stands

/-- A visit of another peer does not move this one, nor does it ask it. -/
theorem visit_of_ne (h : s.Stands quota peer place) (hne : other ≠ peer) {now : Millis}
    {r : Except Fault (Option HeaderRequest × UInt64)} {t : RequestSchedule}
    (visits : Visits now other s r t) :
    t.Stands quota peer place ∧ ∀ request next, r = .ok (request, next) →
      request.toList.countP (fun r ↦ r.peer = peer) = 0 := by
  cases visits with
  | untracked _ => exact ⟨h, by simp⟩
  | faulted _ noted =>
    obtain ⟨q, rfl, -⟩ := noted
    exact ⟨h.withPeer_of_ne hne q, by simp⟩
  | withheld _ noted =>
    obtain ⟨q, rfl, -⟩ := noted
    exact ⟨h.withPeer_of_ne hne q, by simp⟩
  | asked _ addressed _ =>
    refine ⟨h.asked_of_ne hne _ _, ?_⟩
    rintro request next hr
    cases hr
    simp [addressed, hne]

/-- A visit of a free peer asks it at most once. -/
theorem visit_self {p : PeerRequests} (h : s.Stands quota peer (.free p)) {now : Millis}
    {r : Except Fault (Option HeaderRequest × UInt64)} {t : RequestSchedule}
    (visits : Visits now peer s r t) :
    ∃ n reached, Place.Issued now (.free p) n reached ∧ t.Stands quota peer reached ∧
      ∀ request next, r = .ok (request, next) →
        request.toList.countP (fun r ↦ r.peer = peer) = n := by
  have hknown {q : PeerRequests} (hq : s.peers[peer]? = some q) : q = p := by
    rw [h.known] at hq
    exact (Option.some.inj hq).symm
  cases visits with
  | untracked unknown =>
    rw [h.known] at unknown
    cases unknown
  | faulted known noted =>
    obtain ⟨q, rfl, times⟩ := noted
    rw [hknown known] at times
    exact ⟨0, _, .noted times, h.withPeer_free q, by simp⟩
  | withheld known noted =>
    obtain ⟨q, rfl, times⟩ := noted
    rw [hknown known] at times
    exact ⟨0, _, .noted times, h.withPeer_free q, by simp⟩
  | asked known addressed times =>
    rw [hknown known] at times
    refine ⟨1, _, .asked times, h.asked _ _, ?_⟩
    rintro request next hr
    cases hr
    simp [addressed]

/-- Visits of other peers do not move this one, nor do they ask it. -/
theorem visitAll_of_notMem (modes : ModeTable) (now : Millis) (l : List PeerId)
    (hnot : peer ∉ l) : ∀ {s : RequestSchedule} (nextFirst : UInt64), s.Stands quota peer place →
      ((visitAll modes now l nextFirst).leaves s).Stands quota peer place ∧
        AsksOf peer 0 ((visitAll modes now l nextFirst).exec s).1 := by
  induction l with
  | nil =>
    intro s nextFirst h
    refine ⟨h, ?_⟩
    rintro requests hrequests
    cases hrequests
    rfl
  | cons other rest ih =>
    intro s nextFirst h
    rw [List.mem_cons, not_or] at hnot
    obtain ⟨hne, hrest⟩ := hnot
    obtain ⟨hvisit, hasked⟩ := h.visit_of_ne (Ne.symm hne)
      (visits_visit (modes.mode other) now other nextFirst s)
    rw [Step.leaves, exec_visitAll_cons]
    cases hrun : (visit (modes.mode other) now other nextFirst).exec s with
    | mk r t =>
      rw [hrun] at hvisit hasked
      cases r with
      | error e => exact ⟨hvisit, by simp [AsksOf]⟩
      | ok answer =>
        obtain ⟨hleaves, hothers⟩ := ih hrest answer.2 hvisit
        exact ⟨hleaves, hothers.append (hasked answer.1 answer.2 rfl)⟩

/-- Visits of different peers, of which the available ones are free, ask each of them at most
once. -/
theorem visitAll (modes : ModeTable) (now : Millis) (l : List PeerId) (distinct : l.Nodup) :
    ∀ {s : RequestSchedule} (nextFirst : UInt64), s.Stands quota peer place →
      (peer ∈ l → ∃ p, place = .free p) →
      ∃ n reached, Place.Issued now place n reached ∧
        ((RequestSchedule.visitAll modes now l nextFirst).leaves s).Stands quota peer reached ∧
        AsksOf peer n ((RequestSchedule.visitAll modes now l nextFirst).exec s).1 := by
  induction l with
  | nil =>
    intro s nextFirst h _
    obtain ⟨hleaves, hasks⟩ := h.visitAll_of_notMem modes now [] List.not_mem_nil nextFirst
    exact ⟨0, place, .kept place, hleaves, hasks⟩
  | cons other rest ih =>
    intro s nextFirst h hfree
    obtain ⟨hnot, hdistinct⟩ := List.nodup_cons.mp distinct
    rw [Step.leaves, exec_visitAll_cons]
    have hvisits := visits_visit (modes.mode other) now other nextFirst s
    cases hrun : (visit (modes.mode other) now other nextFirst).exec s with
    | mk r t =>
      rw [hrun] at hvisits
      by_cases he : other = peer
      · -- The rest are other peers, so that this visit decides.
        subst he
        obtain ⟨p, rfl⟩ := hfree List.mem_cons_self
        obtain ⟨n, reached, hissued, hvisit, hasked⟩ := h.visit_self hvisits
        cases r with
        | error e => exact ⟨n, reached, hissued, hvisit, by simp [AsksOf]⟩
        | ok answer =>
          obtain ⟨hleaves, hothers⟩ :=
            hvisit.visitAll_of_notMem modes now rest hnot answer.2
          exact ⟨n, reached, hissued, hleaves, hothers.append (hasked answer.1 answer.2 rfl)⟩
      · obtain ⟨hvisit, hasked⟩ := h.visit_of_ne he hvisits
        cases r with
        | error e => exact ⟨0, place, .kept place, hvisit, by simp [AsksOf]⟩
        | ok answer =>
          obtain ⟨n, reached, hissued, hleaves, hothers⟩ := ih hdistinct answer.2 hvisit
            fun hmem ↦ hfree (List.mem_cons_of_mem _ hmem)
          have hall := hothers.append (hasked answer.1 answer.2 rfl)
          rw [Nat.zero_add] at hall
          exact ⟨n, reached, hissued, hleaves, hall⟩

end Stands

/-- Picking peers changes the random numbers only, and picks peers of the list, each once. -/
theorem exec_pick (candidates : List PeerId) (s : RequestSchedule) :
    ∃ r random, (pick candidates).exec s = (r, { s with random }) ∧
      ∀ chosen, r = .ok chosen → chosen.Sublist candidates := by
  unfold pick
  rw [Step.exec_bind_of_ok (Step.exec_get s), Step.exec_bind, Step.exec_lift]
  cases checkedAdd s.localHeight maxAhead with
  | error e => exact ⟨.error e, s.random, rfl, by simp⟩
  | ok limit =>
    dsimp only
    split
    · refine ⟨_, _, rfl, ?_⟩
      rintro chosen hchosen
      cases hchosen
      cases hpeer : candidates[(s.random.below candidates.length).1]? with
      | none => exact List.nil_sublist _
      | some picked => exact List.singleton_sublist.mpr (List.mem_of_getElem? hpeer)
    · refine ⟨_, s.random, rfl, ?_⟩
      rintro chosen hchosen
      cases hchosen
      exact List.Sublist.refl _

/-- What every visit keeps, whatever the local height and the random numbers are, is kept when the
requests of a pass are issued. -/
theorem keeps_issue {P : RequestSchedule → Prop} {now : Millis}
    (raised : ∀ (s : RequestSchedule) localHeight, P s → P { s with localHeight })
    (drawn : ∀ (s : RequestSchedule) random, P s → P { s with random })
    (visited : ∀ mode peer nextFirst, Step.Keeps P (visit mode now peer nextFirst))
    (registry : Registry) (modes : ModeTable) (localBest : UInt64) (localTotal : Difficulty) :
    Step.Keeps P (issue registry modes now localBest localTotal) := by
  have hvisitAll (peers : List PeerId) : ∀ next, Step.Keeps P (visitAll modes now peers next) := by
    induction peers with
    | nil => exact fun _ ↦ .pure _
    | cons peer rest ih =>
      exact fun next ↦ .bind (visited _ peer next) fun event ↦ .bind (ih event.2) fun _ ↦ .pure _
  have hpick (candidates : List PeerId) : Step.Keeps P (pick candidates) := by
    intro s h
    obtain ⟨r, random, hrun, -⟩ := exec_pick candidates s
    rw [Step.leaves, hrun]
    exact drawn s random h
  refine .bind (fun s h ↦ raised s _ h) fun _ ↦ .bind (.lift _) fun _ ↦
    .bind (fun _ h ↦ h) fun s ↦ ?_
  exact .bind (hpick _) fun chosen ↦ hvisitAll chosen _

theorem nodup_candidates (s : RequestSchedule) (registry : Registry) (localTotal : Difficulty) :
    (s.candidates registry localTotal).Nodup := by
  apply List.Pairwise.filter
  apply s.available.distinct_toList.imp
  rintro a b hab rfl
  exact hab Std.ReflOrd.compare_self

namespace Stands

/-- Issuing the requests of a pass asks a peer at most once, and only a free one. -/
theorem issue (h : s.Stands quota peer place) (registry : Registry) (modes : ModeTable)
    (now : Millis) (localBest : UInt64) (localTotal : Difficulty) :
    ∃ n reached, Place.Issued now place n reached ∧
      ((RequestSchedule.issue registry modes now localBest localTotal).leaves s).Stands quota peer
        reached ∧
      AsksOf peer n ((RequestSchedule.issue registry modes now localBest localTotal).exec s).1 := by
  have hraised (t : RequestSchedule) (ht : t.Stands quota peer place) (random : ChaCha.Random) :
      ({ t with random } : RequestSchedule).Stands quota peer place :=
    ht.congr rfl rfl .rfl .rfl rfl
  have hheight : ({ s with localHeight := max s.localHeight localBest } :
      RequestSchedule).Stands quota peer place := h.congr rfl rfl .rfl .rfl rfl
  unfold RequestSchedule.issue
  rw [Step.leaves, Step.exec_bind_of_ok (Step.exec_modify _ s)]
  generalize ({ s with localHeight := max s.localHeight localBest } : RequestSchedule) = t at *
  rw [Step.exec_bind, Step.exec_lift]
  cases checkedAdd localBest overlapSwitch with
  | error e => exact ⟨0, place, .kept place, hheight, by simp [AsksOf]⟩
  | ok switch =>
    obtain ⟨r, random, hpick, hchosen⟩ := exec_pick (t.candidates registry localTotal) t
    dsimp only
    rw [Step.exec_bind_of_ok (Step.exec_get t), Step.exec_bind, hpick]
    cases r with
    | error e => exact ⟨0, place, .kept place, hraised t hheight random, by simp [AsksOf]⟩
    | ok chosen =>
      have hsub := hchosen chosen rfl
      refine (hraised t hheight random).visitAll modes now chosen
        ((t.nodup_candidates registry localTotal).sublist hsub) _ fun hmem ↦ ?_
      have havailable := (List.mem_filter.mp (hsub.subset hmem)).1
      exact hheight.available.mp (Std.ExtTreeSet.mem_toList.mp havailable)

/-- Headers of a tracked peer wait, and it is released if it may be. -/
theorem storeHeaders (h : s.Stands quota peer place) (batch : HeaderBatch) (now : Millis) :
    (s.storeHeaders batch now).Stands quota peer
      (if batch.peer = peer then place.release now quota else place) := by
  unfold RequestSchedule.storeHeaders
  split
  · next htracked =>
    have hstored : ({ s with headers := s.headers.store batch } : RequestSchedule).Stands quota peer
        place := by
      refine ⟨h.limit, h.known, h.available, h.booked, ?_, h.own.store batch⟩
      intro hq
      rcases HeaderStore.mem_store hq with rfl | hq
      · exact h.mem_peers_iff.mp (Std.ExtTreeMap.contains_iff_mem.mp htracked)
      · exact h.queued hq
    exact hstored.releaseIfAllowed now batch.peer
  · next huntracked =>
    by_cases he : batch.peer = peer
    · rw [Std.ExtTreeMap.contains_iff_mem, he, h.mem_peers_iff, not_not] at huntracked
      subst huntracked
      rw [if_pos he]
      exact h
    · rw [if_neg he]
      exact h

/-- Taking headers of any peer moves no peer. -/
theorem matchHeaders (h : s.Stands quota peer place) (other : PeerId) (size : Nat) :
    (RequestSchedule.matchHeaders other size s).2.Stands quota peer place :=
  ⟨h.limit, h.known, h.available, h.booked, fun hq ↦ h.queued (HeaderStore.mem_take hq),
    h.own.take other size⟩

/-- Dropping headers that waited too long moves no peer. -/
theorem pruneHeaders (h : s.Stands quota peer place) (now : Millis) :
    (s.pruneHeaders now).Stands quota peer place :=
  ⟨h.limit, h.known, h.available, h.booked, fun hq ↦ h.queued (HeaderStore.mem_prune hq),
    h.own.prune now⟩

end Stands

end RequestSchedule
end ChainSync
