import ChainSync.Proofs.Round.Reached
import ChainSync.Proofs.Round.Serving

/-!
# Rounds that change nothing

A peer serves a line that is higher and heavier than the local chain and starts with the same block.
A round with it stands still when neither the chain, nor the pending ranges, nor the mode of the
peer, nor the start of its latest request is another one afterwards. Main statement: rounds stand
still in two traps only. Forwards from height zero, with a line shorter than the size of the latest
request, every request starts above the line and is withheld. Backwards from height one, with every
block of the range remembered, no header passes the screen, so nothing is imported that would move
the mode.
-/

namespace ChainSync

/-! ### Linking the missing blocks of a line -/

/-- No other block is stored under the hash of a block of the line. -/
def Undisputed (d : Nat → Block) (top : Nat) (c : Chain) : Prop :=
  ∀ i ≤ top, ∀ b, c.block? (d i).hash = some b → b = d i

namespace Undisputed

variable {d : Nat → Block} {top : Nat} {c c' : Chain}

/-- A block of the line that is stored under its hash disputes none. -/
theorem added (line : Line d top) (undisputed : Undisputed d top c) {i : Nat} (hi : i ≤ top)
    (hc : ∀ h, c'.block? h = if (d i).hash = h then some (d i) else c.block? h) :
    Undisputed d top c' := by
  intro j hj b hb
  rw [hc] at hb
  split at hb
  · next he =>
    cases hb
    rw [line.hash_inj hi hj he]
  · exact undisputed j hj b hb

/-- A block of the line whose parent is stored is stored by an attempt to link it. -/
theorem attempt (line : Line d top) (undisputed : Undisputed d top c) {i : Nat} (hi : i < top)
    (parent : (c.block? (d i).hash).isSome) {outcome : ImportOutcome}
    (ha : Chain.Attempt c (d (i + 1)) (.ok outcome) c') :
    outcome.isStored = true ∧ Undisputed d top c' := by
  have hparent := line.parent hi
  have hadded {c' : Chain}
      (hc : ∀ h, c'.block? h = if (d (i + 1)).hash = h then some (d (i + 1)) else c.block? h) :
      Undisputed d top c' := undisputed.added line hi hc
  cases ha with
  | exist stored => exact ⟨rfl, undisputed⟩
  | noParent _ orphan =>
    rw [← hparent, orphan] at parent
    cases parent
  | invalid _ found _ misfit =>
    rw [hparent] at found
    obtain rfl := undisputed i (Nat.le_of_lt hi) _ found
    exact absurd (line.follows hi) misfit
  | detached _ _ _ _ | light _ _ _ _ _ | heavy _ _ _ _ _ _ =>
    exact ⟨rfl, hadded fun h ↦ Chain.getElem?_insert_block ..⟩

/-- When every block of the line before a range is stored, and every block of the range that is left
out, then so is every block of the range that is linked. -/
theorem isStored_of_importBlocks (line : Line d top) (keep : Nat → Bool) (n : Nat) :
    ∀ {first : Nat} {last outcome : ImportOutcome} {c c' : Chain} {imported : List Digest},
      1 ≤ first → first + n ≤ top + 1 → Undisputed d top c →
      (∀ i ≤ top, i < first ∨ keep i = false → (c.block? (d i).hash).isSome) →
      last.isStored = true →
      (Chain.importBlocks (((List.range' first n).filter keep).map d) last).exec c =
        (.ok (imported, outcome), c') → outcome.isStored = true := by
  -- By induction on the range; what is stored stays stored, so the heights below it are one more.
  induction n with
  | zero =>
    intro first last outcome c c' imported _ _ _ _ hlast run
    cases run
    exact hlast
  | succ n ih =>
    intro first last outcome c c' imported hone htop undisputed stored hlast run
    rw [List.range'_succ, List.filter_cons] at run
    by_cases hkeep : keep first = true
    · rw [if_pos hkeep, List.map_cons, Chain.exec_importBlocks_cons] at run
      obtain ⟨i, rfl⟩ : ∃ i, first = i + 1 := ⟨first - 1, by omega⟩
      have ha := Chain.attempt_importBlock (c.withHanded (d (i + 1)).hash) (d (i + 1))
      have hparent := stored i (by omega) (.inl (by omega))
      have undisputed' : Undisputed d top (c.withHanded (d (i + 1)).hash) := undisputed
      have hnext {o : ImportOutcome} {c₁ : Chain}
          (ha : Chain.Attempt (c.withHanded (d (i + 1)).hash) (d (i + 1)) (.ok o) c₁) :
          ∀ j ≤ top, j < i + 1 + 1 ∨ keep j = false → (c₁.block? (d j).hash).isSome := by
        intro j hj hor
        by_cases hlow : j < i + 1 ∨ keep j = false
        · obtain ⟨b, hb⟩ := Option.isSome_iff_exists.mp (stored j hj hlow)
          rw [ha.within hb]
          rfl
        · obtain rfl : j = i + 1 := by
            rcases hor with h | h
            · omega
            · exact absurd (.inr h) hlow
          exact ha.isSome_of_isStored (undisputed'.attempt line (by omega) hparent ha).1
      cases hx : (Chain.importBlock (d (i + 1))).exec (c.withHanded (d (i + 1)).hash) with
      | mk r c₁ =>
        rw [hx] at ha run
        cases r with
        | error e => cases run
        | ok o =>
          obtain ⟨hstored, undisputed₁⟩ := undisputed'.attempt line (by omega) hparent ha
          cases o with
          | noParent => cases hstored
          | invalid => cases hstored
          | exist => exact ih (by omega) (by omega) undisputed₁ (hnext ha) hstored run
          | imported best =>
            dsimp only at run
            cases hy : (Chain.importBlocks (((List.range' (i + 1 + 1) n).filter keep).map d)
                (.imported best)).exec c₁ with
            | mk answer c₂ =>
              rw [hy] at run
              cases answer with
              | error e => cases run
              | ok answer =>
                cases run
                exact ih (by omega) (by omega) undisputed₁ (hnext ha) hstored hy
    · rw [if_neg hkeep] at run
      have hkeep : keep first = false := Bool.not_eq_true _ ▸ hkeep
      refine ih (by omega) (by omega) undisputed (fun j hj hor ↦ ?_) hlast run
      by_cases he : j = first
      · exact stored j hj (.inr (he ▸ hkeep))
      · exact stored j hj (hor.imp_left fun h ↦ by omega)

end Undisputed

namespace SyncMode

/-- Blocks of a peer that are stored lead from the backward mode to the forward mode. -/
theorem next_connected_backward {outcome : ImportOutcome} (stored : outcome.isStored = true)
    (salvageable : Bool) : backward.next (.connected outcome salvageable) = forward := by
  cases outcome with
  | noParent | invalid => cases stored
  | exist | imported _ => rfl

/-- A pending range that is stored does not lead to the backward mode. -/
theorem next_drained_ne_backward {mode : SyncMode} {outcome : ImportOutcome}
    (stored : outcome.isStored = true) (onward : mode ≠ backward) :
    mode.next (.drained outcome) ≠ backward := by
  cases outcome with
  | noParent | invalid => cases stored
  | exist =>
    rw [next, if_neg onward]
    exact onward
  | imported best =>
    cases best with
    | true => exact fun h ↦ nomatch h
    | false =>
      rw [next, if_neg onward]
      exact onward

end SyncMode

namespace Seat

/-! ### The way out of the backward mode -/

def Onward (peer : PeerId) (s : Seat) : Prop :=
  peer ∈ s.engine.modes.modes ∧ s.engine.modes.mode peer ≠ .backward

/-- No drain leads back to the backward mode. -/
theorem Onward.keptByDrains (peer : PeerId) : KeptByDrains (Onward peer) where
  linked onward _ := onward
  drained {s} other outcome onward stored := by
    obtain ⟨tracked, mode⟩ := onward
    refine ⟨ModeTable.mem_apply tracked other _, ?_⟩
    by_cases hpeer : other = peer
    · subst hpeer
      change (s.engine.modes.apply other _).2.mode other ≠ _
      rw [(ModeTable.mode_apply tracked _).1]
      exact SyncMode.next_drained_ne_backward stored mode
    · change (s.engine.modes.apply other _).2.mode peer ≠ _
      rw [ModeTable.mode_apply_of_ne hpeer]
      exact mode
  withIndex _ onward := onward

/-- In the backward mode, importing the blocks of the line from height one on that are not
remembered leads out of that mode. -/
theorem Founded.onward {d : Nat → Block} {top : Nat} (line : Line d top) {s t : Seat}
    (founded : Founded (d 0) s) (calm : Calm s) (undisputed : Undisputed d top s.node.chain)
    {peer : PeerId} (tracked : peer ∈ s.engine.modes.modes)
    (mode : s.engine.modes.mode peer = .backward) {name : String} {count : Nat}
    (nonempty : lacking d top s.engine.imported 1 count ≠ []) {report : BatchReport}
    (run : (processBatch ⟨peer, name, (lacking d top s.engine.imported 1 count).map d⟩).exec s =
      (.ok report, t)) : Onward peer t := by
  have hwanted := wanted_lacking founded.unpruned d top 1 count
  have hstored {imported : List Digest} {outcome : ImportOutcome} {c : Chain}
      (links : s.Links (s.wanted ((lacking d top s.engine.imported 1 count).map d)) imported
        outcome c) : outcome.isStored = true := by
    rw [hwanted] at links
    refine Undisputed.isStored_of_importBlocks line (fun i ↦ !s.engine.imported.contains (d i).hash)
      (min count (top + 1 - 1)) (Nat.le_refl 1) (by omega) undisputed (fun i hi hor ↦ ?_) rfl links
    by_cases hz : i = 0
    · rw [hz, founded.first]
      rfl
    · have hknown := (hor.resolve_left (by omega))
      rw [Bool.not_eq_false', RecentSet.contains, List.contains_iff_mem] at hknown
      exact founded.cache hknown
  obtain ⟨answer, u, ends, hok, rfl⟩ := exists_batchEnd_of_ok calm run
  change Onward peer u
  cases ends with
  | nothing empty =>
    rw [hwanted, List.map_eq_nil_iff] at empty
    exact absurd empty nonempty
  | skipped _ other _ => exact absurd mode other
  | refused _ links _ _ unstored =>
    rw [hstored links] at unstored
    cases unstored
  | @drained imported outcome c first _ _ answer _ _ _ _ links _ _ _ drains =>
    cases answer with
    | error e => cases hok
    | ok drained =>
      have hmoved := ModeTable.mode_apply tracked (.connected outcome (s.salvageable first))
      rw [mode, SyncMode.next_connected_backward (hstored links)] at hmoved
      refine ((Onward.keptByDrains peer).drain ((calm.linked links _ _).moved _ _) ?_ drains).2
      exact ⟨hmoved.2, fun h ↦ by cases hmoved.1.symm.trans h⟩
  | noHeight _ _ | uncounted _ _ _ | unfiled _ _ _ _ | noSalvage _ _ _ _ _
  | noLevel _ _ _ _ _ _ => cases hok

/-! ### Where a round starts -/

namespace Latest

variable {s : Seat} {peer : PeerId} {first : UInt64} {size : UInt32} {info : PeerInfo}

/-- The next request starts where the latest one and the mode say. -/
theorem exists_start_eq (latest : s.Latest peer first size) (info : PeerInfo) :
    ∃ p : PeerRequests, p.first = first ∧ p.size = size ∧ s.start peer info = p.nextStart
      (RequestSchedule.nextFirst s.node.chain.bestNumber info.bestNumber)
      (s.engine.modes.mode peer) := by
  obtain ⟨p, hp, hfirst, hsize⟩ := latest
  refine ⟨p, hfirst, hsize, ?_⟩
  rw [start, RequestSchedule.seen, hp, Option.getD_some]

/-- Sizes are not below the least. -/
theorem least_size {due : Millis} (latest : s.Latest peer first size) (quiet : Quiet peer due s) :
    24 ≤ size.toNat := by
  obtain ⟨p, hp, -, rfl⟩ := latest
  exact (quiet.lone.sized hp).least

/-- Only backwards from height one the next request starts where the latest one did. -/
theorem backward_of_start {due : Millis} (latest : s.Latest peer first size)
    (quiet : Quiet peer due s) (same : s.start peer info = first.toNat) :
    s.engine.modes.mode peer = .backward ∧ first = 1 := by
  have hleast := latest.least_size quiet
  have hstep : RequestSchedule.backwardStep.toNat = 128 := rfl
  have hone : (1 : UInt64).toNat = 1 := rfl
  obtain ⟨p, rfl, rfl, hstart⟩ := latest.exists_start_eq info
  rw [hstart] at same
  cases hmode : s.engine.modes.mode peer with
  | backward =>
    rw [hmode, PeerRequests.nextStart] at same
    exact ⟨rfl, UInt64.toNat_inj.mp (by omega)⟩
  | forward =>
    rw [hmode, PeerRequests.nextStart] at same
    omega
  | normal =>
    rw [hmode, PeerRequests.nextStart] at same
    split at same
    · next he =>
      rw [he] at same
      omega
    · next hne => exact absurd (UInt64.toNat_inj.mp same.symm) hne

/-- After a request that was withheld only the forward mode can start above a chain that is higher
than the local one. -/
theorem forward_of_start (latest : s.Latest peer 0 size) {top : Nat}
    (higher : s.node.chain.bestNumber.toNat < top) (beyond : top < s.start peer info) :
    s.engine.modes.mode peer = .forward ∧ top < size.toNat := by
  have hstep : RequestSchedule.backwardStep.toNat = 128 := rfl
  have hzero : (0 : UInt64).toNat = 0 := rfl
  have hbounds := RequestSchedule.nextFirst_bounds s.node.chain.bestNumber info.bestNumber
  obtain ⟨p, hfirst, rfl, hstart⟩ := latest.exists_start_eq info
  rw [hstart] at beyond
  cases hmode : s.engine.modes.mode peer with
  | backward =>
    rw [hmode, PeerRequests.nextStart, hfirst] at beyond
    omega
  | forward =>
    rw [hmode, PeerRequests.nextStart, hfirst] at beyond
    exact ⟨rfl, by omega⟩
  | normal =>
    rw [hmode, PeerRequests.nextStart, hfirst] at beyond
    split at beyond
    · next he =>
      rw [← he] at hbounds
      omega
    · omega

end Latest

/-! ### Rounds that stand still -/

/-- The chain, the pending ranges, the mode of a peer and the start of its latest request are the
same, whatever blocks were handed to the chain. -/
structure StandsStill (peer : PeerId) (s t : Seat) : Prop where
  /-- The chain is the same. -/
  chain : { t.node.chain with handed := s.node.chain.handed } = s.node.chain
  /-- The pending ranges are the same. -/
  pending : t.node.pending = s.node.pending
  /-- The peer is in the same mode. -/
  mode : t.engine.modes.mode peer = s.engine.modes.mode peer
  /-- The latest request started at the same height. -/
  start {first : UInt64} : (∃ size, s.Latest peer first size) → ∃ size, t.Latest peer first size

/-- A peer that serves a line is asked for nothing, or only for blocks that are remembered: the mode
is forward, the latest request was withheld, and the line is shorter than its size; or the mode is
backward, the latest request started at height one, and every block of the next one is
remembered. -/
def Trapped (d : Nat → Block) (top : Nat) (peer : PeerId) (info : PeerInfo) (first : UInt64)
    (size : UInt32) (s : Seat) : Prop :=
  s.engine.modes.mode peer = .forward ∧ first = 0 ∧ top < size.toNat ∨
    s.engine.modes.mode peer = .backward ∧ first = 1 ∧
      ∀ i, 1 ≤ i → i ≤ top → i ≤ (s.ask peer info).toNat → (d i).hash ∈ s.engine.imported.keys

/-- The latest request started at one height only. -/
theorem Latest.first_unique {s : Seat} {peer : PeerId} {first first' : UInt64}
    {size size' : UInt32} (latest : s.Latest peer first size)
    (latest' : s.Latest peer first' size') : first = first' := by
  obtain ⟨p, hp, rfl, -⟩ := latest
  obtain ⟨q, hq, rfl, -⟩ := latest'
  rw [hp] at hq
  cases hq
  rfl

/-- A round that sends the same request as the latest one only goes backwards from height one. -/
theorem StandsStill.backward {s t u : Seat} {peer : PeerId} {due now : Millis} {first : UInt64}
    {size : UInt32} (still : StandsStill peer s u) (latest : s.Latest peer first size)
    (quiet : Quiet peer due s) {info : PeerInfo} {first' : UInt64} {size' : UInt32} {got : Nat}
    (start : first'.toNat = s.start peer info) (settled : Settled peer now first' size' got s t)
    (kept : u.engine.requests = t.engine.requests) :
    first' = 1 ∧ first = 1 ∧ s.engine.modes.mode peer = .backward := by
  obtain ⟨size'', latest'⟩ := still.start ⟨size, latest⟩
  obtain ⟨p, hp, hfirst, hsize⟩ := settled.latest
  obtain rfl := latest'.first_unique ⟨p, by rw [kept, hp], hfirst, hsize⟩
  obtain ⟨hmode, hone⟩ := latest.backward_of_start quiet start.symm
  exact ⟨hone, hone, hmode⟩

section

variable {d : Nat → Block} {top : Nat} {peer : PeerId} {name : String} {due now : Millis}
  {s t : Seat} {first : UInt64} {size : UInt32}

/-- The total difficulty that a peer with a heavier line advertises is not below the local one. -/
theorem not_light (line : Line d top)
    (heavier : s.node.chain.totalDifficulty.toNat < weight d top) (name : String) :
    ¬ (advertised d top name).totalDifficulty < s.node.chain.totalDifficulty := by
  rw [advertised, BitVec.lt_def, line.toNat_weight (Nat.le_refl top)]
  omega

/-- A round that stands still started in a trap. -/
theorem Poised.trapped (poised : Poised (d 0) peer due s) (line : Line d top)
    (active : s.node.registry.active = [(peer, advertised d top name)]) (rested : due ≤ now)
    (undisputed : Undisputed d top s.node.chain) (higher : s.node.chain.bestNumber.toNat < top)
    (heavier : s.node.chain.totalDifficulty.toNat < weight d top)
    (welcome : Remote.Welcome d top s.node.accepts) (latest : s.Latest peer first size)
    (run : (round (.serving d top) now).exec s = (.ok (), t)) (still : StandsStill peer s t) :
    Trapped d top peer (advertised d top name) first size s := by
  have ends := poised.quiet.roundEnd active rested (.serving d top)
  have hnumber : (advertised d top name).bestNumber.toNat = top :=
    line.toNat_number (Nat.le_refl top)
  have hone := poised.quiet.one_le_start (advertised d top name)
  have hfetch {first : UInt64} (start : first.toNat = s.start peer (advertised d top name)) :=
    Remote.fetch_serving line welcome s.engine.imported peer (start ▸ hone)
      (s.ask peer (advertised d top name)) now
  rw [run] at ends
  generalize hanswer : (Except.ok () : Except Fault Unit) = answer at ends
  cases ends with
  | crowded _ | unlinked _ _ _ | uncounted _ _ _ _ => cases hanswer
  | light light _ => exact absurd light (not_light line heavier name)
  | withheld start beyond _ settled =>
    obtain ⟨size', latest'⟩ := still.start ⟨size, latest⟩
    obtain rfl := latest'.first_unique settled.latest
    have habove := UInt64.lt_iff_toNat_lt.mp beyond
    rw [hnumber, start] at habove
    obtain ⟨hmode, hsize⟩ := latest.forward_of_start higher habove
    exact .inl ⟨hmode, rfl, hsize⟩
  | missed start _ fetch settled =>
    obtain ⟨rfl, rfl, hmode⟩ := still.backward latest poised.quiet start settled rfl
    refine .inr ⟨hmode, rfl, fun i hlow hi hask ↦ ?_⟩
    rw [hfetch start] at fetch
    split at fetch
    · next hnil =>
      by_contra hnew
      have hmem : i ∈ lacking d top s.engine.imported (1 : UInt64).toNat
          (s.ask peer (advertised d top name)).toNat := by
        refine mem_lacking.mpr ⟨hlow, ?_, hi, ?_⟩
        · change i < 1 + _
          omega
        · rw [RecentSet.contains, List.contains_eq_mem, decide_eq_false_iff_not]
          exact hnew
      rw [hnil] at hmem
      cases hmem
    · cases fetch
  | @imported _ _ answer t₁ _ start _ fetch settled run' =>
    cases answer with
    | error e => cases hanswer
    | ok report =>
      -- Whatever is imported leads out of the backward mode.
      exfalso
      have poised₁ := poised.of_settled settled
      obtain ⟨-, kept⟩ := (Retains.keptByImports t₁).processBatch poised₁.calm (.refl t₁) run'
      obtain ⟨rfl, rfl, hmode⟩ := still.backward latest poised.quiet start settled kept.schedule
      rw [hfetch start] at fetch
      split at fetch
      · cases fetch
      · next nonempty =>
        cases fetch
        obtain ⟨p, hp, -⟩ := settled.latest
        have tracked := settled.quiet.tracked
          (Std.ExtTreeMap.mem_iff_isSome_getElem?.mpr (by rw [hp]; rfl))
        have undisputed₁ : Undisputed d top t₁.node.chain := settled.beside.chain ▸ undisputed
        rw [← settled.beside.imported] at run' nonempty
        have onward := poised₁.founded.onward line poised₁.calm undisputed₁ tracked
          (settled.beside.mode.trans hmode) nonempty run'
        exact onward.2 (still.mode.trans hmode)

/-- In a trap the next request starts above the line, or at height one with nothing to bring. -/
theorem Trapped.start_cases {info : PeerInfo} (trapped : Trapped d top peer info first size s)
    (latest : s.Latest peer first size) :
    first = 0 ∧ top < s.start peer info ∨ first = 1 ∧ s.start peer info = 1 ∧
      lacking d top s.engine.imported 1 (s.ask peer info).toNat = [] := by
  have hzero : (0 : UInt64).toNat = 0 := rfl
  have hone : (1 : UInt64).toNat = 1 := rfl
  obtain ⟨p, hfirst, hsize, hp⟩ := latest.exists_start_eq info
  rcases trapped with ⟨hmode, rfl, hshort⟩ | ⟨hmode, rfl, hall⟩
  · rw [hp, hmode, PeerRequests.nextStart, hfirst, hsize]
    exact .inl ⟨rfl, by omega⟩
  · rw [hp, hmode, PeerRequests.nextStart, hfirst, hone]
    refine .inr ⟨rfl, by omega, List.eq_nil_iff_forall_not_mem.mpr fun i hi ↦ ?_⟩
    obtain ⟨hlow, hask, hi, hnew⟩ := mem_lacking.mp hi
    rw [RecentSet.contains, List.contains_eq_mem, decide_eq_false_iff_not] at hnew
    exact hnew (hall i hlow hi (by omega))

/-- A round in a trap ends and stands still, unless the sums of the pass do not fit. -/
theorem Trapped.round (trapped : Trapped d top peer (advertised d top name) first size s)
    (line : Line d top) (quiet : Quiet peer due s)
    (active : s.node.registry.active = [(peer, advertised d top name)]) (rested : due ≤ now)
    (higher : s.node.chain.bestNumber.toNat < top)
    (heavier : s.node.chain.totalDifficulty.toNat < weight d top)
    (welcome : Remote.Welcome d top s.node.accepts) (latest : s.Latest peer first size) :
    (∃ t, (Seat.round (.serving d top) now).exec s = (.ok (), t) ∧ StandsStill peer s t) ∨
      s.Crowded peer (advertised d top name) ∧
        ((Seat.round (.serving d top) now).exec s).1 = .error .additionOverflow := by
  have ends := quiet.roundEnd active rested (.serving d top)
  have hnumber : (advertised d top name).bestNumber.toNat = top :=
    line.toNat_number (Nat.le_refl top)
  have hsame {first' : UInt64} {size' : UInt32} {t : Seat} (hfirst : first' = first)
      (settled : Settled peer now first' size' 0 s t) : StandsStill peer s t := by
    subst hfirst
    refine ⟨by rw [settled.beside.chain], settled.beside.pending, settled.beside.mode, ?_⟩
    rintro other ⟨size'', latest''⟩
    obtain rfl := latest''.first_unique latest
    exact ⟨size', settled.latest⟩
  -- A request that is not withheld is the one from height one, which brings nothing.
  have hinside {first' : UInt64} (start : first'.toNat = s.start peer (advertised d top name))
      (within : first' ≤ (advertised d top name).bestNumber ∨
        (advertised d top name).bestNumber = 0) :
      first' = first ∧ (Remote.serving d top).fetch s.node.accepts s.engine.imported peer
        first' (s.ask peer (advertised d top name)) now = .ok none := by
    rcases trapped.start_cases latest with ⟨-, habove⟩ | ⟨rfl, hstart, hnil⟩
    · rcases within with hle | hz
      · have := UInt64.le_iff_toNat_le.mp hle
        omega
      · rw [hz] at hnumber
        change 0 = top at hnumber
        omega
    · obtain rfl : first' = 1 := UInt64.toNat_inj.mp (start.trans hstart)
      have hlow : 1 ≤ (1 : UInt64).toNat := Nat.le_refl 1
      have hfetch := Remote.fetch_serving line welcome s.engine.imported peer hlow
        (s.ask peer (advertised d top name)) now
      exact ⟨rfl, hfetch.trans (congrArg Except.ok (if_pos hnil))⟩
  cases hrun : (Seat.round (.serving d top) now).exec s with
  | mk answer t =>
    rw [hrun] at ends
    dsimp only at ends
    cases ends with
    | crowded crowded => exact .inr ⟨crowded, rfl⟩
    | light light _ => exact absurd light (not_light line heavier name)
    | withheld start beyond _ settled =>
      have habove := UInt64.lt_iff_toNat_lt.mp beyond
      rcases trapped.start_cases latest with ⟨hfirst, -⟩ | ⟨-, hstart, -⟩
      · exact .inl ⟨t, rfl, hsame hfirst.symm settled⟩
      · omega
    | missed start within _ settled =>
      exact .inl ⟨t, rfl, hsame (hinside start within).1 settled⟩
    | unlinked start within fetch =>
      rw [(hinside start within).2] at fetch
      cases fetch
    | uncounted start within fetch _ | imported start within fetch _ _ =>
      rw [(hinside start within).2] at fetch
      cases fetch

/-- In a trap the sums of a pass fit unless the local chain is too near to the last height. -/
theorem Trapped.not_crowded {info : PeerInfo} (trapped : Trapped d top peer info first size s)
    (quiet : Quiet peer due s) (latest : s.Latest peer first size)
    (room : (max s.engine.requests.localHeight s.node.chain.bestNumber).toNat +
      RequestSchedule.maxAhead.toNat < UInt64.size) : ¬ s.Crowded peer info := by
  have hahead : RequestSchedule.maxAhead.toNat = 10000 := rfl
  have hswitch : RequestSchedule.overlapSwitch.toNat = 128 := rfl
  have hask : (s.ask peer info).toNat ≤ 40 := (quiet.lone.sized_seen info).nextSize.2
  have hsize : size.toNat ≤ 40 := by
    obtain ⟨p, hp, -, rfl⟩ := latest
    exact (quiet.lone.sized hp).greatest
  have hstart : s.start peer info ≤ 40 := by
    have hzero : (0 : UInt64).toNat = 0 := rfl
    have hone : (1 : UInt64).toNat = 1 := rfl
    obtain ⟨p, hfirst, rfl, hp⟩ := latest.exists_start_eq info
    rcases trapped with ⟨hmode, rfl, -⟩ | ⟨hmode, rfl, -⟩
    · rw [hp, hmode, PeerRequests.nextStart, hfirst]
      omega
    · rw [hp, hmode, PeerRequests.nextStart, hfirst]
      omega
  rw [Crowded]
  rw [toNat_max] at room ⊢
  omega

end

/-- Standing still does not depend on who is connected before. -/
theorem standsStill_joined {s t : Seat} {peer other : PeerId} {info : PeerInfo} :
    StandsStill peer (s.joined other info) t ↔ StandsStill peer s t :=
  ⟨fun h ↦ ⟨h.chain, h.pending, h.mode, h.start⟩, fun h ↦ ⟨h.chain, h.pending, h.mode, h.start⟩⟩

section

variable {d : Nat → Block} {top : Nat} {peer : PeerId} {due now : Millis} {s : Seat}
  {first : UInt64} {size : UInt32}

/-- At a seat that is reached a round in a trap ends and stands still, unless the sums of the pass
do not fit. -/
theorem Trapped.meeting {name : String}
    (trapped : Trapped d top peer (advertised d top name) first size s) (line : Line d top)
    (reached : Reached (d 0) peer due s) (rested : due ≤ now)
    (higher : s.node.chain.bestNumber.toNat < top)
    (heavier : s.node.chain.totalDifficulty.toNat < weight d top)
    (welcome : Remote.Welcome d top s.node.accepts) (latest : s.Latest peer first size) :
    (∃ t, (Seat.meeting (.serving d top) peer (advertised d top name) now).exec s = (.ok (), t) ∧
        StandsStill peer s t) ∨
      s.Crowded peer (advertised d top name) ∧
        ((Seat.meeting (.serving d top) peer (advertised d top name) now).exec s).1 =
          .error .additionOverflow := by
  obtain ⟨poised, active⟩ := reached.poised.joined (advertised d top name)
  rw [exec_meeting]
  refine (Trapped.round (s := s.joined peer (advertised d top name)) trapped line poised.quiet
    active rested higher heavier welcome latest).imp_left ?_
  rintro ⟨t, hrun, still⟩
  exact ⟨t, hrun, standsStill_joined.mp still⟩

/-- A peer that was asked before serves a line that is higher and heavier than the local chain and
starts with the same block. A round with it that ends stands still exactly in a trap, and in a trap
it ends unless the local chain is too near to the last height. -/
theorem standsStill_iff_trapped (line : Line d top) (reached : Reached (d 0) peer due s)
    (rested : due ≤ now) (undisputed : Undisputed d top s.node.chain)
    (higher : s.node.chain.bestNumber.toNat < top)
    (heavier : s.node.chain.totalDifficulty.toNat < weight d top)
    (welcome : Remote.Welcome d top s.node.accepts) (latest : s.Latest peer first size)
    (name : String) :
    (∀ t, (meeting (.serving d top) peer (advertised d top name) now).exec s = (.ok (), t) →
      (StandsStill peer s t ↔ Trapped d top peer (advertised d top name) first size s)) ∧
    (Trapped d top peer (advertised d top name) first size s →
      (max s.engine.requests.localHeight s.node.chain.bestNumber).toNat +
        RequestSchedule.maxAhead.toNat < UInt64.size →
      ∃ t, (meeting (.serving d top) peer (advertised d top name) now).exec s = (.ok (), t)) := by
  have htrap (trapped : Trapped d top peer (advertised d top name) first size s) :=
    trapped.meeting line reached rested higher heavier welcome latest
  refine ⟨fun t run ↦ ⟨fun still ↦ ?_, fun trapped ↦ ?_⟩, fun trapped room ↦ ?_⟩
  · obtain ⟨poised, active⟩ := reached.poised.joined (advertised d top name)
    rw [exec_meeting] at run
    exact poised.trapped line active rested undisputed higher heavier welcome latest run
      (standsStill_joined.mpr still)
  · rcases htrap trapped with ⟨u, hrun, still⟩ | ⟨-, hfault⟩
    · rw [run] at hrun
      cases hrun
      exact still
    · rw [run] at hfault
      cases hfault
  · rcases htrap trapped with ⟨u, hrun, -⟩ | ⟨crowded, -⟩
    · exact ⟨u, hrun⟩
    · exact absurd crowded (trapped.not_crowded reached.poised.quiet latest room)

end

/-! ### A peer that is never asked -/

/-- A child of the first block that is heavier than its siblings. -/
def rival : Block := .make 1 Block.genesis.hash 3 0 [] .zero

/-- The first block of every chain, and above it blocks of which the third is the heaviest. -/
def late : Nat → Block
  | 0 => .genesis
  | i + 1 => .make (UInt64.ofNat (i + 1)) (late i).hash (if i = 2 then 2 else 1) 0 [] .zero

/-- The first four of these blocks are a line. -/
theorem line_late : Line late 3 := by
  refine .of_make rfl (fun _ ↦ rfl) (by decide +kernel) ?_ ?_ (by decide)
  · intro i hi
    obtain rfl | rfl | rfl | rfl : i = 0 ∨ i = 1 ∨ i = 2 ∨ i = 3 := by omega
    all_goals decide
  · change 5 < 2 ^ 256
    decide

/-- There is a chain of the first block. -/
theorem isSome_new_genesis : (Chain.new .genesis).toOption.isSome = true := by
  obtain ⟨c, hnew, -⟩ := Chain.exists_new Chain.room_genesis
  rw [hnew]
  rfl

/-- What answers is what it answers. -/
theorem eq_ok_get {ε α : Type} {x : Except ε α} (h : x.toOption.isSome = true) :
    x = .ok (x.toOption.get h) := by
  cases x with
  | ok a => rfl
  | error e => cases h

def starting : Seat :=
  fresh ((Chain.new .genesis).toOption.get isSome_new_genesis) Header.isAcceptable {} .opened .empty

/-- Another peer's block becomes the best. -/
def afterRival : Seat := (processBatch ⟨.ofNat 2, "peer-2", [rival]⟩).leaves starting

/-- A peer joins that holds the first block only. -/
def afterJoining : Seat :=
  (meeting (.serving late 0) (.ofNat 1) ⟨0, 1, "peer-1"⟩ 0).leaves afterRival

/-- The peer's second block has no parent, which leads to the backward mode. -/
def afterOrphan : Seat := (processBatch ⟨.ofNat 1, "peer-1", [late 2]⟩).leaves afterJoining

/-- The peer's first block is its parent, which leads to the forward mode. -/
def afterParent : Seat := (processBatch ⟨.ofNat 1, "peer-1", [late 1]⟩).leaves afterOrphan

/-- The peer joins while the local chain is heavier than its own, so it is not asked. -/
theorem evaluation_afterJoining :
    ((processBatch ⟨.ofNat 2, "peer-2", [rival]⟩).exec starting).1.isOk = true ∧
      ((meeting (.serving late 0) (.ofNat 1) ⟨0, 1, "peer-1"⟩ 0).exec afterRival).1.isOk = true ∧
      afterJoining.engine.requests.peers[PeerId.ofNat 1]?.map (fun p ↦ (p.first, p.size)) =
        some (0, 24) ∧
      afterJoining.engine.requests.localHeight = 1 ∧
      ∀ i ∈ List.range' 1 3, afterJoining.node.accepts (late i).header = true := by
  decide +kernel

/-- Its two batches are imported, and none of their blocks becomes the best. -/
theorem evaluation_afterParent :
    ((processBatch ⟨.ofNat 1, "peer-1", [late 2]⟩).exec afterJoining).1.isOk = true ∧
      ((processBatch ⟨.ofNat 1, "peer-1", [late 1]⟩).exec afterOrphan).1.isOk = true ∧
      afterParent.engine.modes.mode (.ofNat 1) = .forward ∧
      afterParent.node.chain.bestNumber = 1 ∧ afterParent.node.chain.totalDifficulty = 4 ∧
      ∀ i ∈ List.range 4, ∀ b ∈ afterParent.node.chain.block? (late i).hash, b = late i := by
  decide +kernel

theorem validBatch_late (i : Nat) : ValidBatch ⟨.ofNat 1, "peer-1", [late (i + 1)]⟩ :=
  validBatch_singleton (Header.isSealed_sealed _) (decide_eq_true rfl) ..

/-- The seat is reached by a batch and a round. -/
theorem reached_afterJoining : Reached (late 0) (.ofNat 1) 1000 afterJoining := by
  obtain ⟨hrival, hjoining, -⟩ := evaluation_afterJoining
  obtain ⟨_, hrival⟩ := Step.exists_exec_of_isOk hrival
  obtain ⟨_, hjoining⟩ := Step.exists_exec_of_isOk hjoining
  have valid : ValidBatch ⟨.ofNat 2, "peer-2", [rival]⟩ :=
    validBatch_singleton (Header.isSealed_sealed _) (decide_eq_true rfl) ..
  have hstart : Chain.new (late 0) =
      .ok ((Chain.new .genesis).toOption.get isSome_new_genesis) := eq_ok_get isSome_new_genesis
  have reached₀ : Reached (late 0) (.ofNat 1) 0 starting := .fresh hstart ..
  have reached₁ : Reached (late 0) (.ofNat 1) 0 afterRival := reached₀.batch valid hrival
  exact reached₁.round (Nat.le_refl 0) hjoining

/-- The seat is reached by two more batches, which leave the schedule and the rule for headers. -/
theorem reached_afterParent : Reached (late 0) (.ofNat 1) 1000 afterParent ∧
    Retains afterJoining afterParent := by
  obtain ⟨horphan, hparent, -⟩ := evaluation_afterParent
  obtain ⟨_, horphan⟩ := Step.exists_exec_of_isOk horphan
  obtain ⟨_, hparent⟩ := Step.exists_exec_of_isOk hparent
  have kept := Retains.keptByImports afterJoining
  obtain ⟨calm, hkept⟩ := kept.processBatch reached_afterJoining.poised.calm (.refl _) horphan
  constructor
  · exact (reached_afterJoining.batch (validBatch_late 1) horphan).batch (validBatch_late 0) hparent
  · exact (kept.processBatch calm hkept hparent).2

/-- What the round after it goes by. -/
theorem afterParent_spec : Undisputed late 3 afterParent.node.chain ∧
    Remote.Welcome late 3 afterParent.node.accepts ∧
    afterParent.node.chain.bestNumber.toNat < 3 ∧
    afterParent.node.chain.totalDifficulty.toNat < weight late 3 ∧
    afterParent.Latest (.ofNat 1) 0 24 ∧
    afterParent.engine.modes.mode (.ofNat 1) = .forward ∧
    (max afterParent.engine.requests.localHeight afterParent.node.chain.bestNumber).toNat +
      RequestSchedule.maxAhead.toNat < UInt64.size := by
  obtain ⟨-, -, hlatest, hheight, hwelcome⟩ := evaluation_afterJoining
  obtain ⟨-, -, hmode, hbest, htotal, hown⟩ := evaluation_afterParent
  obtain ⟨-, kept⟩ := reached_afterParent
  rw [← kept.schedule] at hlatest hheight
  rw [← kept.accepts] at hwelcome
  refine ⟨fun i hi b hb ↦ hown i (List.mem_range.mpr (by omega)) b hb,
    fun i hlow hi ↦ hwelcome i (List.mem_range'_1.mpr ⟨hlow, by omega⟩), ?_, ?_, ?_, hmode, ?_⟩
  · rw [hbest]
    decide
  · rw [htotal]
    change 4 < 5
    decide
  · obtain ⟨p, hp, he⟩ := Option.map_eq_some_iff.mp hlatest
    obtain ⟨hfirst, hsize⟩ := Prod.mk.inj he
    exact ⟨p, hp, hfirst, hsize⟩
  · rw [hheight, hbest]
    decide

/-- The next round with the peer stands still exactly if this is a trap. -/
theorem standsStill_iff_trapped_late :
    (∀ t,
      (meeting (.serving late 3) (.ofNat 1) (advertised late 3 "peer-1") 1000).exec afterParent =
        (.ok (), t) →
      (StandsStill (.ofNat 1) afterParent t ↔
        Trapped late 3 (.ofNat 1) (advertised late 3 "peer-1") 0 24 afterParent)) ∧
    (Trapped late 3 (.ofNat 1) (advertised late 3 "peer-1") 0 24 afterParent →
      (max afterParent.engine.requests.localHeight afterParent.node.chain.bestNumber).toNat +
        RequestSchedule.maxAhead.toNat < UInt64.size →
      ∃ t,
        (meeting (.serving late 3) (.ofNat 1) (advertised late 3 "peer-1") 1000).exec afterParent =
          (.ok (), t)) := by
  obtain ⟨undisputed, welcome, higher, heavier, latest, -, -⟩ := afterParent_spec
  obtain ⟨reached, -⟩ := reached_afterParent
  exact standsStill_iff_trapped line_late reached (Nat.le_refl 1000) undisputed higher
    heavier welcome latest "peer-1"

/-- A round with a peer whose line is higher and heavier stands still. -/
theorem exists_standsStill_late :
    ∃ s t : Seat, Reached (late 0) (.ofNat 1) 1000 s ∧
      (∃ first size, s.Latest (.ofNat 1) first size) ∧
      Line late 3 ∧ s.node.chain.bestNumber.toNat < 3 ∧
      s.node.chain.totalDifficulty.toNat < weight late 3 ∧
      Remote.Welcome late 3 s.node.accepts ∧
      (meeting (.serving late 3) (.ofNat 1) (advertised late 3 "peer-1") 1000).exec s =
        (.ok (), t) ∧
      StandsStill (.ofNat 1) s t := by
  obtain ⟨-, welcome, higher, heavier, latest, mode, room⟩ := afterParent_spec
  have trapped : Trapped late 3 (.ofNat 1) (advertised late 3 "peer-1") 0 24 afterParent :=
    .inl ⟨mode, rfl, by decide⟩
  obtain ⟨reached, -⟩ := reached_afterParent
  rcases trapped.meeting line_late reached (Nat.le_refl 1000) higher heavier welcome
    latest with ⟨t, hrun, still⟩ | ⟨crowded, -⟩
  · exact ⟨afterParent, t, reached, ⟨0, 24, latest⟩, line_late, higher, heavier, welcome,
      hrun, still⟩
  · exact absurd crowded (trapped.not_crowded reached.poised.quiet latest room)

end Seat
end ChainSync
