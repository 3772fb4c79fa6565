import ChainSync.Proofs.Delivery.Drain
import ChainSync.Proofs.Import.Retention

/-!
# What a drain leaves

A drain visits every level from the first number of a batch up to the level above each height that
an accepted list reached, and hands over what is wanted of each range. A list of which the chain
takes a part only may raise the best block and is not followed by the drain. Main statement: when a
batch raised the best block, a range that is still there below the level above it is below the
first number of the batch, or was handed over and has a block without a parent, or the best block
was reached by a list that broke off and no accepted list came as high as the range. For each of the
three there is a batch that leaves a range for no other reason.
-/

namespace ChainSync

namespace Call

/-- The chain accepted the list, and reported a best block at this height or above. -/
def Reaches (call : Call) (height : UInt64) : Prop :=
  ∃ report, call.report? = some report ∧ report.outcome.isStored = true ∧
    height ≤ report.bestNumber

instance (call : Call) (height : UInt64) : Decidable (call.Reaches height) :=
  decidable_of_iff
    ((call.report?.any fun report ↦
      report.outcome.isStored && decide (height ≤ report.bestNumber)) = true)
    (by simp [Reaches, Option.any_eq_true])

/-- The chain came to a block of the list that has no parent. -/
def LacksParent (call : Call) : Prop :=
  call.report?.map ConnectReport.outcome = some .noParent

instance (call : Call) : Decidable call.LacksParent :=
  inferInstanceAs (Decidable (call.report?.map ConnectReport.outcome = some .noParent))

/-- The chain took a part of the list only, and reported a best block at this height. -/
def BreaksOff (call : Call) (height : UInt64) : Prop :=
  ∃ report, call.report? = some report ∧ report.outcome.isStored = false ∧
    report.imported ≠ [] ∧ report.bestNumber = height

instance (call : Call) (height : UInt64) : Decidable (call.BreaksOff height) :=
  decidable_of_iff
    ((call.report?.any fun report ↦ decide (report.outcome.isStored = false ∧
      report.imported ≠ [] ∧ report.bestNumber = height)) = true)
    (by simp [BreaksOff, Option.any_eq_true])

end Call

namespace PendingStore

instance (p : PendingStore) : Decidable p.InMemory :=
  match h : p.backing with
  | .memory index => isTrue ⟨index, h⟩
  | .disk _ => isFalse fun ⟨_, h'⟩ ↦ by cases h.symm.trans h'

/-- The ranges are kept in memory, and no error is set for a later call. -/
structure Steady (p : PendingStore) : Prop where
  /-- The ranges are kept in memory. -/
  memory : p.InMemory
  /-- No error is set for a later call. -/
  calm : p.nextFailure = none

namespace Steady

variable {p : PendingStore}

theorem load (steady : p.Steady) (level : UInt64) :
    p.load level = (.ok (p.index.load level), p) := by
  obtain ⟨index, hindex⟩ := steady.memory
  simp only [PendingStore.load, takeFailure, steady.calm, PendingStore.index, hindex]

theorem drop (steady : p.Steady) (level : UInt64) (keys : List Digest) (loaded : PendingQueues) :
    p.drop level keys loaded =
      (.ok (), { p with backing := .memory (p.index.remove level keys) }) := by
  obtain ⟨index, hindex⟩ := steady.memory
  simp only [PendingStore.drop, takeFailure, steady.calm, PendingStore.index, hindex]

end Steady

end PendingStore

namespace Watched

def Reported (w : Watched) : Prop := ∀ call ∈ w.calls, call.report?.isSome

/-- After a list for which nothing was reported not every list is answered with a report. -/
theorem HandsOver.not_reported {w v : Watched} {call : Call} (hover : HandsOver w call v)
    (refused : call.report? = none) : ¬ v.Reported := by
  intro reported
  have hsome := reported call hover.mem
  rw [refused] at hsome
  cases hsome

/-! ### One level -/

/-- What handing over ranges of a level leaves, if every list is answered with a report: of the keys
of the ranges, those that are not done with have a block without a parent. -/
structure Drains (level : UInt64) (keys : List Digest) (w : Watched) (d : Drain) (v : Watched)
    (d' : Drain) : Prop where
  /-- No list is forgotten. -/
  calls {call : Call} : call ∈ w.calls → call ∈ v.calls
  /-- The pending store is the same. -/
  pending : v.seat.node.pending = w.seat.node.pending
  /-- What was done with is done with. -/
  settled {key : Digest} : key ∈ d.settled → key ∈ d'.settled
  /-- The last level does not go down. -/
  lastLevel : d.lastLevel.toNat ≤ d'.lastLevel.toNat
  /-- It is above all that the lists reached. -/
  above {call : Call} {height : UInt64} : call ∈ v.calls → call.Reaches height →
    call ∈ w.calls ∨ height.toNat < d'.lastLevel.toNat
  /-- What is not done with has a block without a parent. -/
  left {key : Digest} : key ∈ keys →
    key ∈ d'.settled ∨ ∃ call ∈ v.calls, call.range = some (level, key) ∧ call.LacksParent

namespace Drains

variable {level : UInt64} {w u v : Watched} {d e d' : Drain} {key : Digest} {keys : List Digest}

theorem nil : Drains level [] w d w d :=
  ⟨id, rfl, id, Nat.le_refl _, fun h _ ↦ .inl h, fun h ↦ nomatch h⟩

theorem cons (first : Drains level [key] w d u e) (rest : Drains level keys u e v d') :
    Drains level (key :: keys) w d v d' where
  calls h := rest.calls (first.calls h)
  pending := rest.pending.trans first.pending
  settled h := rest.settled (first.settled h)
  lastLevel := Nat.le_trans first.lastLevel rest.lastLevel
  above h reaches := by
    rcases rest.above h reaches with h | h
    · exact (first.above h reaches).imp_right fun h ↦ Nat.lt_of_lt_of_le h rest.lastLevel
    · exact .inr h
  left h := by
    rcases List.mem_cons.mp h with rfl | h
    · rcases first.left (List.mem_singleton_self _) with hsettled | ⟨call, hcall, hlacks⟩
      · exact .inl (rest.settled hsettled)
      · exact .inr ⟨call, rest.calls hcall, hlacks⟩
    · exact rest.left h

/-- A range of which nothing is wanted is done with. -/
theorem unwanted : Drains level [key] w d (seatPart.put w.seat w) (d.settle key) :=
  ⟨id, rfl, fun h ↦ List.mem_cons_of_mem _ h, Nat.le_refl _, fun h _ ↦ .inl h,
    fun h ↦ .inl (List.mem_singleton.mp h ▸ List.mem_cons_self)⟩

/-- A range that is handed over is done with, or one of its blocks has no parent. Where the chain
accepts it the last level is above the best block. -/
theorem handed {call : Call} {report : ConnectReport} (hcalls : v.calls = w.calls ++ [call])
    (hpending : v.seat.node.pending = w.seat.node.pending)
    (hreport : call.report? = some report) (hrange : call.range = some (level, key))
    (settled : ∀ k ∈ d.settled, k ∈ d'.settled) (lastLevel : d.lastLevel.toNat ≤ d'.lastLevel.toNat)
    (above : report.outcome.isStored = true → report.bestNumber.toNat < d'.lastLevel.toNat)
    (left : key ∈ d'.settled ∨ report.outcome = .noParent) : Drains level [key] w d v d' where
  calls h := hcalls ▸ List.mem_append_left _ h
  pending := hpending
  settled h := settled _ h
  lastLevel := lastLevel
  above {other height} h reaches := by
    rw [hcalls, List.mem_append, List.mem_singleton] at h
    refine h.imp_right ?_
    rintro rfl
    obtain ⟨report', hreport', hstored, hle⟩ := reaches
    obtain rfl : report = report' := Option.some.inj (hreport.symm.trans hreport')
    exact Nat.lt_of_le_of_lt (UInt64.le_iff_toNat_le.mp hle) (above hstored)
  left h := by
    cases List.mem_singleton.mp h
    refine left.imp_right fun houtcome ↦ ⟨call, ?_, hrange, ?_⟩
    · rw [hcalls]
      exact List.mem_append_right _ List.mem_cons_self
    · rw [Call.LacksParent, hreport, Option.map_some, houtcome]

end Drains

/-- Handing over a range drains it, if no list so far is answered with an error. -/
theorem RangeStep.drains {peer : PeerId} {level : UInt64} {key : Digest} {blocks : List Block}
    {w u : Watched} {d e : Drain} (step : RangeStep peer level key blocks w d u e)
    (reported : u.Reported) : Drains level [key] w d u e := by
  have hsettle (k : Digest) (hk : k ∈ d.settled) : k ∈ key :: d.settled :=
    List.mem_cons_of_mem _ hk
  cases step with
  | nothing _ => exact .unwanted
  | failed _ hover => cases hover.not_reported rfl reported
  | noParent hover =>
    exact .handed hover.calls hover.pending rfl rfl (fun _ h ↦ h) (Nat.le_refl _)
      (fun h ↦ by cases h) (.inr rfl)
  | invalid hover =>
    exact .handed hover.calls hover.pending rfl rfl hsettle (Nat.le_refl _)
      (fun h ↦ by cases h) (.inl List.mem_cons_self)
  | @advanced report last above _ hover _ _ above_eq =>
    have hmax : (d.advance key report.imported.length above).lastLevel.toNat =
      max d.lastLevel.toNat above.toNat := toNat_max ..
    refine .handed hover.calls hover.pending rfl rfl hsettle ?_ (fun _ ↦ ?_)
      (.inl List.mem_cons_self)
    · rw [hmax]
      exact Nat.le_max_left ..
    · rw [hmax]
      omega

/-- Where every list is answered with a report, handing over ranges goes on to the end. -/
theorem drains_drainRanges (peer : PeerId) (level : UInt64) (ranges : List (Digest × List Block)) :
    ∀ {w v : Watched} {d d' : Drain} {goesOn : Bool},
      (importSite.drainRanges peer level ranges d).exec w = (.ok (goesOn, d'), v) → v.Reported →
      goesOn = true ∧ Drains level (ranges.map Prod.fst) w d v d' := by
  induction ranges with
  | nil =>
    intro w v d d' goesOn run _
    cases run
    exact ⟨rfl, .nil⟩
  | cons range rest ih =>
    intro w v d d' goesOn run reported
    rcases exists_rangeStep run with ⟨u, e, step, hrest⟩ | ⟨-, e, hover⟩
    · have extended := (Extends.keptByBatches u).drainRanges peer level rest e (.refl u)
      rw [Step.leaves, hrest] at extended
      obtain ⟨hgoes, hdrains⟩ := ih hrest reported
      exact ⟨hgoes, (step.drains fun call h ↦ reported call (extended.calls h)).cons hdrains⟩
    · cases hover.not_reported rfl reported

/-! ### Levels -/

/-- What a drain of the levels from one on and below another one leaves, if every list is answered
with a report and no call of the pending store fails: a range that is still there at such a level
has a block without a parent. What the lists reached is below the given height. -/
structure Clears (low high reach : Nat) (w v : Watched) : Prop where
  /-- No list is forgotten. -/
  calls {call : Call} : call ∈ w.calls → call ∈ v.calls
  /-- No call of the pending store will fail. -/
  steady : v.seat.node.pending.Steady
  /-- No range is added. -/
  range {level : UInt64} {key : Digest} {blocks : List Block} :
    v.index.range? level key = some blocks → w.index.range? level key = some blocks
  /-- What the lists reached is below the given height. -/
  above {call : Call} {height : UInt64} : call ∈ v.calls → call.Reaches height →
    call ∈ w.calls ∨ height.toNat < reach
  /-- A range that is still there has a block without a parent. -/
  left {level : UInt64} {key : Digest} {blocks : List Block} : low ≤ level.toNat →
    level.toNat < high → v.index.range? level key = some blocks →
    ∃ call ∈ v.calls, call.range = some (level, key) ∧ call.LacksParent

namespace Clears

variable {low middle high reach reach' : Nat} {w u v : Watched}

theorem refl (steady : w.seat.node.pending.Steady) (h : high ≤ low) : Clears low high reach w w :=
  ⟨id, steady, id, fun h _ ↦ .inl h, fun hlow hhigh ↦ by omega⟩

theorem trans (first : Clears low middle reach w u) (rest : Clears middle high reach' u v)
    (hreach : reach ≤ reach') : Clears low high reach' w v where
  calls h := rest.calls (first.calls h)
  steady := rest.steady
  range h := first.range (rest.range h)
  above h reaches := by
    rcases rest.above h reaches with h | h
    · exact (first.above h reaches).imp_right fun h ↦ Nat.lt_of_lt_of_le h hreach
    · exact .inr h
  left {level key blocks} hlow hhigh h := by
    by_cases hmiddle : level.toNat < middle
    · obtain ⟨call, hcall, hlacks⟩ := first.left hlow hmiddle (rest.range h)
      exact ⟨call, rest.calls hcall, hlacks⟩
    · exact rest.left (Nat.not_lt.mp hmiddle) hhigh h

end Clears

/-- Loading a level answers its ranges. -/
theorem exec_loadPending {w : Watched} (steady : w.seat.node.pending.Steady) (level : UInt64) :
    (watch (Seat.loadPending level)).exec w =
      (.ok (.ok (w.index.load level)), seatPart.put w.seat w) := by
  have hload : (Seat.loadPending level).exec w.seat = (.ok (.ok (w.index.load level)), w.seat) := by
    simp only [Seat.loadPending, Step.exec_update, steady.load, index]
  rw [watch, Step.exec_part, show seatPart.get w = w.seat from rfl, hload]

/-- Dropping keys of a level leaves the other ranges. -/
theorem exec_dropPending {w : Watched} (steady : w.seat.node.pending.Steady) (level : UInt64)
    (keys : List Digest) (loaded : PendingQueues) :
    (watch (Seat.dropPending level keys loaded)).exec w =
      (.ok (), seatPart.put (w.seat.dropped level keys) w) := by
  have hdrop : (Seat.dropPending level keys loaded).exec w.seat =
      (.ok (), w.seat.dropped level keys) := by
    unfold Seat.dropPending Seat.dropped
    by_cases hk : keys.isEmpty
    · simp [hk]
    · simp only [hk, Bool.not_false, if_true, Step.exec_bind, Step.exec_update, steady.drop]
      rfl
  rw [watch, Step.exec_part, show seatPart.get w = w.seat from rfl, hdrop]

theorem steady_dropped {s : Seat} (steady : s.node.pending.Steady) (level : UInt64)
    (keys : List Digest) : (s.dropped level keys).node.pending.Steady := by
  unfold Seat.dropped
  split
  · exact steady
  · exact ⟨⟨_, rfl⟩, steady.calm⟩

/-- Draining a level clears it. -/
theorem clears_drainLevel {peer : PeerId} {level : UInt64} {w v : Watched} {d d' : Drain}
    {goesOn : Bool} (steady : w.seat.node.pending.Steady)
    (run : (importSite.drainLevel peer level d).exec w = (.ok (goesOn, d'), v))
    (reported : v.Reported) :
    goesOn = true ∧ d.lastLevel.toNat ≤ d'.lastLevel.toNat ∧
      Clears level.toNat (level.toNat + 1) d'.lastLevel.toNat w v := by
  rw [ImportSite.drainLevel] at run
  simp only [importSite_run] at run
  rw [Step.exec_bind_of_ok (exec_loadPending steady level)] at run
  dsimp only at run
  obtain ⟨⟨goes, d₁⟩, u, hranges, run⟩ := Step.exists_exec_of_bind run
  cases goes with
  | false =>
    cases run
    cases (drains_drainRanges peer level _ hranges reported).1
  | true =>
    dsimp only at run
    rw [if_pos rfl] at run
    obtain ⟨_, x, hdrop, run⟩ := Step.exists_exec_of_bind run
    cases run
    have hcalls : ((watch (Seat.dropPending level d'.settled.reverse (w.index.load level))).exec
        u).2.calls = u.calls := rfl
    rw [hdrop] at hcalls
    dsimp only at hcalls
    obtain ⟨-, hdrains⟩ := drains_drainRanges peer level _ hranges fun call h ↦
      reported call (hcalls ▸ h)
    have hpending : u.seat.node.pending = w.seat.node.pending := hdrains.pending
    have steady' : u.seat.node.pending.Steady := hpending ▸ steady
    rw [exec_dropPending steady'] at hdrop
    cases hdrop
    have hrange (l : UInt64) (k : Digest) :
        (u.seat.dropped level d'.settled.reverse).node.pending.index.range? l k =
          if l = level ∧ k ∈ d'.settled.reverse then none else w.index.range? l k := by
      rw [Seat.range?_dropped, hpending]
      rfl
    refine ⟨rfl, hdrains.lastLevel, hdrains.calls, steady_dropped steady' .., ?_,
      hdrains.above, ?_⟩
    · intro l k blocks h
      rw [index, seatPart, hrange] at h
      split at h
      · cases h
      · exact h
    · intro l k blocks hlow hhigh h
      obtain rfl : l = level := UInt64.toNat_inj.mp (by omega)
      rw [index, seatPart, hrange] at h
      split at h
      · cases h
      · next hkept =>
        have hmem : k ∈ (w.index.load l).toList.map Prod.fst :=
          List.mem_map.mpr ⟨(k, blocks), Std.ExtTreeMap.mem_toList_iff_getElem?_eq_some.mpr h, rfl⟩
        refine (hdrains.left hmem).resolve_left fun hsettled ↦ hkept ⟨rfl, ?_⟩
        exact List.mem_reverse.mpr hsettled

/-- A drain clears the levels up to one that is above all that its lists reached. -/
theorem exists_clears_drain {peer : PeerId} {level : UInt64} {d : Drain} {w v : Watched}
    {drained : Nat} (steady : w.seat.node.pending.Steady)
    (run : (importSite.drain peer level d).exec w = (.ok drained, v)) (reported : v.Reported) :
    ∃ last, d.lastLevel.toNat ≤ last ∧ Clears level.toNat (last + 1) last w v := by
  -- By induction on the number of levels that are left up to the last height.
  induction hn : UInt64.size - level.toNat using Nat.strongRecOn generalizing level d w with
  | ind n ih =>
    by_cases hlast : d.lastLevel < level
    · rw [ImportSite.drain, if_pos hlast] at run
      cases run
      have := UInt64.lt_iff_toNat_lt.mp hlast
      exact ⟨_, Nat.le_refl _, .refl steady (by omega)⟩
    · rw [importSite.drain_of_not_lt hlast] at run
      obtain ⟨⟨goesOn, d₁⟩, u, hlevel, run⟩ := Step.exists_exec_of_bind run
      cases goesOn with
      | false =>
        cases run
        cases (clears_drainLevel steady hlevel reported).1
      | true =>
        dsimp only at run
        rw [if_pos rfl] at run
        obtain ⟨next, hnext, run⟩ := Step.exists_exec_of_lift_bind run
        have extended := (Extends.keptByBatches u).drain peer next d₁ (.refl u)
        rw [Step.leaves, run] at extended
        obtain ⟨-, hle, hclears⟩ := clears_drainLevel steady hlevel fun call h ↦
          reported call (extended.calls h)
        have hnum : next.toNat = level.toNat + 1 := checkedAdd_eq_ok_iff.mp hnext
        have := next.toNat_lt_size
        obtain ⟨last, hlast', hrest⟩ :=
          ih (UInt64.size - next.toNat) (by omega) hclears.steady run rfl
        rw [hnum] at hrest
        exact ⟨last, Nat.le_trans hle hlast', hclears.trans hrest hlast'⟩

/-! ### Batches -/

/-- A step at the seat notes no list. -/
theorem calls_of_watch {α : Type} {step : Step Seat α} {w v : Watched} {answer : Except Fault α}
    (run : (watch step).exec w = (answer, v)) : v.calls = w.calls := by
  have hcalls : ((watch step).exec w).2.calls = w.calls := rfl
  rwa [run] at hcalls

/-- When the wanted blocks of a batch are imported, either they are not accepted and are the only
list, or the levels from the first number on are drained up to one above what they reached. -/
theorem importWanted_cases {peer : PeerId} {bestBefore : UInt64} {wanted : List Block}
    {first last : Block} {w v : Watched} {report : BatchReport}
    (run : (importSite.importWanted peer bestBefore wanted first last).exec w = (.ok report, v)) :
    ∃ own : Call, (v.calls = w.calls ++ [own] ∧ ∀ height, ¬ own.Reaches height) ∨
      ∃ x lastLevel drained, x.calls = w.calls ++ [own] ∧
        x.seat.node.pending = w.seat.node.pending ∧
        (∀ height, own.Reaches height → height.toNat < lastLevel.toNat) ∧
        (importSite.drain peer first.number ⟨lastLevel, 0, []⟩).exec x = (.ok drained, v) := by
  rw [ImportSite.importWanted] at run
  simp only [importSite_run] at run
  obtain ⟨answer, u, hover, run⟩ := Step.exists_exec_of_bind run
  have hover := handsOver_of_exec hover
  have hcalls := hover.calls
  refine ⟨⟨none, wanted, .ok answer⟩, ?_⟩
  rcases answer with e | connected
  · cases run
    refine .inl ⟨hcalls, ?_⟩
    rintro height ⟨report', hreport, -⟩
    cases hreport
  · have hrefused (refused : connected.outcome.isStored = false) (height : UInt64) :
        ¬ Call.Reaches ⟨none, wanted, .ok (.ok connected)⟩ height := by
      rintro ⟨report', hreport, hstored, -⟩
      cases hreport
      rw [refused] at hstored
      cases hstored
    obtain ⟨bestNumber, imported, outcome⟩ := connected
    cases outcome with
    | noParent =>
      obtain ⟨_, u₁, hfile, run⟩ := Step.exists_exec_of_bind run
      obtain ⟨limit, -, run⟩ := Step.exists_exec_of_lift_bind run
      obtain ⟨_, u₂, hmode, run⟩ := Step.exists_exec_of_bind run
      cases run
      refine .inl ⟨?_, hrefused rfl⟩
      rw [calls_of_watch hmode, calls_of_watch hfile, hcalls]
    | invalid =>
      obtain ⟨filed, -, run⟩ := Step.exists_exec_of_lift_bind run
      obtain ⟨limit, -, run⟩ := Step.exists_exec_of_lift_bind run
      obtain ⟨_, u₂, hmode, run⟩ := Step.exists_exec_of_bind run
      cases run
      refine .inl ⟨?_, hrefused rfl⟩
      rw [calls_of_watch hmode, hcalls]
    | exist | imported _ =>
      obtain ⟨filed, -, run⟩ := Step.exists_exec_of_lift_bind run
      obtain ⟨limit, -, run⟩ := Step.exists_exec_of_lift_bind run
      rw [Step.exec_bind_of_ok (exec_applyMode ..)] at run
      obtain ⟨lastLevel, habove, run⟩ := Step.exists_exec_of_lift_bind run
      obtain ⟨drained, v', hdrain, run⟩ := Step.exists_exec_of_bind run
      cases run
      have hlevel := Seat.levelAbove_eq_ok_iff.mp habove
      dsimp only at hlevel
      refine .inr ⟨_, lastLevel, drained, ?_, ?_, ?_, hdrain⟩
      · exact hcalls
      · exact hover.pending
      · rintro height ⟨report', hreport, -, hle⟩
        cases hreport
        have hle := UInt64.le_iff_toNat_le.mp hle
        dsimp only at hle
        omega

/-- When a batch is imported and a list is handed to the chain, its wanted blocks are imported and
the local best block is noted. -/
theorem exists_importWanted_of_mem {batch : BlockBatch} {w v : Watched} {report : BatchReport}
    (fresh : w.calls = []) (run : (processBatch batch).exec w = (.ok report, v)) {call : Call}
    (hcall : call ∈ v.calls) :
    ∃ first last report' x, (w.seat.wanted batch.blocks).head? = some first ∧
      (importSite.importWanted batch.peer w.seat.node.chain.bestNumber
        (w.seat.wanted batch.blocks) first last).exec (seatPart.put w.seat w) = (.ok report', x) ∧
      v = seatPart.put x.seat.noted x := by
  have hlook : (watch get : Step Watched Seat).exec w = (.ok w.seat, seatPart.put w.seat w) := rfl
  -- Where nothing is handed over no list is noted.
  have hnone (hcalls : v.calls = w.calls) : False := by
    rw [hcalls, fresh] at hcall
    cases hcall
  rw [processBatch, ImportSite.processBatch] at run
  simp only [importSite_run] at run
  rw [Step.exec_bind_of_ok hlook] at run
  cases hfirst : (w.seat.wanted batch.blocks).head? with
  | none =>
    rw [hfirst] at run
    cases run
    exact (hnone rfl).elim
  | some first =>
    cases hlast : (w.seat.wanted batch.blocks).getLast? with
    | none =>
      rw [hfirst, hlast] at run
      cases run
      exact (hnone rfl).elim
    | some last =>
      rw [hfirst, hlast] at run
      dsimp only at run
      split at run
      · cases run
        exact (hnone rfl).elim
      · obtain ⟨report', x, himport, run⟩ := Step.exists_exec_of_bind run
        cases run
        exact ⟨first, last, _, x, rfl, himport, rfl⟩

/-- After a batch is imported, with a list that the chain accepted, a range that is still there at a
level from the batch's first number up to the one above what that list reached has a block without
a parent. -/
theorem left_processBatch {batch : BlockBatch} {w v : Watched} {report : BatchReport}
    (steady : w.seat.node.pending.Steady) (fresh : w.calls = [])
    (run : (processBatch batch).exec w = (.ok report, v)) (reported : v.Reported) {call : Call}
    (hcall : call ∈ v.calls) {height : UInt64} (reaches : call.Reaches height) {level : UInt64}
    {key : Digest} {blocks : List Block} (high : level.toNat ≤ height.toNat + 1)
    (pending : v.index.range? level key = some blocks) :
    (∃ first, (w.seat.wanted batch.blocks).head? = some first ∧ level < first.number) ∨
      ∃ call ∈ v.calls, call.range = some (level, key) ∧ call.LacksParent := by
  obtain ⟨first, last, report', x, hfirst, himport, rfl⟩ :=
    exists_importWanted_of_mem fresh run hcall
  by_cases hlow : level < first.number
  · exact .inl ⟨first, hfirst, hlow⟩
  · have hlow : first.number.toNat ≤ level.toNat :=
      UInt64.le_iff_toNat_le.mp (UInt64.not_lt.mp hlow)
    have hfresh : (seatPart.put w.seat w).calls = [] := fresh
    obtain ⟨own, ⟨hcalls, hrefused⟩ | ⟨u, lastLevel, drained, hcalls, hpending, habove, hdrain⟩⟩ :=
      importWanted_cases himport
    · have hown : call ∈ x.calls := hcall
      rw [hcalls, hfresh, List.nil_append, List.mem_singleton] at hown
      exact absurd (hown ▸ reaches) (hrefused height)
    · have steady' : u.seat.node.pending.Steady := hpending ▸ steady
      obtain ⟨top, htop, hclears⟩ := exists_clears_drain steady' hdrain reported
      have hheight : height.toNat < top := by
        rcases hclears.above hcall reaches with hown | hlt
        · rw [hcalls, hfresh, List.nil_append, List.mem_singleton] at hown
          exact Nat.lt_of_lt_of_le (habove height (hown ▸ reaches)) htop
        · exact hlt
      exact .inr (hclears.left hlow (by omega) pending)

/-! ### The best block -/

/-- The best block is as high as at the start, or as high as was reported for a list of which
something was imported, if every list is answered with a report. -/
def Told (best : UInt64) (w : Watched) : Prop :=
  w.Reported → w.seat.node.chain.bestNumber = best ∨
    ∃ call ∈ w.calls, ∃ report, call.report? = some report ∧ report.imported ≠ [] ∧
      report.bestNumber = w.seat.node.chain.bestNumber

namespace Told

variable {best : UInt64} {w v : Watched}

theorem put (told : Told best w) {s : Seat} (spares : w.seat.Spares s) :
    Told best (seatPart.put s w) := by
  intro reported
  have hchain : (seatPart.put s w).seat.node.chain = w.seat.node.chain := spares.chain
  rw [hchain]
  exact told reported

theorem handsOver {call : Call} (told : Told best w) (hover : HandsOver w call v) :
    Told best v := by
  intro reported
  have hkept {c : Call} (hc : c ∈ w.calls) : c ∈ v.calls :=
    hover.calls ▸ List.mem_append_left _ hc
  obtain ⟨report, hreport⟩ := Option.isSome_iff_exists.mp (reported call hover.mem)
  obtain ⟨hbest, hsame⟩ := hover.best hreport
  by_cases hnil : report.imported = []
  · rw [hsame hnil]
    refine (told fun c hc ↦ reported c (hkept hc)).imp_right ?_
    rintro ⟨c, hc, h⟩
    exact ⟨c, hkept hc, h⟩
  · exact .inr ⟨call, hover.mem, report, hreport, hnil, hbest⟩

/-- Every edit of an import keeps the account of the best block. -/
theorem keptByBatches (best : UInt64) : KeptByBatches (Told best) where
  sparesAll told spares := told.put spares.toSpares
  handsOver told _ hover := told.handsOver hover
  spares told spares := told.put spares
  remembered told _ := told

end Told

end Watched

namespace Seat

open Chain (sprout shoot)

/-- The lists that importing a batch at a seat hands to the chain. -/
def lists (s : Seat) (batch : BlockBatch) : List Call :=
  ((Watched.processBatch batch).leaves (.on s [])).calls

/-- The level is below the first number that is wanted of a batch. -/
def StartsAbove (s : Seat) (batch : BlockBatch) (level : UInt64) : Prop :=
  ∃ first, (s.wanted batch.blocks).head? = some first ∧ level < first.number

/-- The range of a key is handed over with a batch, and has a block without a parent. -/
def Orphaned (s : Seat) (batch : BlockBatch) (level : UInt64) (key : Digest) : Prop :=
  ∃ call ∈ s.lists batch, call.range = some (level, key) ∧ call.LacksParent

/-- A list that breaks off leads to the best block that a batch leaves, and no list that is accepted
comes up to the height below a level. -/
def Outrun (s : Seat) (batch : BlockBatch) (level : UInt64) : Prop :=
  (∃ call ∈ s.lists batch,
      call.BreaksOff ((processBatch batch).leaves s).node.chain.bestNumber) ∧
    ∀ call ∈ s.lists batch, ¬ call.Reaches (monus level 1)

instance (s : Seat) (batch : BlockBatch) (level : UInt64) :
    Decidable (s.StartsAbove batch level) :=
  decidable_of_iff
    (((s.wanted batch.blocks).head?.any fun first ↦ decide (level < first.number)) = true)
    (by simp [StartsAbove, Option.any_eq_true])

instance (s : Seat) (batch : BlockBatch) (level : UInt64) (key : Digest) :
    Decidable (s.Orphaned batch level key) :=
  inferInstanceAs (Decidable (∃ call ∈ s.lists batch, _ ∧ _))

instance (s : Seat) (batch : BlockBatch) (level : UInt64) : Decidable (s.Outrun batch level) :=
  inferInstanceAs (Decidable (_ ∧ _))

/-- A batch is imported without a fault at a seat whose pending ranges are kept in memory, no list
of it is answered with an error, and no call of the pending store fails. If the best block is higher
afterwards, every range that is still pending at a level up to the one above it is there for one of
three reasons: the level is below the first number that was wanted of the batch; or the range was
handed to the chain, which came to a block without a parent; or the best block was reached by a list
that the chain took a part of only, and no list that the chain accepted came up to the height below
the level. It does not matter whether the level is above the old best block, or whether the parent
of the first block of the range is stored. -/
theorem leftover_cases {s t : Seat} {batch : BlockBatch} {report : BatchReport}
    (memory : s.node.pending.InMemory) (steady : s.node.pending.nextFailure = none)
    (run : (processBatch batch).exec s = (.ok report, t))
    (reported : ∀ call ∈ s.lists batch, call.report?.isSome)
    (rose : s.node.chain.bestNumber < t.node.chain.bestNumber)
    {level : UInt64} {key : Digest} {blocks : List Block}
    (high : level.toNat ≤ t.node.chain.bestNumber.toNat + 1)
    (pending : t.node.pending.index.range? level key = some blocks) :
    s.StartsAbove batch level ∨ s.Orphaned batch level key ∨ s.Outrun batch level := by
  obtain ⟨hanswer, hseat, -⟩ := Watched.mirrors_processBatch batch (.on s []) rfl
  change _ = ((processBatch batch).exec s).1 at hanswer
  change _ = ((processBatch batch).exec s).2 at hseat
  have hleaves : (processBatch batch).leaves s = t := by rw [Step.leaves, run]
  rw [run] at hanswer hseat
  have hlevel : (monus level 1).toNat = level.toNat - 1 := toNat_monus level 1
  by_cases hreached : ∃ call ∈ s.lists batch, call.Reaches (monus level 1)
  · obtain ⟨call, hcall, reaches⟩ := hreached
    have hpending : ((Watched.processBatch batch).leaves (.on s [])).index.range? level key =
        some blocks := by
      rw [Watched.index, hseat]
      exact pending
    have hleft := Watched.left_processBatch ⟨memory, steady⟩ rfl (Prod.ext hanswer rfl) reported
      hcall reaches (by omega) hpending
    exact hleft.imp_right .inl
  · have hnone (call : Call) (hcall : call ∈ s.lists batch) : ¬ call.Reaches (monus level 1) :=
      fun reaches ↦ hreached ⟨call, hcall, reaches⟩
    -- The list that led to the best block was not accepted, or it would have come up to the level.
    have htold : Watched.Told s.node.chain.bestNumber
        ((Watched.processBatch batch).leaves (.on s [])) :=
      (Watched.Told.keptByBatches _).processBatch batch fun _ ↦ .inl rfl
    rcases htold reported with hsame | ⟨call, hcall, linked, hlinked, himported, hbest⟩
    · rw [hseat] at hsame
      rw [hsame] at rose
      exact absurd rose (UInt64.lt_irrefl _)
    · rw [hseat] at hbest
      have hrefused : linked.outcome.isStored = false := by
        rw [Bool.eq_false_iff]
        intro hstored
        refine hnone call hcall ⟨linked, hlinked, hstored, ?_⟩
        rw [hbest, UInt64.le_iff_toNat_le]
        dsimp only at high ⊢
        omega
      refine .inr (.inr ⟨⟨call, hcall, linked, hlinked, hrefused, himported, ?_⟩, hnone⟩)
      rw [hleaves]
      exact hbest

/-! ### Ranges that could be linked -/

/-- A batch is imported without a fault or an error at a seat that keeps its ranges in memory and
prunes nothing, and the best block is higher afterwards. A range whose first block has its parent
stored at the height below stays pending above the level that could be linked before. -/
structure Strands (s : Seat) (batch : BlockBatch) (level : UInt64) (first : Block)
    (rest : List Block) : Prop where
  /-- The ranges are kept in memory. -/
  memory : s.node.pending.InMemory
  /-- No error is set for a call of the pending store. -/
  steady : s.node.pending.nextFailure = none
  /-- No height is pruned. -/
  unpruned : s.node.chain.pruneFloor = none
  /-- The batch is imported without a fault. -/
  answers : ((processBatch batch).exec s).1.isOk
  /-- No list is answered with an error. -/
  reported : ∀ call ∈ s.lists batch, call.report?.isSome
  /-- The best block is higher afterwards. -/
  rose : s.node.chain.bestNumber < ((processBatch batch).leaves s).node.chain.bestNumber
  /-- The level could not be linked before. -/
  low : s.node.chain.bestNumber.toNat + 1 < level.toNat
  /-- The level is at most the one above the best block. -/
  high : level.toNat ≤ ((processBatch batch).leaves s).node.chain.bestNumber.toNat + 1
  /-- The range is still pending. -/
  pending : ((processBatch batch).leaves s).node.pending.index.range? level first.hash =
    some (first :: rest)
  /-- The parent of its first block is stored at the height below. -/
  parent : ((processBatch batch).leaves s).node.chain.isStored first.parent (monus level 1) = true

instance (s : Seat) (batch : BlockBatch) (level : UInt64) (first : Block) (rest : List Block) :
    Decidable (s.Strands batch level first rest) :=
  decidable_of_iff (s.node.pending.InMemory ∧ s.node.pending.nextFailure = none ∧
      s.node.chain.pruneFloor = none ∧ ((processBatch batch).exec s).1.isOk ∧
      (∀ call ∈ s.lists batch, call.report?.isSome) ∧
      s.node.chain.bestNumber < ((processBatch batch).leaves s).node.chain.bestNumber ∧
      s.node.chain.bestNumber.toNat + 1 < level.toNat ∧
      level.toNat ≤ ((processBatch batch).leaves s).node.chain.bestNumber.toNat + 1 ∧
      ((processBatch batch).leaves s).node.pending.index.range? level first.hash =
        some (first :: rest) ∧
      ((processBatch batch).leaves s).node.chain.isStored first.parent (monus level 1) = true)
    ⟨fun ⟨h₁, h₂, h₃, h₄, h₅, h₆, h₇, h₈, h₉, h₁₀⟩ ↦ ⟨h₁, h₂, h₃, h₄, h₅, h₆, h₇, h₈, h₉, h₁₀⟩,
      fun ⟨h₁, h₂, h₃, h₄, h₅, h₆, h₇, h₈, h₉, h₁₀⟩ ↦ ⟨h₁, h₂, h₃, h₄, h₅, h₆, h₇, h₈, h₉, h₁₀⟩⟩

/-- A block whose parent is nowhere. -/
def stray : Block := .make 3 .zero 1 0 [] .zero

def twig (timestamp : UInt64) : Block := .make 3 shoot.hash 1 timestamp [] .zero

/-- A child of the first block that outweighs the others. -/
def trunk : Block := .make 1 Block.genesis.hash 100 0 [] .zero

/-- A child of a twig that outweighs all others. -/
def crown : Block := .make 4 (twig 0).hash 1000 0 [] .zero

def afterBatches (c : Chain) (batches : List (List Block)) : Seat :=
  batches.foldl (fun s blocks ↦ (processBatch ⟨.ofNat 1, "peer-1", blocks⟩).leaves s)
    (genesisSeat c)

/-- A range with a stray block is pending. -/
def strayed (c : Chain) : Seat := afterBatches c [[shoot, stray]]

/-- A range of one block is pending. -/
def backlogged (c : Chain) : Seat := afterBatches c [[shoot]]

/-- A twig is pending, and its parent is stored off the branch of the best block. -/
def shaded (c : Chain) : Seat :=
  afterBatches c [[trunk], [twig 1], [sprout 0, shoot, twig 0, stray]]

def upTo (blocks : List Block) : BlockBatch := ⟨.ofNat 2, "peer-2", blocks⟩

section

variable {c : Chain}

/-- A range stays that was handed over, because a later block of it has no parent. -/
theorem strands_strayed (new : Chain.new .genesis = .ok c) :
    (strayed c).Strands (upTo [sprout 0, shoot]) 2 shoot [stray] ∧
      ¬ (strayed c).StartsAbove (upTo [sprout 0, shoot]) 2 ∧
      ¬ (strayed c).Outrun (upTo [sprout 0, shoot]) 2 := by
  apply of_genesis new
  decide +kernel

/-- A range stays because the batch that raised the best block broke off, so that nothing was
drained. -/
theorem strands_backlogged (new : Chain.new .genesis = .ok c) :
    (backlogged c).Strands (upTo [sprout 0, stray]) 2 shoot [] ∧
      ¬ (backlogged c).StartsAbove (upTo [sprout 0, stray]) 2 ∧
      ¬ (backlogged c).Orphaned (upTo [sprout 0, stray]) 2 shoot.hash := by
  apply of_genesis new
  decide +kernel

/-- A range stays because the batch that raised the best block starts above it. -/
theorem strands_shaded (new : Chain.new .genesis = .ok c) :
    (shaded c).Strands (upTo [crown]) 3 (twig 1) [] ∧
      ¬ (shaded c).Orphaned (upTo [crown]) 3 (twig 1).hash ∧
      ¬ (shaded c).Outrun (upTo [crown]) 3 := by
  apply of_genesis new
  decide +kernel

end

/-- The batch that broke off leaves the range for the last of the three reasons. -/
theorem leftover_cases_backlogged : ∃ c, Chain.new .genesis = .ok c ∧
    (backlogged c).Strands (upTo [sprout 0, stray]) 2 shoot [] ∧
      (backlogged c).Outrun (upTo [sprout 0, stray]) 2 := by
  obtain ⟨c, new, -⟩ := exists_genesis
  obtain ⟨strands, below, orphaned⟩ := strands_backlogged new
  obtain ⟨report, run⟩ := Step.exists_exec_of_isOk strands.answers
  have hcases := leftover_cases strands.memory strands.steady run strands.reported strands.rose
    strands.high strands.pending
  exact ⟨c, new, strands, (hcases.resolve_left below).resolve_left orphaned⟩

/-- A drain is not complete, and each of the three reasons alone can leave a range that could be
linked. -/
theorem exists_strands : ∃ c, Chain.new .genesis = .ok c ∧
    ((strayed c).Strands (upTo [sprout 0, shoot]) 2 shoot [stray] ∧
      ¬ (strayed c).StartsAbove (upTo [sprout 0, shoot]) 2 ∧
      ¬ (strayed c).Outrun (upTo [sprout 0, shoot]) 2) ∧
    ((backlogged c).Strands (upTo [sprout 0, stray]) 2 shoot [] ∧
      ¬ (backlogged c).StartsAbove (upTo [sprout 0, stray]) 2 ∧
      ¬ (backlogged c).Orphaned (upTo [sprout 0, stray]) 2 shoot.hash) ∧
    (shaded c).Strands (upTo [crown]) 3 (twig 1) [] ∧
      ¬ (shaded c).Orphaned (upTo [crown]) 3 (twig 1).hash ∧
      ¬ (shaded c).Outrun (upTo [crown]) 3 := by
  obtain ⟨c, new, -⟩ := exists_genesis
  exact ⟨c, new, strands_strayed new, strands_backlogged new, strands_shaded new⟩

end Seat
end ChainSync
