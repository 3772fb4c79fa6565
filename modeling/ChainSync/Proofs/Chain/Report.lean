import ChainSync.Proofs.Chain.Linked
import ChainSync.Proofs.Chain.Promotion
import ChainSync.Proofs.Import.Overflow
import Mathlib.Data.List.Infix

/-!
# The report of a list of blocks

A list is linked up to the first block that is refused. A run of it is taken apart into its steps,
and what it reports is read off these: which blocks were attempted, which hashes are new, and what
became of the last block. Main statement: on every chain that calls lead to, the report of a list
says what linking it did.
-/

namespace ChainSync
namespace Chain

/-! ### Attempts -/

section

variable {c d : Chain} {block : Block}

/-- A run of one block is an attempt. -/
theorem attempt_of_exec {r : Except Fault ImportOutcome} (run : (importBlock block).exec c = (r, d)) :
    Attempt c block r d := by
  have ha := attempt_importBlock c block
  rwa [run] at ha

/-- A block that is refused is not stored, and nothing changes. -/
theorem Attempt.of_refused {outcome : ImportOutcome} (ha : Attempt c block (.ok outcome) d)
    (refused : outcome.isStored = false) : d = c ∧ c.block? block.hash = none := by
  cases ha with
  | exist _ | detached _ _ _ _ | light _ _ _ _ _ | heavy _ _ _ _ _ _ => cases refused
  | noParent new _ | invalid new _ _ _ => exact ⟨rfl, new⟩

/-- A block that is found stored leaves the chain alone. -/
theorem Attempt.of_exist (ha : Attempt c block (.ok .exist) d) :
    d = c ∧ (c.block? block.hash).isSome := by
  cases ha with
  | exist stored => exact ⟨rfl, stored⟩

/-- A block that is linked was not stored, and is stored on top of all others. -/
theorem Attempt.of_imported {best : Bool} (ha : Attempt c block (.ok (.imported best)) d) :
    c.block? block.hash = none ∧
      ∀ h, d.block? h = if block.hash = h then some block else c.block? h := by
  cases ha with
  | detached new _ _ _ | light new _ _ _ _ | heavy new _ _ _ _ _ =>
    exact ⟨new, fun h ↦ getElem?_insert_block ..⟩

end

/-! ### Runs along a list -/

/-- How linking a list goes when it does not fault: from what became of the last block so far, a
chain and the list, to the blocks attempted, the hashes stored, what became of the last block
attempted and the chain left. -/
inductive Linking : ImportOutcome → Chain → List Block →
    List Block → List Digest → ImportOutcome → Chain → Prop
  /-- There is nothing to link. -/
  | done {last : ImportOutcome} {c : Chain} : Linking last c [] [] [] last c
  /-- The first block is refused. -/
  | refused {last outcome : ImportOutcome} {c d : Chain} {block : Block} {rest : List Block}
      (run : (importBlock block).exec (c.withHanded block.hash) = (.ok outcome, d))
      (refused : outcome.isStored = false) :
      Linking last c (block :: rest) [block] [] outcome d
  /-- The first block is found stored. -/
  | known {last outcome : ImportOutcome} {c t d : Chain} {block : Block}
      {rest attempted : List Block} {imported : List Digest}
      (run : (importBlock block).exec (c.withHanded block.hash) = (.ok .exist, t))
      (more : Linking .exist t rest attempted imported outcome d) :
      Linking last c (block :: rest) (block :: attempted) imported outcome d
  /-- The first block is linked. -/
  | added {last outcome : ImportOutcome} {c t d : Chain} {block : Block} {best : Bool}
      {rest attempted : List Block} {imported : List Digest}
      (run : (importBlock block).exec (c.withHanded block.hash) = (.ok (.imported best), t))
      (more : Linking (.imported best) t rest attempted imported outcome d) :
      Linking last c (block :: rest) (block :: attempted) (block.hash :: imported) outcome d

/-- A list that is linked without a fault goes one of these ways. -/
theorem exists_linking (blocks : List Block) :
    ∀ {last outcome : ImportOutcome} {c d : Chain} {imported : List Digest},
      (importBlocks blocks last).exec c = (.ok (imported, outcome), d) →
      ∃ attempted, Linking last c blocks attempted imported outcome d := by
  induction blocks with
  | nil =>
    intro last outcome c d imported run
    cases run
    exact ⟨[], .done⟩
  | cons block rest ih =>
    intro last outcome c d imported run
    rw [exec_importBlocks_cons] at run
    cases hx : (importBlock block).exec (c.withHanded block.hash) with
    | mk r t =>
      rw [hx] at run
      cases r with
      | error e => cases run
      | ok o =>
        cases o with
        | noParent | invalid =>
          cases run
          exact ⟨[block], .refused hx rfl⟩
        | exist =>
          obtain ⟨attempted, more⟩ := ih run
          exact ⟨block :: attempted, .known hx more⟩
        | imported best =>
          dsimp only at run
          cases hy : (importBlocks rest (.imported best)).exec t with
          | mk answer u =>
            rw [hy] at run
            cases answer with
            | error e => cases run
            | ok answer =>
              cases run
              obtain ⟨attempted, more⟩ := ih hy
              exact ⟨block :: attempted, .added hx more⟩

namespace Linking

variable {last outcome : ImportOutcome} {c d : Chain} {blocks attempted : List Block}
  {imported : List Digest}

/-- A beginning of the list is attempted. -/
theorem isPrefix (h : Linking last c blocks attempted imported outcome d) :
    attempted <+: blocks := by
  induction h with
  | done => exact List.prefix_refl []
  | refused _ _ => exact List.prefix_append [_] _
  | known _ _ ih | added _ _ ih => exact (List.prefix_cons_inj _).mpr ih

theorem of_attempted_nil (h : Linking last c blocks [] imported outcome d) :
    blocks = [] ∧ imported = [] ∧ outcome = last ∧ d = c := by
  cases h
  exact ⟨rfl, rfl, rfl, rfl⟩

/-- The whole list is attempted unless a block is refused. -/
theorem attempted_eq (h : Linking last c blocks attempted imported outcome d)
    (stored : outcome.isStored = true) : attempted = blocks := by
  induction h with
  | done => rfl
  | refused _ refused =>
    rw [stored] at refused
    cases refused
  | known _ _ ih | added _ _ ih => rw [ih stored]

/-- The attempted blocks alone are linked in the same way, and after a refused one so are any
others. -/
theorem exec_append (h : Linking last c blocks attempted imported outcome d) {other : List Block}
    (hcut : outcome.isStored = true → other = []) (hlast : last.isStored = true) :
    (importBlocks (attempted ++ other) last).exec c = (.ok (imported, outcome), d) := by
  induction h with
  | done =>
    rw [hcut hlast]
    rfl
  | @refused last outcome c d block rest run refused =>
    rw [List.singleton_append, exec_importBlocks_cons, run]
    cases outcome with
    | noParent | invalid => rfl
    | exist | imported _ => cases refused
  | known run _ ih =>
    rw [List.cons_append, exec_importBlocks_cons, run]
    exact ih hcut rfl
  | added run _ ih =>
    rw [List.cons_append, exec_importBlocks_cons, run]
    dsimp only
    rw [ih hcut rfl]

/-- The attempted blocks alone are linked in the same way. -/
theorem exec (h : Linking last c blocks attempted imported outcome d)
    (hlast : last.isStored = true) :
    (importBlocks attempted last).exec c = (.ok (imported, outcome), d) := by
  have hrun := h.exec_append (fun _ ↦ rfl) hlast
  rwa [List.append_nil] at hrun

/-- The hashes of the attempted blocks are handed over. -/
theorem handed (h : Linking last c blocks attempted imported outcome d) :
    d.handed = (attempted.map Block.hash).reverse ++ c.handed := by
  have hone {c t : Chain} {block : Block} {r : Except Fault ImportOutcome}
      (run : (importBlock block).exec (c.withHanded block.hash) = (r, t)) :
      t.handed = block.hash :: c.handed := (attempt_of_exec run).handed
  induction h with
  | done => rfl
  | refused run _ => exact hone run
  | known run _ ih | added run _ ih =>
    rw [ih, hone run, List.map_cons, List.reverse_cons, List.append_assoc, List.singleton_append]

theorem within (h : Linking last c blocks attempted imported outcome d) : c.Within d := by
  have hone {c t : Chain} {block : Block} {r : Except Fault ImportOutcome}
      (run : (importBlock block).exec (c.withHanded block.hash) = (r, t)) : c.Within t :=
    (attempt_of_exec run).within
  induction h with
  | done => exact .refl _
  | refused run _ => exact hone run
  | known run _ ih | added run _ ih => exact (hone run).trans ih

/-- The hashes that are reported as imported are those stored afterwards and not before. -/
theorem mem_imported_iff (h : Linking last c blocks attempted imported outcome d) (x : Digest) :
    x ∈ imported ↔ (d.block? x).isSome ∧ c.block? x = none := by
  have hnone (c : Chain) : x ∈ ([] : List Digest) ↔ (c.block? x).isSome ∧ c.block? x = none := by
    cases c.block? x <;> simp
  induction h with
  | @done last c => exact hnone c
  | @refused last outcome c d block rest run refused =>
    obtain ⟨rfl, -⟩ := (attempt_of_exec run).of_refused refused
    exact hnone c
  | known run _ ih =>
    obtain ⟨rfl, -⟩ := (attempt_of_exec run).of_exist
    exact ih
  | @added last outcome c t d block best rest attempted imported run more ih =>
    obtain ⟨new, hadded⟩ := (attempt_of_exec run).of_imported
    rw [List.mem_cons, or_congr_right ih, hadded]
    by_cases hx : block.hash = x
    · subst hx
      have hstored : d.block? block.hash = some block := more.within (by rw [hadded, if_pos rfl])
      exact iff_of_true (.inl rfl) ⟨by rw [hstored]; rfl, new⟩
    · rw [if_neg hx]
      exact or_iff_right (Ne.symm hx)

/-- Under a hash that is reported as imported stands an attempted block. -/
theorem exists_of_mem_imported (h : Linking last c blocks attempted imported outcome d) {x : Digest}
    (hx : x ∈ imported) : ∃ b ∈ attempted, b.hash = x ∧ d.block? x = some b := by
  induction h with
  | done | refused _ _ => cases hx
  | known _ _ ih =>
    obtain ⟨b, hb, hstored⟩ := ih hx
    exact ⟨b, List.mem_cons_of_mem _ hb, hstored⟩
  | added run more ih =>
    rcases List.mem_cons.mp hx with rfl | hx
    · obtain ⟨-, hadded⟩ := (attempt_of_exec run).of_imported
      exact ⟨_, List.mem_cons_self, rfl, more.within (by rw [hadded, if_pos rfl])⟩
    · obtain ⟨b, hb, hstored⟩ := ih hx
      exact ⟨b, List.mem_cons_of_mem _ hb, hstored⟩

/-- The hashes that are reported as imported come in the order in which the attempted blocks have
them first. -/
theorem ordered (h : Linking last c blocks attempted imported outcome d) :
    imported.Pairwise fun x y ↦
      (attempted.map Block.hash).idxOf x < (attempted.map Block.hash).idxOf y := by
  -- One more block in front moves every hash but its own up by one place.
  have hcons {block : Block} {hashes imported : List Digest} (hne : ∀ x ∈ imported, x ≠ block.hash)
      (ih : imported.Pairwise fun x y ↦ hashes.idxOf x < hashes.idxOf y) :
      imported.Pairwise fun x y ↦
        (block.hash :: hashes).idxOf x < (block.hash :: hashes).idxOf y := by
    apply ih.imp_of_mem
    intro x y hx hy hlt
    rw [List.idxOf_cons_ne _ (hne x hx).symm, List.idxOf_cons_ne _ (hne y hy).symm]
    exact Nat.succ_lt_succ hlt
  induction h with
  | done | refused _ _ => exact .nil
  | @known last outcome c t d block rest attempted imported run more ih =>
    obtain ⟨rfl, stored⟩ := (attempt_of_exec run).of_exist
    apply hcons _ ih
    rintro x hx rfl
    rw [((more.mem_imported_iff _).mp hx).2] at stored
    cases stored
  | @added last outcome c t d block best rest attempted imported run more ih =>
    obtain ⟨-, hadded⟩ := (attempt_of_exec run).of_imported
    have hne : ∀ x ∈ imported, x ≠ block.hash := by
      rintro x hx rfl
      have hnew := ((more.mem_imported_iff _).mp hx).2
      rw [hadded, if_pos rfl] at hnew
      cases hnew
    apply List.Pairwise.cons _ (hcons hne ih)
    intro x hx
    rw [List.idxOf_cons_self, List.idxOf_cons_ne _ (hne x hx).symm]
    exact Nat.succ_pos _

/-- The blocks before the last attempted one are linked or found stored, and what becomes of that
one is answered. -/
theorem exists_before {init : List Block} {block : Block}
    (h : Linking last c blocks (init ++ [block]) imported outcome d)
    (hlast : last.isStored = true) :
    ∃ imported' outcome' t, Linking last c init init imported' outcome' t ∧
      outcome'.isStored = true ∧
      (importBlock block).exec (t.withHanded block.hash) = (.ok outcome, d) := by
  generalize hall : init ++ [block] = attempted at h
  induction h generalizing init with
  | done => simp at hall
  | refused run _ =>
    obtain ⟨rfl, hblock⟩ := List.append_eq_singleton_iff.mp hall |>.resolve_right (by simp)
    cases hblock
    exact ⟨[], _, _, .done, hlast, run⟩
  | known run more ih =>
    cases init with
    | nil =>
      cases hall
      obtain ⟨-, -, rfl, rfl⟩ := more.of_attempted_nil
      exact ⟨[], _, _, .done, hlast, run⟩
    | cons first init =>
      cases hall
      obtain ⟨imported', outcome', t, hinit, hstored, hrun⟩ := ih rfl rfl
      exact ⟨_, _, t, .known run hinit, hstored, hrun⟩
  | added run more ih =>
    cases init with
    | nil =>
      cases hall
      obtain ⟨-, -, rfl, rfl⟩ := more.of_attempted_nil
      exact ⟨[], _, _, .done, hlast, run⟩
    | cons first init =>
      cases hall
      obtain ⟨imported', outcome', t, hinit, hstored, hrun⟩ := ih rfl rfl
      exact ⟨_, _, t, .added run hinit, hstored, hrun⟩

end Linking

/-! ### Calls -/

/-- What holds of a chain whatever hashes were handed over and whatever error was set, and after
each attempt to link a block, is kept by linking a list, also when it faults. -/
theorem keeps_connect {P : Chain → Prop}
    (handed : ∀ {c : Chain} (hash : Digest), P c → P (c.withHanded hash))
    (taken : ∀ {c : Chain}, P c → P c.takeFailure.2)
    (attempt : ∀ {c d : Chain} {block : Block} {r : Except Fault ImportOutcome}, P c →
      Attempt c block r d → P d)
    (blocks : List Block) : Step.Keeps P (connect blocks) := by
  intro c hc
  have hlinked : P ((importBlocks blocks .exist).exec c.takeFailure.2).2 :=
    importBlocks_induction handed attempt blocks (taken hc)
  rw [Step.leaves, exec_connect]
  cases c.nextFailure with
  | some e => exact taken hc
  | none =>
    cases hx : (importBlocks blocks .exist).exec c.takeFailure.2 with
    | mk r d =>
      rw [hx] at hlinked
      cases r <;> exact hlinked

/-- A call of a chain. -/
inductive Call where
  /-- A list of blocks is linked. -/
  | connect (blocks : List Block)
  /-- A block is stored whether or not its parent is. -/
  | fastImport (block : Block)
  /-- An error is set for the next import. -/
  | failNext (error : ChainError)
  /-- Every height below this one is pruned from then on. -/
  | prune (floor : UInt64)

def Call.leaves : Call → Chain → Chain
  | connect blocks, c => (Chain.connect blocks).leaves c
  | fastImport block, c => (c.fastImport block).2
  | failNext error, c => { c with nextFailure := some error }
  | prune floor, c => { c with pruneFloor := some floor }

def afterCalls (c : Chain) (calls : List Call) : Chain :=
  calls.foldl (fun c call ↦ call.leaves c) c

/-- What holds of a chain whatever hashes were handed over, whatever error is set and whatever is
pruned, and after each attempt to link a block and each block stored before its parent, is kept by a
call. -/
theorem Call.keeps {P : Chain → Prop}
    (edited : ∀ {c : Chain} (nextFailure : Option ChainError) (pruneFloor : Option UInt64)
      (handed : List Digest), P c → P { c with nextFailure, pruneFloor, handed })
    (attempt : ∀ {c d : Chain} {block : Block} {r : Except Fault ImportOutcome}, P c →
      Attempt c block r d → P d)
    (loose : ∀ {c : Chain} {block : Block}, P c → c.block? block.hash = none →
      P (c.withLoose block))
    (call : Call) {c : Chain} (hc : P c) : P (call.leaves c) := by
  have htaken : ∀ {c : Chain}, P c → P c.takeFailure.2 := fun h ↦ edited none _ _ h
  cases call with
  | connect blocks =>
    exact keeps_connect (fun hash h ↦ edited _ _ (hash :: _) h) htaken attempt blocks hc
  | fastImport block => exact keeps_fastImport htaken loose block hc
  | failNext error => exact edited (some error) _ _ hc
  | prune floor => exact edited _ (some floor) _ hc

/-- The best block stays stored. -/
theorem Attempt.isSome_best {c d : Chain} {block : Block} {r : Except Fault ImportOutcome}
    (ha : Attempt c block r d) (hc : (c.block? c.best).isSome) : (d.block? d.best).isSome := by
  have hkept : (d.block? c.best).isSome := ha.within.isSome hc
  cases ha with
  | heavy _ _ _ _ _ _ =>
    rw [block?_withHead]
    exact Option.isSome_of_eq_some (block?_withTotal_self ..)
  | exist _ | noParent _ _ | noHeight _ _ _ | invalid _ _ _ _ => exact hkept
  | detached _ _ _ _ | light _ _ _ _ _ | lastHead _ _ _ _ _ _ => exact hkept

/-- A call leaves the best block stored. -/
theorem Call.isSome_best (call : Call) {c : Chain} (hc : (c.block? c.best).isSome) :
    ((call.leaves c).block? (call.leaves c).best).isSome :=
  call.keeps (P := fun c ↦ (c.block? c.best).isSome) (fun _ _ _ h ↦ h) (fun h ha ↦ ha.isSome_best h)
    (fun h new ↦ (Within.withLoose new).isSome h) hc

/-- On a chain that calls lead to the best block is stored. -/
theorem isSome_best_afterCalls {first : Block} {start : Chain} (new : Chain.new first = .ok start)
    (calls : List Call) :
    ((start.afterCalls calls).block? (start.afterCalls calls).best).isSome := by
  obtain ⟨c, hnew, hblocks, -, -, hbest, -⟩ := exists_new (room_new new)
  rw [new] at hnew
  cases hnew
  have hstart : (start.block? start.best).isSome := by
    rw [block?, hblocks, hbest, getElem?_insert_block, if_pos rfl]
    rfl
  exact List.foldlRecOn (motive := fun c : Chain ↦ (c.block? c.best).isSome) calls _ hstart
    fun c hc call _ ↦ call.isSome_best hc

/-! ### Reports -/

/-- The report of a list says what linking it did to the chain: of the first chain, the list was
attempted as far as given, and the second chain was left. A block counts as stored when one is
stored under its hash. -/
structure Accounts (c d : Chain) (blocks attempted : List Block) (report : ConnectReport) : Prop where
  /-- A beginning of the list is attempted. -/
  isPrefix : attempted <+: blocks
  /-- Just the hashes of that beginning are handed over. -/
  handed : d.handedHashes = c.handedHashes ++ attempted.map Block.hash
  /-- The beginning alone has the same effect. -/
  alone : (connect attempted).exec c = (.ok (.ok report), d)
  /-- The hashes reported are those stored afterwards and not before. -/
  imported_iff (h : Digest) : h ∈ report.imported ↔ (d.block? h).isSome ∧ c.block? h = none
  /-- They come in the order in which the list has them first, and none comes twice. -/
  ordered : report.imported.Pairwise fun h h' ↦
    (attempted.map Block.hash).idxOf h < (attempted.map Block.hash).idxOf h'
  /-- Under each of them a block of the list is stored. -/
  imported_block {h : Digest} : h ∈ report.imported →
    ∃ b ∈ attempted, b.hash = h ∧ d.block? h = some b
  /-- Every attempted block but the last one is stored. -/
  stored {b : Block} : b ∈ attempted.dropLast → (d.block? b.hash).isSome
  /-- Only of an empty list nothing is attempted, and that counts as stored before. -/
  empty : attempted = [] → blocks = [] ∧ report.outcome = .exist
  /-- What is reported is what became of the last attempted block. -/
  last {init : List Block} {b : Block} : attempted = init ++ [b] →
    (importBlock b).exec (((connect init).leaves c).withHanded b.hash) = (.ok report.outcome, d)
  /-- A block that was refused is not stored, and whatever follows it is not attempted. -/
  refused : report.outcome.isStored = false →
    (∀ b ∈ attempted.getLast?, d.block? b.hash = none) ∧
      ∀ other, (connect (attempted ++ other)).exec c = (.ok (.ok report), d)
  /-- When the last attempted block is stored the whole list was attempted and is stored. -/
  whole : report.outcome.isStored = true →
    attempted = blocks ∧ ∀ b ∈ blocks, (d.block? b.hash).isSome
  /-- The best block is stored, and its number is reported. -/
  best : ∃ b, d.block? d.best = some b ∧ report.bestNumber = b.number
  /-- Every block that was stored still is. -/
  within : c.Within d

/-- Without a set error, linking a list and a run along it answer the same. -/
theorem connect_of_importBlocks {c d : Chain} {blocks : List Block} {imported : List Digest}
    {outcome : ImportOutcome} (hfail : c.nextFailure = none)
    (run : (importBlocks blocks .exist).exec c = (.ok (imported, outcome), d)) :
    (connect blocks).exec c = (.ok (.ok ⟨d.bestNumber, imported, outcome⟩), d) := by
  rw [exec_connect, hfail]
  dsimp only
  rw [takeFailure_of_none hfail]
  dsimp only
  rw [run]

/-- A run along a list is accounted for by its report. -/
theorem Linking.accounts {c d : Chain} {blocks attempted : List Block} {imported : List Digest}
    {outcome : ImportOutcome} (h : Linking .exist c blocks attempted imported outcome d)
    (hfail : c.nextFailure = none) (hbest : (d.block? d.best).isSome) :
    Accounts c d blocks attempted ⟨d.bestNumber, imported, outcome⟩ where
  isPrefix := h.isPrefix
  handed := by
    rw [handedHashes, h.handed, List.reverse_append, List.reverse_reverse]
    rfl
  alone := connect_of_importBlocks hfail (h.exec rfl)
  imported_iff := h.mem_imported_iff
  ordered := h.ordered
  imported_block := h.exists_of_mem_imported
  stored := by
    intro b hb
    have hne : attempted ≠ [] := by
      rintro rfl
      cases hb
    rw [← List.dropLast_append_getLast hne] at h
    obtain ⟨imported', outcome', t, hinit, hstored, hrun⟩ := h.exists_before rfl
    exact (attempt_of_exec hrun).within.isSome
      (isSome_of_mem_of_isStored _ (hinit.exec rfl) hstored b hb)
  empty := by
    rintro rfl
    obtain ⟨hblocks, -, houtcome, -⟩ := h.of_attempted_nil
    exact ⟨hblocks, houtcome⟩
  last := by
    rintro init b rfl
    obtain ⟨imported', outcome', t, hinit, -, hrun⟩ := h.exists_before rfl
    rw [Step.leaves, connect_of_importBlocks hfail (hinit.exec rfl)]
    exact hrun
  refused := by
    intro hrefused
    refine ⟨?_, fun other ↦ ?_⟩
    · intro b hb
      obtain ⟨init, rfl⟩ := List.getLast?_eq_some_iff.mp hb
      obtain ⟨imported', outcome', t, -, -, hrun⟩ := h.exists_before rfl
      obtain ⟨rfl, hnew⟩ := (attempt_of_exec hrun).of_refused hrefused
      exact hnew
    · refine connect_of_importBlocks hfail (h.exec_append (fun hstored ↦ ?_) rfl)
      dsimp only at hrefused
      rw [hstored] at hrefused
      cases hrefused
  whole := by
    intro hstored
    obtain rfl := h.attempted_eq hstored
    exact ⟨rfl, isSome_of_mem_of_isStored _ (h.exec rfl) hstored⟩
  best := by
    obtain ⟨b, hb⟩ := Option.isSome_iff_exists.mp hbest
    refine ⟨b, hb, ?_⟩
    simp only [bestNumber, bestBlock, hb, Option.getD_some]
  within := h.within

/-- On a chain that calls lead to, a set error is answered and taken and nothing else happens.
Without one, a list that does not run out of heights is linked, and its report says what was done.
Nothing is asked of the parent links of blocks stored before their parents. -/
theorem connect_accounts {first : Block} {start : Chain} (new : Chain.new first = .ok start)
    (calls : List Call) (blocks : List Block) :
    (∀ e, (start.afterCalls calls).nextFailure = some e →
      (connect blocks).exec (start.afterCalls calls) =
        (.ok (.error e), { start.afterCalls calls with nextFailure := none })) ∧
    ((start.afterCalls calls).nextFailure = none → ¬ (start.afterCalls calls).RunsOut blocks →
      ∃ report d attempted,
        (connect blocks).exec (start.afterCalls calls) = (.ok (.ok report), d) ∧
        Accounts (start.afterCalls calls) d blocks attempted report) := by
  have hbest := isSome_best_afterCalls new (calls ++ [.connect blocks])
  have hlast : start.afterCalls (calls ++ [.connect blocks]) =
      (connect blocks).leaves (start.afterCalls calls) := List.foldl_concat ..
  rw [hlast] at hbest
  generalize start.afterCalls calls = c at hbest ⊢
  refine ⟨?_, ?_⟩
  · intro e he
    rw [exec_connect, he]
    rfl
  · intro hfail hroom
    cases hrun : (importBlocks blocks .exist).exec c with
    | mk r d =>
      cases r with
      | error e => exact absurd (importBlocks_faults_iff blocks |>.mp ⟨e, d, hrun⟩) hroom
      | ok answer =>
        have hconnect := connect_of_importBlocks hfail hrun
        rw [Step.leaves, hconnect] at hbest
        obtain ⟨attempted, h⟩ := exists_linking blocks hrun
        exact ⟨_, d, attempted, hconnect, h.accounts hfail hbest⟩

/-- A stored block, a new one, one without a parent, and one more. -/
def broken : List Block := [sprout 0, sprout 1, .make 2 .zero 1 0 [] .zero, shoot]

/-- Of the broken list the new block is reported and what became of the one without a parent. An
error that is set is answered. -/
theorem exists_accounts_broken : ∃ start, Chain.new .genesis = .ok start ∧
    (∃ d attempted, Accounts (start.afterCalls [.connect [sprout 0]]) d broken attempted
      ⟨1, [(sprout 1).hash], .noParent⟩) ∧
    ((connect broken).exec (start.afterCalls [.failNext (.rejected "closed")])).1 =
      .ok (.error (.rejected "closed")) := by
  obtain ⟨start, new, hrun⟩ := Seat.exists_genesis_of_any (fun start ↦
    let c := start.afterCalls [.connect [sprout 0]]
    decide (c.nextFailure = none ∧
      ((connect broken).exec c).1 = .ok (.ok ⟨1, [(sprout 1).hash], .noParent⟩)))
    (by decide +kernel)
  obtain ⟨hfail, hreport⟩ := of_decide_eq_true hrun
  refine ⟨start, new, ?_, ?_⟩
  · have hroom : ¬ (start.afterCalls [.connect [sprout 0]]).RunsOut broken := by
      intro hroom
      obtain ⟨e, t, hfault⟩ : ∃ e t, (importBlocks broken .exist).exec
          (start.afterCalls [.connect [sprout 0]]) = (.error e, t) :=
        (importBlocks_faults_iff broken).mpr hroom
      rw [exec_connect, hfail] at hreport
      dsimp only at hreport
      rw [takeFailure_of_none hfail] at hreport
      dsimp only at hreport
      rw [hfault] at hreport
      cases hreport
    obtain ⟨report, d, attempted, hconnect, haccounts⟩ :=
      (connect_accounts new [.connect [sprout 0]] broken).2 hfail hroom
    rw [hconnect] at hreport
    cases hreport
    exact ⟨d, attempted, haccounts⟩
  · rw [(connect_accounts new [.failNext (.rejected "closed")] broken).1 (.rejected "closed") rfl]

end Chain
end ChainSync
