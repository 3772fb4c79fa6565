import ChainSync.Proofs.Chain.ForkChoice
import ChainSync.Proofs.Import.Duplicates
import ChainSync.Proofs.Import.Retention
import ChainSync.Proofs.Round.Exchange
import Mathlib.Data.List.Chain

/-!
# Headers that are left of a batch

A batch of headers is linked before the remembered ones are taken out of it. What is left is linked
exactly when nothing was taken out between two headers that are left. While a new engine works, the
parent of every block that its chain stores is stored too, and with room for all that was remembered
it is remembered as well; so only headers at the start of a batch are taken out. A set that is too
small forgets the parents first, and a batch that is passed over has only its last block remembered;
then headers are taken out in the middle.
-/

namespace ChainSync

/-- The second header follows the first one by number and by parent. -/
def Header.Precedes (first second : Header) : Prop :=
  first.number.toNat + 1 = second.number.toNat ∧ second.parent = first.hash

namespace HeaderBatch

variable {first : Header} {headers rest : List Header} {kept : Header → Bool}

/-! ### Linked headers -/

theorem isLinked_iff (headers : List Header) :
    isLinked headers = .ok true ↔ headers.IsChain Header.Precedes := by
  induction headers with
  | nil => exact iff_of_true rfl .nil
  | cons first rest ih =>
    cases rest with
    | nil => exact iff_of_true rfl (.singleton _)
    | cons second rest =>
      rw [List.isChain_cons_cons, ← ih, isLinked]
      cases hnext : checkedAdd first.number 1 with
      | error e =>
        refine iff_of_false (fun h ↦ by cases h) fun ⟨⟨hnumber, _⟩, _⟩ ↦ ?_
        have hfull : UInt64.size ≤ first.number.toNat + 1 := (checkedAdd_eq_error_iff.mp hnext).1
        have := second.number.toNat_lt_size
        omega
      | ok next =>
        have hsum : next.toNat = first.number.toNat + 1 := toNat_of_checkedAdd_eq_ok hnext
        have hnumber : second.number = next ↔ first.number.toNat + 1 = second.number.toNat := by
          rw [← UInt64.toNat_inj, hsum, eq_comm]
        change (if second.number = next ∧ second.parent = first.hash then isLinked (second :: rest)
          else pure false) = .ok true ↔ _
        rw [Header.Precedes, ← hnumber]
        split
        · next h => exact (and_iff_right h).symm
        · next h => exact iff_of_false (fun h' ↦ by cases h') fun h' ↦ h h'.1

/-- The first of some linked headers has the lowest number. -/
theorem number_lt_of_mem (linked : (first :: rest).IsChain Header.Precedes) {header : Header}
    (h : header ∈ rest) : first.number < header.number := by
  have : Trans (fun a b : Header ↦ a.number < b.number) (fun a b : Header ↦ a.number < b.number)
      (fun a b : Header ↦ a.number < b.number) := ⟨UInt64.lt_trans⟩
  have hrises : (first :: rest).IsChain fun a b ↦ a.number < b.number :=
    linked.imp fun a b hab ↦ UInt64.lt_iff_toNat_lt.mpr (by have := hab.1; omega)
  exact List.rel_of_pairwise_cons (List.isChain_iff_pairwise.mp hrises) h

/-- Headers left after the first one that still follow it are those right after it. -/
theorem filter_isPrefix (linked : (first :: rest).IsChain Header.Precedes)
    (left : (first :: rest.filter kept).IsChain Header.Precedes) : rest.filter kept <+: rest := by
  induction rest generalizing first with
  | nil => exact List.prefix_refl _
  | cons second rest ih =>
    rw [List.isChain_cons_cons] at linked
    by_cases hsecond : kept second = true
    · rw [List.filter_cons_of_pos hsecond] at left ⊢
      exact List.cons_prefix_cons.mpr ⟨rfl, ih linked.2 (List.isChain_cons_cons.mp left).2⟩
    · rw [List.filter_cons_of_neg hsecond] at left ⊢
      cases hrest : rest.filter kept with
      | nil => exact List.nil_prefix
      | cons third others =>
        -- The next header left would have the number of the one that is taken out before it.
        rw [hrest, List.isChain_cons_cons] at left
        have hthird : third ∈ rest.filter kept := hrest ▸ List.mem_cons_self
        have hlt := number_lt_of_mem linked.2 (List.mem_filter.mp hthird).1
        have hsame := linked.1.1.symm.trans left.1.1
        rw [UInt64.lt_iff_toNat_lt] at hlt
        omega

/-- Of linked headers those left are linked exactly when none was taken out between two of them. -/
theorem isChain_filter_iff (linked : headers.IsChain Header.Precedes) :
    (headers.filter kept).IsChain Header.Precedes ↔ headers.filter kept <:+: headers := by
  refine ⟨fun left ↦ ?_, linked.infix⟩
  induction headers with
  | nil => exact List.infix_refl _
  | cons first rest ih =>
    by_cases hfirst : kept first = true
    · rw [List.filter_cons_of_pos hfirst] at left ⊢
      exact (List.cons_prefix_cons.mpr ⟨rfl, filter_isPrefix linked left⟩).isInfix
    · rw [List.filter_cons_of_neg hfirst] at left ⊢
      exact (ih linked.tail left).trans (List.suffix_cons _ _).isInfix

/-- Where every header after one that is left is left, the headers at the end are left. -/
theorem filter_isSuffix (onward : headers.IsChain fun a b ↦ kept a = true → kept b = true) :
    headers.filter kept <:+ headers := by
  induction headers with
  | nil => exact List.suffix_refl _
  | cons first rest ih =>
    by_cases hfirst : kept first = true
    · have : Trans (fun a b : Header ↦ kept a = true → kept b = true)
          (fun a b : Header ↦ kept a = true → kept b = true)
          (fun a b : Header ↦ kept a = true → kept b = true) := ⟨fun hab hbc ha ↦ hbc (hab ha)⟩
      have hall : ∀ h ∈ first :: rest, kept h = true := by
        intro h hh
        rcases List.mem_cons.mp hh with rfl | hh
        · exact hfirst
        · exact List.rel_of_pairwise_cons (List.isChain_iff_pairwise.mp onward) hh hfirst
      rw [List.filter_eq_self.mpr hall]
    · rw [List.filter_cons_of_neg hfirst]
      exact (ih onward.tail).trans (List.suffix_cons _ _)

/-- Screening takes the remembered headers out of linked ones. -/
theorem linked_of_screen {accepts : Header → Bool} {imported : RecentSet Digest}
    {batch passed : HeaderBatch} (screened : screen accepts imported batch = .ok (some passed)) :
    batch.headers.IsChain Header.Precedes ∧
      passed.headers = batch.headers.filter fun h ↦ !imported.contains h.hash := by
  refine ⟨?_, ?_⟩
  · rw [← isLinked_iff]
    unfold screen at screened
    split at screened
    · cases screened
    · cases hlinked : isLinked batch.headers with
      | error e =>
        rw [hlinked] at screened
        cases screened
      | ok linked =>
        rw [hlinked] at screened
        cases linked with
        | false => cases screened
        | true => rfl
  · rcases screen_cases accepts imported batch with ⟨e, h⟩ | h | ⟨-, h⟩
    · rw [screened] at h
      cases h
    · rw [screened] at h
      cases h
    · rw [screened] at h
      cases h
      rfl

end HeaderBatch

/-! ### What an engine takes in -/

/-- What an engine takes in. -/
inductive Intake where
  /-- Headers that a peer sent. -/
  | headers (peer : PeerId) (name : String) (headers : List Header)
  /-- Bodies that a peer sent. -/
  | bodies (peer : PeerId) (bodies : List Body)
  /-- A batch to import, and the errors that are set for the lists that it hands to the chain. -/
  | batch (batch : BlockBatch) (errors : List (Option ChainError))

namespace Seat

theorem keeps_spares_recordResponse (s : Seat) (peer : PeerId) (kind : RequestKind) :
    Step.Keeps (Spares s) (recordResponse peer kind) :=
  .bind (fun _ h ↦ h) fun _ _ h ↦ ⟨h.chain, h.imported⟩

theorem keeps_spares_onHeaders (s : Seat) (peer : PeerId) (name : String) (headers : List Header) :
    Step.Keeps (Spares s) (onHeaders peer name headers) := by
  refine .bind (keeps_spares_recordResponse s peer .headers) fun _ ↦ .bind (fun _ h ↦ h) fun t ↦
    .bind (.lift _) fun screened ↦ ?_
  cases screened with
  | none => exact .pure _
  | some batch =>
    exact .bind (fun _ h ↦ ⟨h.chain, h.imported⟩) fun _ ↦ .bind (.bind
      (fun _ h ↦ ⟨h.chain, h.imported⟩) fun _ ↦ .bind (fun _ h ↦ h) fun _ _ h ↦
        ⟨h.chain, h.imported⟩) fun _ ↦ .pure _

theorem keeps_spares_enqueue (s : Seat) (batch : BlockBatch) :
    Step.Keeps (Spares s) (enqueue batch) := by
  refine .bind (fun _ h ↦ h) fun t ↦ .bind (fun _ h ↦ ⟨h.chain, h.imported⟩) fun answer ↦ ?_
  cases answer with
  | error e => exact .bind (keeps_spares_alarm s e) fun _ ↦ .pure _
  | ok outcome =>
    cases outcome with
    | diverted stored => exact .bind (fun _ h ↦ ⟨h.chain, h.imported⟩) fun _ ↦ .pure _
    | queued | replaced | superseded | empty => exact .pure _

theorem keeps_spares_onBodies (s : Seat) (peer : PeerId) (bodies : List Body) :
    Step.Keeps (Spares s) (onBodies peer bodies) := by
  refine .bind (.bind (keeps_spares_recordResponse s peer .bodies) fun _ ↦
    .bind (fun _ h ↦ ⟨h.chain, h.imported⟩) fun found ↦ ?_) fun paired ↦ ?_
  · cases found with
    | none => exact .pure _
    | some headers =>
      dsimp only
      cases headers.assemble bodies with
      | none => exact .pure _
      | some batch => exact .bind (fun _ h ↦ ⟨h.chain, h.imported⟩) fun _ ↦ .pure _
  · cases paired with
    | none => exact .pure _
    | some batch => exact keeps_spares_enqueue s batch

def take (s : Seat) : Intake → Seat
  | .headers peer name headers => (onHeaders peer name headers).leaves s
  | .bodies peer bodies => (onBodies peer bodies).leaves s
  | .batch batch _ => (processBatch batch).leaves s

end Seat

namespace Watched

open Chain (sprout shoot leaf)

variable {c : Chain} {w v : Watched}

def take (w : Watched) : Intake → Watched
  | .headers peer name headers => (watch (Seat.onHeaders peer name headers)).leaves w
  | .bodies peer bodies => (watch (Seat.onBodies peer bodies)).leaves w
  | .batch batch errors => (processBatch batch).leaves { w with errors }

/-- Without errors set for lists, a watched engine takes everything in as it does unwatched. -/
theorem seat_foldl_take (intakes : List Intake)
    (quiet : ∀ batch errors, .batch batch errors ∈ intakes → errors = []) :
    ∀ w : Watched, (intakes.foldl take w).seat = intakes.foldl Seat.take w.seat := by
  induction intakes with
  | nil => exact fun _ ↦ rfl
  | cons intake rest ih =>
    intro w
    have hseat : (w.take intake).seat = w.seat.take intake := by
      cases intake with
      | headers peer name headers => rfl
      | bodies peer bodies => rfl
      | batch batch errors =>
        obtain rfl := quiet batch errors List.mem_cons_self
        exact (mirrors_processBatch batch { w with errors := [] } rfl).2.1
    rw [List.foldl_cons, List.foldl_cons, ← hseat]
    exact ih (fun batch errors h ↦ quiet batch errors (List.mem_cons_of_mem _ h)) _

/-- What imports keep, whatever errors are set, is kept whatever an engine takes in. -/
theorem KeptByBatches.foldl_take {P : Watched → Prop} (kept : KeptByBatches P)
    (set : ∀ {w : Watched} (errors : List (Option ChainError)), P w → P { w with errors })
    (intakes : List Intake) : ∀ {w : Watched}, P w → P (intakes.foldl take w) := by
  induction intakes with
  | nil => exact fun h ↦ h
  | cons intake rest ih =>
    intro w h
    refine ih ?_
    cases intake with
    | headers peer name headers =>
      exact kept.watch (fun s ↦ Seat.keeps_spares_onHeaders s peer name headers) h
    | bodies peer bodies => exact kept.watch (fun s ↦ Seat.keeps_spares_onBodies s peer bodies) h
    | batch batch errors => exact kept.processBatch batch (set errors h)

/-- Unless the chain ran out of heights, every block that it stores beyond the first chain was noted
as remembered, and its parent is stored. -/
def Notes (c : Chain) (w : Watched) : Prop :=
  (∀ call ∈ w.calls, call.Answered) → c.Adds w.seat.node.chain w.remembered

/-- What is handed over is noted. -/
theorem Notes.handsOver (h : Notes c w) {call : Call} (hover : HandsOver w call v) : Notes c v := by
  intro answered
  rw [hover.calls] at answered
  rw [hover.remembered]
  exact (h fun call hcall ↦ answered call (List.mem_append_left _ hcall)).trans
    (hover.adds (answered call (List.mem_append_right _ List.mem_cons_self))) hover.within

/-- Every edit of an import notes what it adds. -/
theorem Notes.keptByBatches (c : Chain) : KeptByBatches (Notes c) where
  sparesAll {w s} h spares answered := by
    have hadds := h answered
    rw [← spares.chain] at hadds
    exact hadds
  spares {w s} h spares answered := by
    have hadds := h answered
    rw [← spares.chain] at hadds
    exact hadds
  handsOver h _ hover := h.handsOver hover
  remembered notes _ answered _ _ hb new := by
    obtain ⟨hmem, hparent⟩ := notes answered hb new
    exact ⟨List.mem_append_left _ hmem, hparent⟩

/-! ### What is left of a batch -/

/-- Where all that was noted is remembered, a header that follows one that is not remembered is not
remembered either. -/
theorem isChain_left {headers : List Header} (linked : headers.IsChain Header.Precedes)
    (backed : w.seat.Backed) (holds : w.seat.engine.imported.Holds w.remembered)
    (adds : c.Adds w.seat.node.chain w.remembered)
    (since : ∀ h ∈ headers, c.block? h.hash = none)
    (sole : ∀ h ∈ headers, ∀ b, w.seat.node.chain.block? h.hash = some b → b.parent = h.parent) :
    headers.IsChain fun a b ↦ (!w.seat.engine.imported.contains a.hash) = true →
      (!w.seat.engine.imported.contains b.hash) = true := by
  refine linked.imp_of_mem_imp fun a b ha hb hab hnew ↦ ?_
  rw [Bool.not_eq_true', ← Bool.not_eq_true, RecentSet.contains_iff] at hnew ⊢
  refine mt (fun hknown ↦ ?_) hnew
  -- The block of the second header is stored, so its parent is, and the parent was noted.
  obtain ⟨block, hblock⟩ := Option.isSome_iff_exists.mp (backed _ hknown)
  obtain ⟨-, hparent⟩ := adds hblock (since b hb)
  rw [sole b hb block hblock, hab.2] at hparent
  obtain ⟨parent, hparent⟩ := Option.isSome_iff_exists.mp hparent
  exact holds.mem_iff.mpr (adds hparent (since a ha)).1

/-- A new engine takes in headers, bodies and batches in any order, whatever errors the chain
answers. What is left of a batch of headers is linked exactly when it is a piece of the batch, no
header being taken out in the middle. It is the end of the batch if there was room for all that was
remembered, the chain did not run out of heights, and no header of the batch was stored from the
start or has the hash of a stored block with another parent. -/
theorem linked_screen_foldl_take {s : Seat} (fresh : s.engine.imported.keys = [])
    (intakes : List Intake) {batch left : HeaderBatch}
    (screened : HeaderBatch.screen (intakes.foldl take (on s [])).seat.node.accepts
      (intakes.foldl take (on s [])).seat.engine.imported batch = .ok (some left)) :
    let w := intakes.foldl take (on s [])
    (HeaderBatch.isLinked left.headers = .ok true ↔ left.headers <:+: batch.headers) ∧
      (w.remembered.toFinset.card ≤ s.engine.imported.capacity →
        (∀ call ∈ w.calls, call.Answered) →
        (∀ h ∈ batch.headers, s.node.chain.block? h.hash = none) →
        (∀ h ∈ batch.headers, ∀ b, w.seat.node.chain.block? h.hash = some b →
          b.parent = h.parent) →
        left.headers <:+ batch.headers) := by
  intro w
  obtain ⟨linked, hleft⟩ := HeaderBatch.linked_of_screen screened
  rw [HeaderBatch.isLinked_iff, hleft]
  refine ⟨HeaderBatch.isChain_filter_iff linked, fun room answered since sole ↦ ?_⟩
  have hbacked : Backed w := by
    refine Backed.keptByBatches.foldl_take (fun _ h ↦ ⟨h.seat, h.passed⟩) intakes
      ⟨fun h hh ↦ ?_, fun h ↦ by cases h⟩
    change h ∈ s.engine.imported.keys at hh
    rw [fresh] at hh
    cases hh
  have hunrepeated : Unrepeated s.engine.imported.capacity w :=
    (Unrepeated.keptByBatches _).foldl_take (fun _ h ↦ h.of_eq rfl rfl rfl) intakes
      ⟨rfl, fun h ↦ (by cases h), fun _ ↦ RecentSet.holds_nil fresh, fun _ ↦ .nil⟩
  have hnotes : Notes s.node.chain w :=
    (Notes.keptByBatches _).foldl_take (fun _ h ↦ h) intakes fun _ ↦ Chain.Adds.refl _ _
  exact HeaderBatch.filter_isSuffix
    (isChain_left linked hbacked.seat (hunrepeated.holds room) (hnotes answered) since sole)

/-- A block and its child arrive in one batch. -/
def sproutIntakes : List Intake := [.batch ⟨.ofNat 1, "peer-1", [sprout 0, shoot]⟩ []]

/-- The headers of the two blocks and of one after them. -/
def leafHeaders : HeaderBatch :=
  ⟨.ofNat 1, "peer-1", [sprout 0, shoot, leaf].map Block.header, 0⟩

/-- Over the first block of every chain, of the headers of two imported blocks and one after them
the last is left. -/
theorem linked_screen_foldl_take_sproutIntakes :
    ∃ c, Chain.new .genesis = .ok c ∧ (Seat.genesisSeat c).engine.imported.keys = [] ∧
      let w := sproutIntakes.foldl take (on (Seat.genesisSeat c) [])
      let left : HeaderBatch := { leafHeaders with headers := [leaf.header] }
      HeaderBatch.screen w.seat.node.accepts w.seat.engine.imported leafHeaders =
        .ok (some left) ∧
      w.remembered.toFinset.card ≤ (Seat.genesisSeat c).engine.imported.capacity ∧
      (∀ call ∈ w.calls, call.Answered) ∧
      (∀ h ∈ leafHeaders.headers, (Seat.genesisSeat c).node.chain.block? h.hash = none) ∧
      (∀ h ∈ leafHeaders.headers, ∀ b, w.seat.node.chain.block? h.hash = some b →
        b.parent = h.parent) ∧
      HeaderBatch.isLinked left.headers = .ok true ∧ left.headers <:+ leafHeaders.headers := by
  obtain ⟨c, hnew, hrun⟩ := Seat.exists_genesis_of_any (fun c ↦
    let w := sproutIntakes.foldl take (on (Seat.genesisSeat c) [])
    decide (HeaderBatch.screen w.seat.node.accepts w.seat.engine.imported leafHeaders =
        .ok (some { leafHeaders with headers := [leaf.header] }) ∧
      w.remembered.toFinset.card ≤ (Seat.genesisSeat c).engine.imported.capacity ∧
      (∀ call ∈ w.calls, call.answer.isOk = true) ∧
      (∀ h ∈ leafHeaders.headers, (Seat.genesisSeat c).node.chain.block? h.hash = none) ∧
      (∀ h ∈ leafHeaders.headers, (w.seat.node.chain.block? h.hash).all
        (fun b ↦ b.parent = h.parent) = true))) (by decide +kernel)
  obtain ⟨screened, room, hok, since, hsole⟩ := of_decide_eq_true hrun
  have answered : ∀ call ∈ (sproutIntakes.foldl take (on (Seat.genesisSeat c) [])).calls,
      call.Answered := by
    intro call hcall
    have hcall := hok call hcall
    cases hanswer : call.answer with
    | ok result => exact ⟨result, hanswer⟩
    | error e =>
      rw [hanswer] at hcall
      cases hcall
  have sole : ∀ h ∈ leafHeaders.headers, ∀ b,
      (sproutIntakes.foldl take (on (Seat.genesisSeat c) [])).seat.node.chain.block? h.hash =
        some b → b.parent = h.parent :=
    fun h hh b hb ↦ of_decide_eq_true ((Option.all_eq_true _ _).mp (hsole h hh) b hb)
  obtain ⟨hiff, hsuffix⟩ := linked_screen_foldl_take rfl sproutIntakes screened
  have hleft := hsuffix room answered since sole
  exact ⟨c, hnew, rfl, screened, room, answered, since, sole, hiff.mpr hleft.isInfix, hleft⟩

/-- Over the first block of every chain, an engine that remembers one hash imports a block and its
child; then of their headers and one after them the first and the last are left. -/
theorem exists_unlinked_screen :
    ∃ c, Chain.new .genesis = .ok c ∧
      let t := sproutIntakes.foldl Seat.take ((Seat.genesisSeat c).withImported (.empty 1))
      let left : HeaderBatch :=
        { leafHeaders with headers := [(sprout 0).header, leaf.header] }
      HeaderBatch.screen t.node.accepts t.engine.imported leafHeaders = .ok (some left) ∧
      HeaderBatch.isLinked left.headers = .ok false := by
  obtain ⟨c, hnew, hrun⟩ := Seat.exists_genesis_of_any (fun c ↦
    let t := sproutIntakes.foldl Seat.take ((Seat.genesisSeat c).withImported (.empty 1))
    let left : HeaderBatch := { leafHeaders with headers := [(sprout 0).header, leaf.header] }
    decide (HeaderBatch.screen t.node.accepts t.engine.imported leafHeaders = .ok (some left) ∧
      HeaderBatch.isLinked left.headers = .ok false)) (by decide +kernel)
  exact ⟨c, hnew, of_decide_eq_true hrun⟩

end Watched
end ChainSync
