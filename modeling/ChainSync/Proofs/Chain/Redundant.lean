import ChainSync.Proofs.Chain.Report
import Mathlib.Data.Set.Function

/-!
# Lists that end with a stored block

A chain that only links blocks stores with each block all of its ancestors. Where headers with one
hash are one header, a list of linked blocks is therefore stored as a whole once its last block is,
and linking any of its blocks again changes nothing. Main statement: looking the last block up says
as much as linking the list.
-/

namespace ChainSync
namespace Chain

/-! ### Rooted chains -/

/-- Linking blocks keeps them rooted. -/
theorem Attempt.rooted {first block : Block} {c d : Chain} {r : Except Fault ImportOutcome}
    (ha : Attempt c block r d) (hr : Rooted first c.blocks) : Rooted first d.blocks := by
  cases ha with
  | exist _ | noParent _ _ | noHeight _ _ _ | invalid _ _ _ _ => exact hr
  | detached new found fits _ | light new found fits _ _ => exact hr.insert new found fits
  | heavy new found fits _ _ _ | lastHead new found fits _ _ _ => exact hr.insert new found fits

/-- A call that does not store a block before its parent. -/
def Call.Links : Call → Prop
  | fastImport _ => False
  | connect _ | failNext _ | prune _ => True

/-- A call that only links blocks keeps them rooted. -/
theorem Call.Links.rooted {first : Block} {call : Call} (links : call.Links) {c : Chain}
    (hr : Rooted first c.blocks) : Rooted first (call.leaves c).blocks := by
  cases call with
  | fastImport _ => exact links.elim
  | failNext _ | prune _ => exact hr
  | connect blocks =>
    exact keeps_connect (P := fun c ↦ Rooted first c.blocks) (fun _ h ↦ h) (fun h ↦ h)
      (fun h ha ↦ ha.rooted h) blocks hr

/-- Calls that only link blocks lead to a rooted chain. -/
theorem rooted_afterCalls {first : Block} {start : Chain} (new : Chain.new first = .ok start)
    {calls : List Call} (links : ∀ call ∈ calls, call.Links) :
    Rooted first (start.afterCalls calls).blocks := by
  have hstart : Rooted first start.blocks := by
    rw [blocks_new new]
    exact rooted_single first
  exact List.foldlRecOn (motive := fun c : Chain ↦ Rooted first c.blocks) calls _ hstart
    fun c hc call hcall ↦ (links call hcall).rooted hc

namespace Rooted

variable {first b : Block} {blocks : BlockMap} {h : Digest}

/-- Every stored block is sealed if the first one is. -/
theorem isSealed (hr : Rooted first blocks) (origin : first.header.isSealed = true)
    (hb : blocks[h]? = some b) : b.header.isSealed = true := by
  by_cases hf : h = first.hash
  · subst hf
    rw [hr.first_stored] at hb
    cases hb
    exact origin
  · obtain ⟨p, -, hfollows⟩ := hr.follows hb hf
    exact hfollows.isSealed

end Rooted

/-! ### Stored lists -/

/-- The headers of the stored blocks and of a list. -/
def headers (c : Chain) (blocks : List Block) : Set Header :=
  {header | (∃ h b, c.block? h = some b ∧ b.header = header) ∨ ∃ b ∈ blocks, b.header = header}

/-- The block's header is stored under its hash. -/
def Holds (c : Chain) (block : Block) : Prop :=
  ∃ stored, c.block? block.hash = some stored ∧ stored.header = block.header

/-- Each block is the parent of the next one, which stands one above it. -/
def Chained (blocks : List Block) : Prop :=
  blocks.IsChain fun b next ↦ next.parent = b.hash ∧ b.number.toNat + 1 = next.number.toNat

section

variable {first block : Block} {c : Chain} {batch : List Block}

/-- A sealed block of the list has the header stored under its hash. -/
theorem Rooted.holds (hr : Rooted first c.blocks) (origin : first.header.isSealed = true)
    (injective : Set.InjOn Header.computedHash (c.headers batch)) (hmem : block ∈ batch)
    (isSealed : block.header.isSealed = true) (known : (c.block? block.hash).isSome) :
    c.Holds block := by
  obtain ⟨stored, hstored⟩ := Option.isSome_iff_exists.mp known
  refine ⟨stored, hstored, injective (.inl ⟨_, stored, hstored, rfl⟩) (.inr ⟨block, hmem, rfl⟩) ?_⟩
  have hhash : stored.header.hash = block.header.hash := hr.hash_eq hstored
  have hstoredSealed : stored.header.hash = stored.header.computedHash :=
    of_decide_eq_true (hr.isSealed origin hstored)
  have hsealed : block.header.hash = block.header.computedHash := of_decide_eq_true isSealed
  rw [← hstoredSealed, hhash, hsealed]

/-- With a block above the lowest height its parent is stored. -/
theorem Rooted.isSome_parent (hr : Rooted first c.blocks) (lowest : first.number = 0)
    (holds : c.Holds block) (above : 0 < block.number.toNat) :
    (c.block? block.parent).isSome := by
  obtain ⟨stored, hstored, hheader⟩ := holds
  have hnumber : stored.number = block.number := congrArg Header.number hheader
  have hparent : stored.parent = block.parent := congrArg Header.parent hheader
  have hne : block.hash ≠ first.hash := by
    intro he
    rw [block?, he, hr.first_stored] at hstored
    cases hstored
    rw [← hnumber, lowest] at above
    cases above
  obtain ⟨p, hp, -⟩ := hr.follows hstored hne
  rw [block?, ← hparent, hp]
  rfl

/-- The headers of a list are stored when that of its last block is. -/
theorem Rooted.holds_of_last (hr : Rooted first c.blocks) (origin : first.header.isSealed = true)
    (lowest : first.number = 0) (injective : Set.InjOn Header.computedHash (c.headers batch))
    {blocks : List Block} (hsub : blocks ⊆ batch)
    (isSealed : ∀ b ∈ blocks, b.header.isSealed = true) (chained : Chained blocks)
    (hlast : ∀ b ∈ blocks.getLast?, c.Holds b) : ∀ b ∈ blocks, c.Holds b := by
  -- From the last block on down: the parent of each held block is stored, and it is the one before.
  induction chained with
  | nil => exact fun b hb ↦ nomatch hb
  | singleton b =>
    intro b' hb'
    cases List.mem_singleton.mp hb'
    exact hlast b rfl
  | @cons_cons b next rest hlink _ ih =>
    obtain ⟨hparent, hnumber⟩ := hlink
    have hrest : ∀ b ∈ next :: rest, c.Holds b := by
      apply ih (fun b hb ↦ hsub (List.mem_cons_of_mem _ hb))
        (fun b hb ↦ isSealed b (List.mem_cons_of_mem _ hb))
      rwa [List.getLast?_cons_cons] at hlast
    have known := hr.isSome_parent lowest (hrest next List.mem_cons_self) (by omega)
    rw [hparent] at known
    intro b' hb'
    rcases List.mem_cons.mp hb' with rfl | hb'
    · exact hr.holds origin injective (hsub List.mem_cons_self)
        (isSealed b' List.mem_cons_self) known
    · exact hrest b' hb'

end

/-- A list of stored blocks is handed over and nothing else happens. -/
theorem importBlocks_of_stored (blocks : List Block) :
    ∀ {c : Chain}, (∀ b ∈ blocks, (c.block? b.hash).isSome) →
      (importBlocks blocks .exist).exec c =
        (.ok ([], .exist), { c with handed := (blocks.map Block.hash).reverse ++ c.handed }) := by
  induction blocks with
  | nil => exact fun _ ↦ rfl
  | cons block rest ih =>
    intro c known
    have hstored : ((c.withHanded block.hash).block? block.hash).isSome :=
      known block List.mem_cons_self
    have hfirst : (importBlock block).exec (c.withHanded block.hash) =
        (.ok .exist, c.withHanded block.hash) := by
      rw [importBlock, Step.exec_bind, Step.exec_get]
      dsimp only
      rw [if_pos hstored]
      rfl
    rw [exec_importBlocks_cons, hfirst]
    dsimp only
    rw [ih (c := c.withHanded block.hash) fun b hb ↦ known b (List.mem_cons_of_mem _ hb),
      List.map_cons, List.reverse_cons, List.append_assoc]
    rfl

/-- On a chain that calls lead to which only link blocks, from a sealed first block at height zero
and with no error left set, take a list of sealed blocks, each the parent of the next one, and let
no two headers of these or of stored blocks have one hash. If the last block counts as stored, so
does every block, and under its hash stands its header. Linking any blocks of the list again, in any
order, imports none and changes nothing but the log of hashes handed over. -/
theorem connect_of_isStored_last {first : Block} {start : Chain}
    (new : Chain.new first = .ok start) (origin : first.header.isSealed = true)
    (lowest : first.number = 0) {calls : List Call} (links : ∀ call ∈ calls, call.Links)
    (pending : (start.afterCalls calls).nextFailure = none) {batch : List Block} {last : Block}
    (ends : batch.getLast? = some last) (isSealed : ∀ b ∈ batch, b.header.isSealed = true)
    (chained : Chained batch)
    (injective : Set.InjOn Header.computedHash ((start.afterCalls calls).headers batch))
    (stored : (start.afterCalls calls).isStored last.hash last.number = true) :
    (∀ b ∈ batch, (start.afterCalls calls).isStored b.hash b.number = true ∧
      (start.afterCalls calls).Holds b) ∧
    ∀ blocks ⊆ batch, (connect blocks).exec (start.afterCalls calls) =
      (.ok (.ok ⟨(start.afterCalls calls).bestNumber, [], .exist⟩),
        { start.afterCalls calls with
          handed := (blocks.map Block.hash).reverse ++ (start.afterCalls calls).handed }) := by
  have hr := rooted_afterCalls new links
  generalize start.afterCalls calls = c at hr pending injective stored ⊢
  have hholds : ∀ b ∈ batch, c.Holds b := by
    apply hr.holds_of_last origin lowest injective (List.Subset.refl batch) isSealed chained
    intro b hb
    obtain rfl : last = b := Option.some.inj (ends.symm.trans hb)
    have hmem : last ∈ batch := List.mem_of_getLast? ends
    apply hr.holds origin injective hmem (isSealed last hmem)
    cases hlast : c.block? last.hash with
    | some _ => rfl
    | none =>
      rw [isStored, hlast] at stored
      cases stored
  refine ⟨fun b hb ↦ ⟨?_, hholds b hb⟩, ?_⟩
  · obtain ⟨found, hfound, hheader⟩ := hholds b hb
    rw [isStored, hfound]
    exact decide_eq_true (congrArg Header.number hheader)
  · intro blocks hsub
    have hknown : ∀ b ∈ blocks, (c.block? b.hash).isSome := by
      intro b hb
      obtain ⟨found, hfound, -⟩ := hholds b (hsub hb)
      exact Option.isSome_of_eq_some hfound
    exact connect_of_importBlocks pending (importBlocks_of_stored blocks hknown)

/-- After a child of the first block and a child of that one are linked, the two are a list that
ends with a stored block. -/
theorem exists_connect_of_isStored_shoot : ∃ start, Chain.new .genesis = .ok start ∧
    let c := start.afterCalls [.connect [sprout 0, shoot]]
    c.isStored (sprout 0).hash 1 = true ∧
    ∃ handed, (connect [shoot, sprout 0]).exec c =
      (.ok (.ok ⟨2, [], .exist⟩), { c with handed := handed }) := by
  obtain ⟨start, new, hrun⟩ := Seat.exists_genesis_of_any (fun start ↦
    let c := start.afterCalls [.connect [sprout 0, shoot]]
    decide (c.nextFailure = none ∧ c.bestNumber = 2 ∧ c.isStored shoot.hash shoot.number = true ∧
      (∀ entry ∈ c.blocks.toList, entry.2.header ∈
        [Block.genesis.header, (sprout 0).header, shoot.header]) ∧
      ([Block.genesis.header, (sprout 0).header, shoot.header].map Header.computedHash).Nodup))
    (by decide +kernel)
  obtain ⟨pending, hbest, stored, hblocks, hdistinct⟩ := of_decide_eq_true hrun
  refine ⟨start, new, ?_⟩
  dsimp only
  have links : ∀ call ∈ [Call.connect [sprout 0, shoot]], call.Links := by
    intro call hcall
    cases List.mem_singleton.mp hcall
    trivial
  have isSealed : ∀ b ∈ [sprout 0, shoot], b.header.isSealed = true := by
    intro b hb
    simp only [List.mem_cons, List.not_mem_nil, or_false] at hb
    rcases hb with rfl | rfl <;> exact Header.isSealed_sealed _
  have chained : Chained [sprout 0, shoot] :=
    .cons_cons ⟨rfl, (by decide : (1 : UInt64).toNat + 1 = (2 : UInt64).toNat)⟩ (.singleton _)
  have hheaders : (start.afterCalls [.connect [sprout 0, shoot]]).headers [sprout 0, shoot] ⊆
      {header | header ∈ [Block.genesis.header, (sprout 0).header, shoot.header]} := by
    rintro header (⟨h, b, hb, rfl⟩ | ⟨b, hb, rfl⟩)
    · exact hblocks (h, b) (Std.ExtTreeMap.mem_toList_iff_getElem?_eq_some.mpr hb)
    · exact List.mem_cons_of_mem _ (List.mem_map_of_mem hb)
  have ends : [sprout 0, shoot].getLast? = some shoot := rfl
  obtain ⟨hstored, hconnect⟩ := connect_of_isStored_last new (Header.isSealed_sealed _) rfl links
    pending ends isSealed chained
    (fun _ ha _ hb ↦ List.inj_on_of_nodup_map hdistinct (hheaders ha) (hheaders hb)) stored
  have hagain := hconnect [shoot, sprout 0] (by simp)
  rw [hbest] at hagain
  exact ⟨(hstored (sprout 0) List.mem_cons_self).1, _, hagain⟩

end Chain
end ChainSync
