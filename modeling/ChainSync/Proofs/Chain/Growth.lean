import ChainSync.Proofs.Chain.Branch

/-!
# Chains that grow by linking

A chain that starts with one block and is handed lists of blocks keeps its stored blocks, its total
difficulties and its canonical index in step. Main statements: an attempt to link a block keeps
them so, and therefore every run does. Every stored block but the first one follows a stored
parent, the best block is a heaviest one, and the index is the branch of the best block.
-/

namespace ChainSync
namespace Chain

/-- The blocks, the total difficulties and the canonical index of a chain are in step. -/
structure Sound (first : Block) (c : Chain) : Prop where
  /-- The stored blocks are rooted. -/
  rooted : Rooted first c.blocks
  /-- The total difficulty of the first block is its own. -/
  total_first : c.totals[first.hash]? = some first.header.difficulty
  /-- The total difficulty of every other block is its parent's and its own. -/
  total {h : Digest} {b : Block} : c.block? h = some b → h ≠ first.hash →
    ∃ t, c.totals[b.parent]? = some t ∧ c.totals[h]? = some (t + b.header.difficulty)
  /-- No total difficulty exceeds that of the best block. -/
  heaviest {h : Digest} {t : Difficulty} : c.totals[h]? = some t → t ≤ c.totalDifficulty
  /-- The index is closed over the stored blocks. -/
  closed : Closed first c.blocks c.canonical
  /-- The best block is stored, and the index ends at it. -/
  best : ∃ b, c.block? c.best = some b ∧ c.canonicalHash? b.number = some c.best ∧
    ∀ n : UInt64, b.number.toNat < n.toNat → c.canonicalHash? n = none
  /-- There are at least as many blocks as heights from the first block on. -/
  depth {h : Digest} {b : Block} : c.block? h = some b →
    b.number.toNat < first.number.toNat + c.blocks.size
  /-- There is a height above every block. -/
  room {h : Digest} {b : Block} : c.block? h = some b → b.number.toNat + 1 < UInt64.size

/-- The chain with an error set for its next import, if one is given. -/
def failing (c : Chain) (error : Option ChainError) : Chain :=
  if error.isSome then { c with nextFailure := error } else c

/-- Setting an error stores nothing. -/
@[simp] theorem block?_failing (c : Chain) (error : Option ChainError) :
    (c.failing error).block? = c.block? := by
  cases error <;> rfl

/-! ### Adding a block -/

theorem getElem?_insert_block (blocks : BlockMap) (block : Block) (h : Digest) :
    (blocks.insert block.hash block)[h]? = if block.hash = h then some block else blocks[h]? := by
  simp [Std.ExtTreeMap.getElem?_insert]

theorem block?_withTotal (c : Chain) (block : Block) (total : Difficulty) (h : Digest) :
    (c.withTotal block total).block? h = if block.hash = h then some block else c.block? h :=
  getElem?_insert_block ..

theorem totals_withTotal (c : Chain) (block : Block) (total : Difficulty) (h : Digest) :
    (c.withTotal block total).totals[h]? =
      if block.hash = h then some total else c.totals[h]? := by
  simp [withTotal, Std.ExtTreeMap.getElem?_insert]

theorem Rooted.insert {first block parent : Block} {blocks : BlockMap}
    (hr : Rooted first blocks) (new : blocks[block.hash]? = none)
    (found : blocks[block.parent]? = some parent) (fits : block.Follows parent) :
    Rooted first (blocks.insert block.hash block) := by
  have hkeep {h : Digest} {b : Block} (hb : blocks[h]? = some b) :
      (blocks.insert block.hash block)[h]? = some b := by
    have hne : block.hash ≠ h := by
      rintro rfl
      rw [new] at hb
      cases hb
    rw [getElem?_insert_block, if_neg hne, hb]
  refine ⟨?_, hkeep hr.first_stored, ?_⟩
  · intro h b hb
    rw [getElem?_insert_block] at hb
    split at hb
    · next he =>
      cases hb
      exact he
    · exact hr.hash_eq hb
  · intro h b hb hf
    rw [getElem?_insert_block] at hb
    split at hb
    · cases hb
      exact ⟨parent, hkeep found, fits⟩
    · obtain ⟨p, hp, hfollows⟩ := hr.follows hb hf
      exact ⟨p, hkeep hp, hfollows⟩

theorem Closed.insert {first block : Block} {blocks : BlockMap} {index : Canonical}
    (hc : Closed first blocks index) (new : blocks[block.hash]? = none) :
    Closed first (blocks.insert block.hash block) index := by
  have hne {h : Digest} {b : Block} (hb : blocks[h]? = some b) : block.hash ≠ h := by
    rintro rfl
    rw [new] at hb
    cases hb
  refine ⟨hc.inverse, ?_, ?_, hc.root⟩
  · intro n h hn
    obtain ⟨b, hb, hbn⟩ := hc.placed hn
    exact ⟨b, by rw [getElem?_insert_block, if_neg (hne hb), hb], hbn⟩
  · intro n h b hn hb hf
    obtain ⟨b', hb', -⟩ := hc.placed hn
    rw [getElem?_insert_block, if_neg (hne hb')] at hb
    obtain ⟨p, hp, hpn⟩ := hc.parent hn hb hf
    exact ⟨p, by rw [getElem?_insert_block, if_neg (hne hp), hp], hpn⟩

namespace Sound

variable {first block parent : Block} {c : Chain} {t : Difficulty}

/-- The best block is not one that is about to be linked. -/
theorem best_ne (hs : Sound first c) (new : c.block? block.hash = none) : block.hash ≠ c.best := by
  intro he
  obtain ⟨b, hb, -⟩ := hs.best
  rw [← he, new] at hb
  cases hb

/-- A block that is linked but does not become the head leaves the best total difficulty alone. -/
theorem totalDifficulty_withTotal (hs : Sound first c) (new : c.block? block.hash = none) :
    (c.withTotal block t).totalDifficulty = c.totalDifficulty := by
  have hne : block.hash ≠ (c.withTotal block t).best := hs.best_ne new
  rw [totalDifficulty, totals_withTotal, if_neg hne]
  rfl

/-- The total difficulty of the first block stays its own. -/
theorem total_first_withTotal (hs : Sound first c) (new : c.block? block.hash = none) :
    (c.withTotal block t).totals[first.hash]? = some first.header.difficulty := by
  have hne : block.hash ≠ first.hash := by
    intro he
    rw [he, block?, hs.rooted.first_stored] at new
    cases new
  rw [totals_withTotal, if_neg hne, hs.total_first]

/-- The total difficulties stay sums along parent links. -/
theorem total_withTotal (hs : Sound first c) (new : c.block? block.hash = none)
    (linked : c.totals[block.parent]? = some t)
    (found : c.block? block.parent = some parent) {h : Digest} {b : Block}
    (hb : (c.withTotal block (t + block.header.difficulty)).block? h = some b)
    (hf : h ≠ first.hash) :
    ∃ u, (c.withTotal block (t + block.header.difficulty)).totals[b.parent]? = some u ∧
      (c.withTotal block (t + block.header.difficulty)).totals[h]? =
        some (u + b.header.difficulty) := by
  have hkeep {a : Digest} {p : Block} (hp : c.block? a = some p) : block.hash ≠ a := by
    rintro rfl
    rw [new] at hp
    cases hp
  rw [block?_withTotal] at hb
  split at hb
  · next he =>
    cases hb
    refine ⟨t, ?_, ?_⟩
    · rw [totals_withTotal, if_neg (hkeep found), linked]
    · rw [totals_withTotal, if_pos he]
  · next he =>
    obtain ⟨u, hu, hsum⟩ := hs.total hb hf
    obtain ⟨p, hp, -⟩ := hs.rooted.follows hb hf
    refine ⟨u, ?_, ?_⟩
    · rw [totals_withTotal, if_neg (hkeep hp), hu]
    · rw [totals_withTotal, if_neg he, hsum]

theorem size_withTotal (new : c.block? block.hash = none) :
    (c.withTotal block t).blocks.size = c.blocks.size + 1 := by
  have : block.hash ∉ c.blocks := by
    intro hm
    rw [Std.ExtTreeMap.mem_iff_isSome_getElem?] at hm
    rw [block?] at new
    simp [new] at hm
  simp [withTotal, Std.ExtTreeMap.size_insert, this]

/-- There stay at least as many blocks as heights. -/
theorem depth_withTotal (hs : Sound first c) (new : c.block? block.hash = none)
    (found : c.block? block.parent = some parent) (fits : block.Follows parent) {h : Digest}
    {b : Block} (hb : (c.withTotal block t).block? h = some b) :
    b.number.toNat < first.number.toNat + (c.withTotal block t).blocks.size := by
  rw [size_withTotal new]
  rw [block?_withTotal] at hb
  split at hb
  · cases hb
    have := hs.depth found
    have := fits.number
    omega
  · have := hs.depth hb
    omega

/-- There stays a height above every block. -/
theorem room_withTotal (hs : Sound first c) (room : block.number.toNat + 1 < UInt64.size)
    {h : Digest} {b : Block} (hb : (c.withTotal block t).block? h = some b) :
    b.number.toNat + 1 < UInt64.size := by
  rw [block?_withTotal] at hb
  split at hb
  · cases hb
    exact room
  · exact hs.room hb

/-- A linked block that is not heavier than the best one keeps the chain sound. -/
theorem light (hs : Sound first c) (new : c.block? block.hash = none)
    (found : c.block? block.parent = some parent) (fits : block.Follows parent)
    (linked : c.totals[block.parent]? = some t)
    (hlight : ¬ c.totalDifficulty < t + block.header.difficulty)
    (room : block.number.toNat + 1 < UInt64.size) :
    Sound first (c.withTotal block (t + block.header.difficulty)) where
  rooted := hs.rooted.insert new found fits
  total_first := hs.total_first_withTotal new
  total := hs.total_withTotal new linked found
  heaviest := by
    intro h u hu
    rw [hs.totalDifficulty_withTotal new]
    rw [totals_withTotal] at hu
    split at hu
    · cases hu
      exact BitVec.not_lt.mp hlight
    · exact hs.heaviest hu
  closed := hs.closed.insert new
  best := by
    obtain ⟨b, hb, hn, habove⟩ := hs.best
    refine ⟨b, ?_, hn, habove⟩
    have hne : block.hash ≠ (c.withTotal block (t + block.header.difficulty)).best :=
      hs.best_ne new
    rw [block?_withTotal, if_neg hne]
    exact hb
  depth := hs.depth_withTotal new found fits
  room := hs.room_withTotal room

/-- Cutting the index above a new block leaves nothing right above it, and closed entries below. -/
theorem closedAbove_cutAbove (hs : Sound first c) (new : c.block? block.hash = none)
    (found : c.block? block.parent = some parent) (fits : block.Follows parent) :
    ClosedAbove first (c.blocks.insert block.hash block) block.hash block
      (c.canonical.cutAbove block.number) := by
  have hr := hs.rooted.insert new found fits
  have hc : Closed first (c.blocks.insert block.hash block) c.canonical := hs.closed.insert new
  have hcut {n : UInt64} {h : Digest}
      (hn : (c.canonical.cutAbove block.number).byNumber[n]? = some h) :
      n ≤ block.number ∧ c.canonical.byNumber[n]? = some h := by
    rw [Canonical.byNumber_cutAbove] at hn
    split at hn
    · cases hn
    · next hle => exact ⟨UInt64.not_lt.mp hle, hn⟩
  have hkeep {n : UInt64} (hn : n.toNat ≤ block.number.toNat) :
      (c.canonical.cutAbove block.number).byNumber[n]? = c.canonical.byNumber[n]? := by
    have : ¬ block.number < n := UInt64.not_lt.mpr (UInt64.le_iff_toNat_le.mpr hn)
    rw [Canonical.byNumber_cutAbove, if_neg this]
  refine ⟨Canonical.inverse_cutAbove hc.inverse _, fun hn ↦ hc.placed (hcut hn).2, ?_, ?_, ?_⟩
  · intro n h b hn _ habove
    have := UInt64.le_iff_toNat_le.mp (hcut hn).1
    omega
  · intro n h b hn hb hf _
    obtain ⟨p, hp, hpn⟩ := hc.parent (hcut hn).2 hb hf
    obtain ⟨b', hb', hbn⟩ := hc.placed (hcut hn).2
    obtain ⟨p', hp', hfollows⟩ := hr.follows hb hf
    rw [hb] at hb'
    rw [hp] at hp'
    cases hb'
    cases hp'
    have hle := UInt64.le_iff_toNat_le.mp (hcut hn).1
    have := hfollows.number
    rw [hbn] at this
    exact ⟨p, hp, by rw [hkeep (by omega)]; exact hpn⟩
  · have := hs.rooted.first_le found
    have := fits.number
    rw [hkeep (by omega)]
    exact hc.root

/-- A linked block that is heavier than the best one becomes the head of a sound chain. -/
theorem heavy (hs : Sound first c) (new : c.block? block.hash = none)
    (found : c.block? block.parent = some parent) (fits : block.Follows parent)
    (linked : c.totals[block.parent]? = some t)
    (hheavy : c.totalDifficulty < t + block.header.difficulty)
    (room : block.number.toNat + 1 < UInt64.size) :
    Sound first ((c.withTotal block (t + block.header.difficulty)).withHead block) ∧
      ((c.withTotal block (t + block.header.difficulty)).withHead block).totalDifficulty =
        t + block.header.difficulty := by
  have hr := hs.rooted.insert new found fits
  have hself : (c.blocks.insert block.hash block)[block.hash]? = some block := by simp
  have hfuel : block.number.toNat < first.number.toNat +
      2 * (c.withTotal block (t + block.header.difficulty)).blocks.size := by
    have hdepth := hs.depth found
    have hnum := fits.number
    have hsize : (c.withTotal block (t + block.header.difficulty)).blocks.size =
        c.blocks.size + 1 := size_withTotal new
    omega
  obtain ⟨hclosed, hhead, hframe⟩ :=
    closed_relink hr _ hself hfuel (hs.closedAbove_cutAbove new found fits)
  have htotal : ((c.withTotal block (t + block.header.difficulty)).withHead block).totalDifficulty =
      t + block.header.difficulty := by
    change ((c.withTotal block (t + block.header.difficulty)).totals[block.hash]?).getD 0 = _
    rw [totals_withTotal, if_pos rfl]
    rfl
  refine ⟨⟨hr, hs.total_first_withTotal new, hs.total_withTotal new linked found, ?_, hclosed, ?_,
    hs.depth_withTotal (t := t + block.header.difficulty) new found fits,
    hs.room_withTotal (t := t + block.header.difficulty) room⟩, htotal⟩
  · intro h u hu
    rw [htotal]
    change (c.withTotal block (t + block.header.difficulty)).totals[h]? = some u at hu
    rw [totals_withTotal] at hu
    split at hu
    · cases hu
      exact BitVec.le_refl _
    · have hle := BitVec.le_def.mp (hs.heaviest hu)
      have hlt := BitVec.lt_def.mp hheavy
      exact BitVec.le_def.mpr (by omega)
  · refine ⟨block, hself, hhead, fun n hn ↦ ?_⟩
    refine (hframe n hn).trans ?_
    rw [Canonical.byNumber_cutAbove, if_pos (UInt64.lt_iff_toNat_lt.mpr hn)]

/-- Every stored block has a total difficulty. -/
theorem exists_total (hs : Sound first c) {h : Digest} {b : Block} (hb : c.block? h = some b) :
    ∃ t, c.totals[h]? = some t := by
  by_cases hf : h = first.hash
  · exact ⟨_, hf ▸ hs.total_first⟩
  · obtain ⟨t, -, hsum⟩ := hs.total hb hf
    exact ⟨_, hsum⟩

theorem withHanded (hs : Sound first c) (hash : Digest) : Sound first (c.withHanded hash) :=
  ⟨hs.rooted, hs.total_first, hs.total, hs.heaviest, hs.closed, hs.best, hs.depth, hs.room⟩

/-- Which error is set for the next import does not matter. -/
theorem takeFailure (hs : Sound first c) : Sound first (c.takeFailure).2 :=
  ⟨hs.rooted, hs.total_first, hs.total, hs.heaviest, hs.closed, hs.best, hs.depth, hs.room⟩

/-- An attempt to link a block below the last height ends without a fault, keeps the chain sound
and does not lower the best total difficulty. -/
theorem attempt (hs : Sound first c) (room : block.number.toNat + 1 < UInt64.size)
    {r : Except Fault ImportOutcome} {c' : Chain} (ha : Attempt c block r c') :
    (∃ o, r = .ok o) ∧ Sound first c' ∧ c.totalDifficulty ≤ c'.totalDifficulty := by
  cases ha with
  | exist _ => exact ⟨⟨_, rfl⟩, hs, BitVec.le_refl _⟩
  | noParent _ _ => exact ⟨⟨_, rfl⟩, hs, BitVec.le_refl _⟩
  | noHeight _ found full =>
    have := hs.room found
    omega
  | invalid _ _ _ _ => exact ⟨⟨_, rfl⟩, hs, BitVec.le_refl _⟩
  | detached _ found _ loose =>
    obtain ⟨t, ht⟩ := hs.exists_total found
    rw [loose] at ht
    cases ht
  | light new found fits linked hlight =>
    rw [hs.totalDifficulty_withTotal new] at hlight
    refine ⟨⟨_, rfl⟩, hs.light new found fits linked hlight room, ?_⟩
    rw [hs.totalDifficulty_withTotal new]
    exact BitVec.le_refl _
  | heavy new found fits linked hheavy _ =>
    rw [hs.totalDifficulty_withTotal new] at hheavy
    obtain ⟨hs', htotal⟩ := hs.heavy new found fits linked hheavy room
    refine ⟨⟨_, rfl⟩, hs', ?_⟩
    rw [htotal]
    exact BitVec.le_of_lt hheavy
  | lastHead _ _ _ _ _ full => omega

end Sound

/-! ### Lists of blocks -/

/-- Linking a list is an attempt to link its first block and, if that one is stored, the rest. -/
theorem exec_importBlocks_cons (block : Block) (rest : List Block) (last : ImportOutcome)
    (c : Chain) :
    (importBlocks (block :: rest) last).exec c =
      match (importBlock block).exec (c.withHanded block.hash) with
      | (.ok (.imported best), t) =>
        match (importBlocks rest (.imported best)).exec t with
        | (.ok (imported, last), u) => (.ok (block.hash :: imported, last), u)
        | (.error e, u) => (.error e, u)
      | (.ok .exist, t) => (importBlocks rest .exist).exec t
      | (.ok .noParent, t) => (.ok ([], .noParent), t)
      | (.ok .invalid, t) => (.ok ([], .invalid), t)
      | (.error e, t) => (.error e, t) := by
  have hdef : { c with handed := block.hash :: c.handed } = c.withHanded block.hash := rfl
  rw [importBlocks]
  simp only [Step.exec_bind, Step.exec_modify, hdef]
  cases (importBlock block).exec (c.withHanded block.hash) with
  | mk outcome t =>
    cases outcome with
    | error e => rfl
    | ok o =>
      cases o with
      | imported best =>
        simp only [Step.exec_bind]
        cases (importBlocks rest (.imported best)).exec t with
        | mk outcome u => cases outcome <;> rfl
      | exist => rfl
      | noParent => rfl
      | invalid => rfl

/-- What holds of a chain whatever hashes were handed over, and after each attempt to link a block,
holds after a list of blocks is linked. -/
theorem importBlocks_induction {P : Chain → Prop}
    (handed : ∀ {c : Chain} (hash : Digest), P c → P (c.withHanded hash))
    (attempt : ∀ {c d : Chain} {block : Block} {r : Except Fault ImportOutcome}, P c →
      Attempt c block r d → P d) (blocks : List Block) :
    ∀ {last : ImportOutcome} {c : Chain}, P c → P ((importBlocks blocks last).exec c).2 := by
  induction blocks with
  | nil => exact fun hc ↦ hc
  | cons block rest ih =>
    intro last c hc
    rw [exec_importBlocks_cons]
    have ha := attempt_importBlock (c.withHanded block.hash) block
    cases hx : (importBlock block).exec (c.withHanded block.hash) with
    | mk r d =>
      rw [hx] at ha
      have hd : P d := attempt (handed block.hash hc) ha
      cases r with
      | error e => exact hd
      | ok o =>
        cases o with
        | noParent => exact hd
        | invalid => exact hd
        | exist => exact ih hd
        | imported best =>
          have hrest := @ih (.imported best) d hd
          dsimp only
          cases hy : (importBlocks rest (.imported best)).exec d with
          | mk answer e =>
            rw [hy] at hrest
            cases answer <;> exact hrest

/-- Linking a list leaves the error set for the next import and pruning alone. -/
theorem importBlocks_frame (blocks : List Block) (last : ImportOutcome) (c : Chain) :
    ((importBlocks blocks last).exec c).2.nextFailure = c.nextFailure ∧
      ((importBlocks blocks last).exec c).2.pruneFloor = c.pruneFloor :=
  importBlocks_induction (P := fun d ↦ d.nextFailure = c.nextFailure ∧ d.pruneFloor = c.pruneFloor)
    (fun _ h ↦ h) (fun h ha ↦ ⟨ha.frame.1.trans h.1, ha.frame.2.trans h.2⟩) blocks ⟨rfl, rfl⟩

/-- Linking a list of blocks below the last height ends without a fault, keeps the chain sound and
does not lower the best total difficulty. -/
theorem Sound.importBlocks {first : Block} (blocks : List Block) :
    ∀ {c : Chain} (last : ImportOutcome), Sound first c →
      (∀ b ∈ blocks, b.number.toNat + 1 < UInt64.size) →
      ∃ answer c', (Chain.importBlocks blocks last).exec c = (.ok answer, c') ∧
        Sound first c' ∧ c.totalDifficulty ≤ c'.totalDifficulty := by
  induction blocks with
  | nil =>
    intro c last hs _
    exact ⟨_, c, rfl, hs, BitVec.le_refl _⟩
  | cons block rest ih =>
    intro c last hs hroom
    have hrest : ∀ b ∈ rest, b.number.toNat + 1 < UInt64.size :=
      fun b hb ↦ hroom b (List.mem_cons_of_mem _ hb)
    rw [exec_importBlocks_cons]
    have ha := attempt_importBlock (c.withHanded block.hash) block
    cases hx : (importBlock block).exec (c.withHanded block.hash) with
    | mk r c₁ =>
      rw [hx] at ha
      dsimp only at ha
      obtain ⟨⟨o, rfl⟩, hs₁, hle⟩ :=
        (hs.withHanded block.hash).attempt (hroom block List.mem_cons_self) ha
      cases o with
      | imported best =>
        obtain ⟨⟨imported, o⟩, c₂, he, hs₂, hle₂⟩ := ih (.imported best) hs₁ hrest
        exact ⟨(block.hash :: imported, o), c₂, by simp only [he], hs₂,
          BitVec.le_trans hle hle₂⟩
      | exist =>
        obtain ⟨answer, c₂, he, hs₂, hle₂⟩ := ih .exist hs₁ hrest
        exact ⟨answer, c₂, he, hs₂, BitVec.le_trans hle hle₂⟩
      | noParent => exact ⟨_, c₁, rfl, hs₁, hle⟩
      | invalid => exact ⟨_, c₁, rfl, hs₁, hle⟩

/-- Linking a list is taking the error that is set, or linking its blocks. -/
theorem exec_connect (blocks : List Block) (c : Chain) :
    (connect blocks).exec c =
      match c.nextFailure with
      | some e => (.ok (.error e), c.takeFailure.2)
      | none =>
        match (importBlocks blocks .exist).exec c.takeFailure.2 with
        | (.ok (imported, outcome), t) =>
          (.ok (.ok { bestNumber := t.bestNumber, imported, outcome }), t)
        | (.error e, t) => (.error e, t) := by
  rw [connect]
  simp only [Step.exec_bind, Step.exec_update]
  change (match c.nextFailure with
    | some e => _
    | none => _ : Step Chain _).exec _ = _
  cases c.nextFailure with
  | some e => rfl
  | none =>
    simp only [Step.exec_bind]
    cases (importBlocks blocks .exist).exec c.takeFailure.2 with
    | mk outcome t => cases outcome <;> rfl

/-- Handing over a list of blocks below the last height ends without a fault, keeps the chain sound
and does not lower the best total difficulty. -/
theorem Sound.connect {first : Block} {c : Chain} (hs : Sound first c) {blocks : List Block}
    (hroom : ∀ b ∈ blocks, b.number.toNat + 1 < UInt64.size) :
    ∃ answer c', (Chain.connect blocks).exec c = (.ok answer, c') ∧ Sound first c' ∧
      c.totalDifficulty ≤ c'.totalDifficulty := by
  rw [exec_connect]
  cases c.nextFailure with
  | some e => exact ⟨_, _, rfl, hs.takeFailure, BitVec.le_refl _⟩
  | none =>
    obtain ⟨answer, c', he, hs', hle⟩ := hs.takeFailure.importBlocks blocks .exist hroom
    exact ⟨.ok { bestNumber := c'.bestNumber, imported := answer.1, outcome := answer.2 }, c',
      by simp only [he], hs', hle⟩

/-- The walk from the only block of a new chain puts its entry and ends. -/
theorem relink_single (first : Block) :
    relink ((∅ : BlockMap).insert first.hash first) (2 * 1) first.hash .empty =
      Canonical.empty.put first.number first.hash := by
  have hself : ((∅ : BlockMap).insert first.hash first)[first.hash]? = some first := by simp
  have hentry : (Canonical.empty.put first.number first.hash).byNumber[first.number]? =
      some first.hash := by
    rw [Canonical.byNumber_put, if_pos rfl]
  have hempty : Canonical.empty.byNumber[first.number]? ≠ some first.hash := by
    simp [Canonical.empty]
  rw [relink, hself]
  dsimp only
  rw [if_neg hempty]
  by_cases hz : first.number = 0
  · rw [if_pos hz]
  · -- The parent is not stored, or is the first block itself, whose entry is there by now.
    rw [if_neg hz, relink, getElem?_insert_block]
    by_cases hp : first.hash = first.parent
    · rw [if_pos hp, ← hp]
      dsimp only
      rw [if_pos hentry]
    · rw [if_neg hp]
      simp

/-- There is nothing to cut in the empty index. -/
theorem cutAbove_empty (n : UInt64) : Canonical.empty.cutAbove n = .empty := by
  have hnil : (∅ : Std.ExtTreeMap UInt64 Digest).toList = [] :=
    Std.ExtTreeMap.toList_eq_nil_iff.mpr rfl
  simp [Canonical.cutAbove, Canonical.above, Canonical.empty, hnil]

/-- The chain of a first block below the last height. -/
theorem exists_new {first : Block} (hroom : first.number.toNat + 1 < UInt64.size) :
    ∃ c, Chain.new first = .ok c ∧
      c.blocks = (∅ : BlockMap).insert first.hash first ∧
      c.totals = (∅ : Std.ExtTreeMap Digest Difficulty).insert first.hash first.header.difficulty ∧
      c.canonical = Canonical.empty.put first.number first.hash ∧ c.best = first.hash ∧
      c.pruneFloor = none ∧ c.nextFailure = none := by
  have hsize : ((∅ : BlockMap).insert first.hash first).size = 1 := by
    simp [Std.ExtTreeMap.size_insert]
  rw [Chain.new, setHead_of_block? (by simp [block?] : block? _ first.hash = some first) rfl,
    if_pos hroom]
  refine ⟨_, rfl, rfl, rfl, ?_, rfl, rfl, rfl⟩
  simp only [withHead]
  rw [hsize, cutAbove_empty, relink_single]

/-- There is a height above the first block of every chain. -/
theorem room_genesis : Block.genesis.number.toNat + 1 < UInt64.size :=
  (by decide : (0 : UInt64).toNat + 1 < UInt64.size)

/-- There is a height above the first block of a chain. -/
theorem room_new {first : Block} {c : Chain} (start : Chain.new first = .ok c) :
    first.number.toNat + 1 < UInt64.size := by
  rw [Chain.new, setHead_of_block? (by simp [block?] : block? _ first.hash = some first) rfl]
    at start
  split at start
  · next hroom => exact hroom
  · cases start

/-- The only block of a new chain is rooted. -/
theorem rooted_single (first : Block) : Rooted first ((∅ : BlockMap).insert first.hash first) := by
  have honly {h : Digest} {b : Block}
      (hb : ((∅ : BlockMap).insert first.hash first)[h]? = some b) :
      first.hash = h ∧ first = b := by
    rw [getElem?_insert_block] at hb
    split at hb
    · next he => exact ⟨he, Option.some.inj hb⟩
    · simp at hb
  refine ⟨?_, by simp, ?_⟩
  · intro h b hb
    obtain ⟨he, rfl⟩ := honly hb
    exact he
  · intro h b hb hf
    exact absurd (honly hb).1.symm hf

/-- The entry of the only block of a new chain is a closed index. -/
theorem closed_single (first : Block) :
    Closed first ((∅ : BlockMap).insert first.hash first)
      (Canonical.empty.put first.number first.hash) := by
  have honly {n : UInt64} {h : Digest}
      (hn : (Canonical.empty.put first.number first.hash).byNumber[n]? = some h) :
      first.number = n ∧ first.hash = h := by
    rw [Canonical.byNumber_put] at hn
    split at hn
    · next he => exact ⟨he, Option.some.inj hn⟩
    · simp [Canonical.empty] at hn
  refine ⟨Canonical.inverse_put Canonical.inverse_empty ?_, ?_, ?_, ?_⟩
  · intro m hm
    simp [Canonical.empty] at hm
  · intro n h hn
    obtain ⟨rfl, rfl⟩ := honly hn
    exact ⟨first, by simp, rfl⟩
  · intro n h b hn _ hf
    exact absurd (honly hn).2.symm hf
  · rw [Canonical.byNumber_put, if_pos rfl]

/-- A first block below the last height makes a sound chain, in which it is the best block. -/
theorem sound_new {first : Block} (hroom : first.number.toNat + 1 < UInt64.size) :
    ∃ c, Chain.new first = .ok c ∧ Sound first c := by
  obtain ⟨c, hnew, hblocks, htotals, hindex, hbest, -, -⟩ := exists_new hroom
  have honly {h : Digest} {b : Block} (hb : c.block? h = some b) : first.hash = h ∧ first = b := by
    rw [block?, hblocks, getElem?_insert_block] at hb
    split at hb
    · next he => exact ⟨he, Option.some.inj hb⟩
    · simp at hb
  have htotal (h : Digest) :
      c.totals[h]? = if first.hash = h then some first.header.difficulty else none := by
    simp [htotals, Std.ExtTreeMap.getElem?_insert]
  refine ⟨c, hnew, ?_, ?_, ?_, ?_, ?_, ?_, ?_, ?_⟩
  · rw [hblocks]
    exact rooted_single first
  · rw [htotal, if_pos rfl]
  · intro h b hb hf
    exact absurd (honly hb).1.symm hf
  · intro h t ht
    rw [htotal] at ht
    split at ht
    · cases ht
      rw [totalDifficulty, hbest, htotal, if_pos rfl]
      exact BitVec.le_refl _
    · cases ht
  · rw [hblocks, hindex]
    exact closed_single first
  · refine ⟨first, by simp [block?, hblocks, hbest], ?_, ?_⟩
    · rw [canonicalHash?, hindex, hbest, Canonical.byNumber_put, if_pos rfl]
    · intro n hn
      have hne : first.number ≠ n := by
        rintro rfl
        omega
      rw [canonicalHash?, hindex, Canonical.byNumber_put, if_neg hne]
      simp [Canonical.empty]
  · intro h b hb
    obtain ⟨-, rfl⟩ := honly hb
    simp [hblocks, Std.ExtTreeMap.size_insert]
  · intro h b hb
    obtain ⟨-, rfl⟩ := honly hb
    exact hroom

end Chain
end ChainSync
