import ChainSync.Proofs.Fast.Ledger

/-!
# Keys that the ledger does not lose

A trie ledger tracks a key when a node is imported under it or the key is still wanted. Imported
nodes stay, and a wanted key is dropped in two ways only: a node under it is imported, or it is the
state root of the pivot and the pivot gives way to another. So a ledger from which nothing is wanted
has imported the state root of the pivot and everything that was referred to since the pivots whose
roots it was gave way. Pivots are chosen from outside, and by the policy after every node that is
refused, which can be in the middle of an answer.
-/

namespace ChainSync

/-! ### The ledger of one trie -/

namespace TrieLedger

/-- A node is imported under the key, or the key is wanted. -/
def Tracks (l : TrieLedger) (key : Digest) : Prop := key ∈ l.imported ∨ key ∈ l.outstanding

/-- No key under which a node is imported is wanted. -/
def Separate (l : TrieLedger) : Prop := ∀ key ∈ l.outstanding, key ∉ l.imported

variable {l : TrieLedger} {key k : Digest} {value : Bytes}

theorem separate_empty : Separate empty := fun _ h ↦ absurd h Std.ExtTreeSet.not_mem_empty

theorem mem_want :
    k ∈ (l.want key).outstanding ↔ k ∈ l.outstanding ∨ key = k ∧ key ∉ l.imported := by
  unfold want
  by_cases hkey : key ∈ l.imported
  · rw [if_pos (Std.ExtTreeMap.contains_iff_mem.mpr hkey)]
    exact ⟨.inl, fun h ↦ h.elim id fun h ↦ absurd hkey h.2⟩
  · rw [if_neg (mt Std.ExtTreeMap.contains_iff_mem.mp hkey), Std.ExtTreeSet.mem_insert,
      Std.LawfulEqOrd.compare_eq_iff_eq, or_comm, and_iff_left hkey]

@[simp] theorem imported_want (l : TrieLedger) (key : Digest) :
    (l.want key).imported = l.imported := by
  unfold want
  split <;> rfl

@[simp] theorem imported_settle (l : TrieLedger) (key : Digest) :
    (l.settle key).imported = l.imported := rfl

theorem mem_imported_addImported :
    k ∈ (l.addImported key value).imported ↔ key = k ∨ k ∈ l.imported := by
  change k ∈ l.imported.insert key value ↔ _
  rw [Std.ExtTreeMap.mem_insert, Std.LawfulEqOrd.compare_eq_iff_eq]

theorem Separate.want (h : l.Separate) (key : Digest) : (l.want key).Separate := by
  intro k hk
  rw [imported_want]
  rcases mem_want.mp hk with hk | ⟨rfl, hnew⟩
  · exact h k hk
  · exact hnew

theorem Separate.settle (h : l.Separate) (key : Digest) : (l.settle key).Separate :=
  fun k hk ↦ h k (mem_settle.mp hk).2

/-- An imported node whose key is settled leaves the rest of the ledger as it was. -/
theorem Separate.receive (h : l.Separate) (key : Digest) (value : Bytes) :
    ((l.addImported key value).settle key).Separate := by
  intro k hk
  obtain ⟨hne, hk⟩ := mem_settle.mp hk
  rw [imported_settle, mem_imported_addImported]
  exact fun hmem ↦ hmem.elim hne (h k hk)

theorem Separate.wantAll (h : l.Separate) (keys : List Digest) :
    (keys.foldl TrieLedger.want l).Separate := by
  induction keys generalizing l with
  | nil => exact h
  | cons key rest ih => exact ih (h.want key)

theorem Tracks.want (h : l.Tracks k) (key : Digest) : (l.want key).Tracks k := by
  rcases h with h | h
  · exact .inl (by rwa [imported_want])
  · exact .inr (mem_want.mpr (.inl h))

theorem tracks_want (l : TrieLedger) (key : Digest) : (l.want key).Tracks key := by
  by_cases hkey : key ∈ l.imported
  · exact .inl (by rwa [imported_want])
  · exact .inr (mem_want.mpr (.inr ⟨rfl, hkey⟩))

theorem Tracks.settle (h : l.Tracks k) (key : Digest) : (l.settle key).Tracks k ∨ key = k := by
  rcases h with h | h
  · exact .inl (.inl h)
  · by_cases hk : key = k
    · exact .inr hk
    · exact .inl (.inr (mem_settle.mpr ⟨hk, h⟩))

/-- Settling the key of an imported node loses none. -/
theorem Tracks.settle_imported (h : l.Tracks k) (hkey : key ∈ l.imported) :
    (l.settle key).Tracks k := by
  rcases h.settle key with h | rfl
  · exact h
  · exact .inl hkey

theorem Tracks.addImported (h : l.Tracks k) (key : Digest) (value : Bytes) :
    (l.addImported key value).Tracks k :=
  h.imp (fun h ↦ mem_imported_addImported.mpr (.inr h)) id

theorem Tracks.wantAll (h : l.Tracks k) (keys : List Digest) :
    (keys.foldl TrieLedger.want l).Tracks k := by
  induction keys generalizing l with
  | nil => exact h
  | cons key rest ih => exact ih (h.want key)

theorem tracks_wantAll {keys : List Digest} (h : k ∈ keys) (l : TrieLedger) :
    (keys.foldl TrieLedger.want l).Tracks k := by
  induction keys generalizing l with
  | nil => cases h
  | cons key rest ih =>
    rcases List.mem_cons.mp h with rfl | h
    · exact (l.tracks_want k).wantAll rest
    · exact ih h _

/-- A ledger has received a node with these references: wanted keys are still apart from imported
ones, no key is lost, and the references are tracked. -/
structure Receives (l : TrieLedger) (references : List Digest) (m : TrieLedger) : Prop where
  /-- No key under which a node is imported is wanted, if that was so before. -/
  separate : l.Separate → m.Separate
  /-- No key is lost. -/
  tracks {k : Digest} : l.Tracks k → m.Tracks k
  /-- The references are tracked. -/
  referred {k : Digest} : k ∈ references → m.Tracks k

/-- A node that was imported before can be received again. -/
theorem receives_update (hkey : key ∈ l.imported) (references : List Digest) :
    l.Receives references (l.update key references) where
  separate h := (h.settle key).wantAll references
  tracks h := (h.settle_imported hkey).wantAll references
  referred h := tracks_wantAll h _

/-- A node that is recorded is received. -/
theorem receives_addImported (l : TrieLedger) (key : Digest) (value : Bytes)
    (references : List Digest) :
    l.Receives references ((l.addImported key value).update key references) where
  separate h := (h.receive key value).wantAll references
  tracks h := ((h.addImported key value).settle_imported
    (mem_imported_addImported.mpr (.inl rfl))).wantAll references
  referred h := tracks_wantAll h _

/-- When nothing is wanted, a node is imported under every key that is tracked. -/
theorem Tracks.mem_imported (h : l.Tracks key) {required : Bool}
    (complete : l.isComplete required = true) : key ∈ l.imported := by
  have hnone : l.outstanding = ∅ :=
    Std.ExtTreeSet.isEmpty_iff.mp (Bool.and_eq_true_iff.mp complete).1
  rcases h with h | h
  · exact h
  · rw [hnone] at h
    exact absurd h Std.ExtTreeSet.not_mem_empty

end TrieLedger

/-! ### Choosing pivots -/

namespace FastSync

/-- A node is imported under a key of a trie, or the key is wanted. -/
def Tracks (f : FastSync) (trie : Trie) (key : Digest) : Prop := (f.ledger.get trie).Tracks key

/-- No key under which a node is imported is wanted, and the state root of the pivot is tracked. -/
structure Mindful (f : FastSync) : Prop where
  /-- No key under which a node is imported is wanted. -/
  separate (trie : Trie) : (f.ledger.get trie).Separate
  /-- The state root of the pivot is tracked. -/
  root {pivot : Block} : f.pivot = some pivot → pivot.header.stateRoot ≠ .zero →
    f.Tracks .state pivot.header.stateRoot

variable {f : FastSync} {trie u : Trie} {key k : Digest}

theorem get_editLedger (f : FastSync) (trie u : Trie) (edit : TrieLedger → TrieLedger) :
    (f.editLedger trie edit).ledger.get u =
      if trie = u then edit (f.ledger.get u) else f.ledger.get u := by
  rw [editLedger, PerTrie.get_set]
  split
  · next h => rw [h]
  · rfl

theorem get_forgetPivot (f : FastSync) (u : Trie) :
    f.forgetPivot.ledger.get u = match f.pivot with
      | none => f.ledger.get u
      | some pivot => if Trie.state = u then (f.ledger.get u).settle pivot.header.stateRoot
          else f.ledger.get u := by
  unfold forgetPivot
  cases f.pivot with
  | none => rfl
  | some pivot => exact get_editLedger ..

theorem get_updatePivot (incomplete : f.blocksComplete = false) (block : Block) (u : Trie) :
    ((f.updatePivot block).2.ledger.get u) =
      if Trie.state = u ∧ block.header.stateRoot ≠ .zero then
        (f.forgetPivot.ledger.get u).want block.header.stateRoot
      else f.forgetPivot.ledger.get u := by
  rw [updatePivot, if_neg (by rw [incomplete]; exact Bool.false_ne_true)]
  by_cases hroot : block.header.stateRoot = .zero
  · simp [hroot]
  · simp only [hroot, if_false, get_editLedger, not_false_eq_true, ne_eq, and_true]

/-- An accepted pivot is the pivot. -/
theorem pivot_updatePivot (incomplete : f.blocksComplete = false) (block : Block) :
    (f.updatePivot block).2.pivot = some block := by
  rw [updatePivot, if_neg (by rw [incomplete]; exact Bool.false_ne_true)]
  by_cases hroot : block.header.stateRoot = .zero
  · simp [hroot]
  · simp [hroot, editLedger]

/-- A pivot that is refused changes nothing. -/
theorem updatePivot_of_complete (complete : f.blocksComplete = true) (block : Block) :
    (f.updatePivot block).2 = f := by
  rw [updatePivot, if_pos complete]

/-- Choosing a pivot loses the state root of the pivot before at most, and that only if it is zero
or the new pivot has another one. -/
theorem Tracks.updatePivot (h : f.Tracks u k) (block : Block) :
    (f.updatePivot block).2.Tracks u k ∨
      u = .state ∧ f.blocksComplete = false ∧
        (∃ pivot, f.pivot = some pivot ∧ pivot.header.stateRoot = k) ∧
        (k ≠ .zero → block.header.stateRoot ≠ k) := by
  cases hcomplete : f.blocksComplete with
  | true => exact .inl (by rwa [updatePivot_of_complete hcomplete])
  | false =>
    have hforget : f.forgetPivot.Tracks u k ∨
        u = .state ∧ ∃ pivot, f.pivot = some pivot ∧ pivot.header.stateRoot = k := by
      unfold Tracks
      rw [get_forgetPivot]
      cases f.pivot with
      | none => exact .inl h
      | some pivot =>
        dsimp only
        split
        · next hu =>
          exact (TrieLedger.Tracks.settle h _).imp id fun hk ↦ ⟨hu.symm, pivot, rfl, hk⟩
        · exact .inl h
    rcases hforget with hforget | ⟨hu, hpivot⟩
    · left
      unfold Tracks
      rw [get_updatePivot hcomplete]
      split
      · exact TrieLedger.Tracks.want hforget _
      · exact hforget
    · by_cases hagain : k ≠ .zero ∧ block.header.stateRoot = k
      · obtain ⟨hk, rfl⟩ := hagain
        left
        unfold Tracks
        rw [get_updatePivot hcomplete, if_pos ⟨hu.symm, hk⟩]
        exact TrieLedger.tracks_want ..
      · exact .inr ⟨hu, rfl, hpivot, fun hk hroot ↦ hagain ⟨hk, hroot⟩⟩

theorem Mindful.updatePivot (h : f.Mindful) (block : Block) :
    (f.updatePivot block).2.Mindful := by
  cases hcomplete : f.blocksComplete with
  | true => rwa [updatePivot_of_complete hcomplete]
  | false =>
    constructor
    · intro u
      have hforget : (f.forgetPivot.ledger.get u).Separate := by
        rw [get_forgetPivot]
        split
        · exact h.separate u
        · split
          · exact (h.separate u).settle _
          · exact h.separate u
      rw [get_updatePivot hcomplete]
      split
      · exact hforget.want _
      · exact hforget
    · intro pivot hpivot hroot
      rw [pivot_updatePivot hcomplete] at hpivot
      cases hpivot
      unfold Tracks
      rw [get_updatePivot hcomplete, if_pos ⟨rfl, hroot⟩]
      exact TrieLedger.tracks_want ..

/-- A failure is recorded, after another pivot was chosen or not. -/
theorem exists_handleFailure (f : FastSync) (key : Digest) (trie : Trie) (peer : PeerId)
    (name : String) (reason : FailureReason) :
    ∃ failure, f.handleFailure key trie peer name reason = f.recordFailure failure ∨
      ∃ pivot chosen, f.pivot = some pivot ∧ f.blocksComplete = false ∧
        chosen.hash ≠ pivot.hash ∧ f.handleFailure key trie peer name reason =
          (f.updatePivot chosen).2.recordFailure failure := by
  unfold handleFailure
  refine ⟨⟨key, trie, peer, name, reason, f.pivot.map Block.number⟩, ?_⟩
  cases hpivot : f.pivot with
  | none => exact .inl rfl
  | some pivot =>
    dsimp only
    split
    · exact .inl rfl
    · next hcomplete =>
      split
      · exact .inl rfl
      · next hother =>
        exact .inr ⟨pivot, _, rfl, Bool.eq_false_iff.mpr hcomplete, hother, rfl⟩

/-- Handling a failure loses the state root of the pivot before at most, and that only if another
pivot is chosen and the root is zero or that pivot has another one. -/
theorem Tracks.handleFailure (h : f.Tracks u k) (key : Digest) (trie : Trie) (peer : PeerId)
    (name : String) (reason : FailureReason) :
    let g := f.handleFailure key trie peer name reason
    g.Tracks u k ∨
      u = .state ∧ (∃ pivot, f.pivot = some pivot ∧ pivot.header.stateRoot = k ∧
          g.pivot ≠ some pivot) ∧
        (k ≠ .zero → ∀ next, g.pivot = some next → next.header.stateRoot ≠ k) := by
  obtain ⟨failure, hsame | ⟨pivot, chosen, hpivot, incomplete, hother, hmoved⟩⟩ :=
    f.exists_handleFailure key trie peer name reason
  · dsimp only
    rw [hsame]
    exact .inl h
  · have hchosen : (f.handleFailure key trie peer name reason).pivot = some chosen := by
      rw [hmoved]
      exact pivot_updatePivot incomplete chosen
    rcases h.updatePivot chosen with hkept | ⟨hu, -, ⟨replaced, hreplaced, hroot⟩, hnext⟩
    · left
      rw [hmoved]
      exact hkept
    · rw [hpivot] at hreplaced
      cases hreplaced
      refine .inr ⟨hu, ⟨pivot, hpivot, hroot, fun hstays ↦ ?_⟩, fun hk next hpivot' ↦ ?_⟩
      · rw [hchosen] at hstays
        cases hstays
        exact hother rfl
      · rw [hchosen] at hpivot'
        cases hpivot'
        exact hnext hk

theorem Mindful.handleFailure (h : f.Mindful) (key : Digest) (trie : Trie) (peer : PeerId)
    (name : String) (reason : FailureReason) :
    (f.handleFailure key trie peer name reason).Mindful := by
  obtain ⟨failure, hsame | ⟨pivot, chosen, -, -, -, hmoved⟩⟩ :=
    f.exists_handleFailure key trie peer name reason
  · rw [hsame]
    exact ⟨h.separate, h.root⟩
  · rw [hmoved]
    have hupdate := h.updatePivot chosen
    exact ⟨hupdate.separate, hupdate.root⟩

theorem Mindful.editLedger (h : f.Mindful) {edit : TrieLedger → TrieLedger}
    {references : List Digest}
    (receives : (f.ledger.get trie).Receives references (edit (f.ledger.get trie))) :
    (f.editLedger trie edit).Mindful := by
  constructor
  · intro u
    rw [get_editLedger]
    split
    · next hu => exact hu ▸ receives.separate (h.separate trie)
    · exact h.separate u
  · intro pivot hpivot hroot
    have hold := h.root hpivot hroot
    unfold Tracks
    rw [get_editLedger]
    split
    · next hu =>
      subst hu
      exact receives.tracks hold
    · exact hold

theorem Tracks.editLedger (h : f.Tracks u k) {edit : TrieLedger → TrieLedger}
    {references : List Digest}
    (receives : (f.ledger.get trie).Receives references (edit (f.ledger.get trie))) :
    (f.editLedger trie edit).Tracks u k := by
  unfold Tracks
  rw [get_editLedger]
  split
  · next hu =>
    subst hu
    exact receives.tracks h
  · exact h

end FastSync

/-! ### Moves -/

/-- What happens to the pivot and the ledgers of a seat, one node at a time. -/
inductive TrieMove where
  /-- A pivot is chosen. -/
  | choose (pivot : Block)
  /-- A node is offered, and its references are wanted if it is taken. -/
  | offer (peer : PeerId) (name : String) (trie : Trie) (key : Digest) (value : Bytes)
    (references : List Digest)
  /-- Whatever else happens leaves this seat, apart from the pivot and the ledgers. The policy may
  be another one from then on. -/
  | turn (seat : Seat)

/-- What happens to the pivot and the ledgers of a seat, one answer at a time. -/
inductive TrieCall where
  /-- A pivot is chosen. -/
  | choose (pivot : Block)
  /-- An answer is imported. -/
  | answer (job : TrieJob)
  /-- Whatever else happens leaves this seat, apart from the pivot and the ledgers. -/
  | turn (seat : Seat)

namespace Seat

def withFetch (s t : Seat) : Seat :=
  { s with
    engine :=
      { s.engine with
        fast :=
          { s.engine.fast with pivot := t.engine.fast.pivot, ledger := t.engine.fast.ledger } } }

/-- Imports a node and, if it is there then, wants its references. -/
def offerNode (peer : PeerId) (name : String) (trie : Trie) (key : Digest) (value : Bytes)
    (references : List Digest) (report : TrieReport) : Step Seat (Bool × TrieReport) := do
  let (present, report) ← importNode peer name key value trie report
  if present then
    onFast fun f ↦ f.editLedger trie fun l ↦ l.update key references
  return (present, report)

def move (s : Seat) : TrieMove → Seat
  | .choose pivot => (choosePivot pivot).leaves s
  | .offer peer name trie key value references =>
    (offerNode peer name trie key value references .zero).leaves s
  | .turn t => t.withFetch s

def call (s : Seat) : TrieCall → Seat
  | .choose pivot => (choosePivot pivot).leaves s
  | .answer job => (importTrie job).leaves s
  | .turn t => t.withFetch s

/-- A node that is offered is there afterwards: it was imported before, or the chain takes it. -/
def takesNode (s : Seat) (trie : Trie) (key : Digest) (value : Bytes) : Bool :=
  (s.engine.fast.ledger.get trie).containsExact key value ||
    match (s.node.chain.importTrieNode key value trie).1 with
    | .ok outcome => outcome.isSuccess
    | .error _ => false

/-- A pivot with this state root gives way: one is chosen and accepted, or the policy chooses
another one when a node is refused. Unless the root is zero, the next pivot has another one. -/
def GivesWay (s : Seat) (m : TrieMove) (root : Digest) : Prop :=
  (∃ pivot, s.engine.fast.pivot = some pivot ∧ pivot.header.stateRoot = root ∧
    match m with
    | .choose _ => s.engine.fast.blocksComplete = false
    | .offer .. => (s.move m).engine.fast.pivot ≠ some pivot
    | .turn _ => False) ∧
  (root ≠ .zero → ∀ next, (s.move m).engine.fast.pivot = some next →
    next.header.stateRoot ≠ root)

section

variable {s : Seat} {peer : PeerId} {name : String} {trie u : Trie} {key k : Digest} {value : Bytes}
  {references : List Digest}

theorem fast_withLedger (s : Seat) (trie : Trie) (edit : TrieLedger → TrieLedger) :
    (s.withLedger trie edit).engine.fast = s.engine.fast.editLedger trie edit := rfl

/-- A node that is there afterwards was imported before or is recorded, and any other one is handled
as a failure. -/
theorem exists_exec_importNode (s : Seat) (peer : PeerId) (name : String) (trie : Trie)
    (key : Digest) (value : Bytes) :
    ∃ t, (∀ report, ∃ report', (importNode peer name key value trie report).exec s =
        (.ok (s.takesNode trie key value, report'), t)) ∧
      (s.takesNode trie key value = true →
        t.engine.fast = s.engine.fast ∧ key ∈ (s.engine.fast.ledger.get trie).imported ∨
        t.engine.fast = s.engine.fast.editLedger trie fun l ↦ l.addImported key value) ∧
      (s.takesNode trie key value = false →
        ∃ reason, t.engine.fast = s.engine.fast.handleFailure key trie peer name reason) := by
  simp only [exec_importNode]
  unfold takesNode
  by_cases hexact : (s.engine.fast.ledger.get trie).containsExact key value = true
  · have hmem : key ∈ (s.engine.fast.ledger.get trie).imported := by
      rw [Std.ExtTreeMap.mem_iff_isSome_getElem?]
      rw [TrieLedger.containsExact, decide_eq_true_eq] at hexact
      rw [hexact]
      rfl
    rw [hexact]
    exact ⟨s, fun report ↦ ⟨_, rfl⟩, fun _ ↦ .inl ⟨rfl, hmem⟩, fun h ↦ by cases h⟩
  · rw [Bool.eq_false_iff.mpr hexact]
    cases s.node.chain.importTrieNode key value trie with
    | mk answer c =>
      cases answer with
      | error e => exact ⟨_, fun report ↦ ⟨_, rfl⟩, fun h ↦ (by cases h), fun _ ↦ ⟨_, rfl⟩⟩
      | ok outcome =>
        cases hsuccess : outcome.isSuccess with
        | true =>
          simp only [hsuccess, Bool.false_or, if_true, if_neg Bool.false_ne_true]
          exact ⟨_, fun report ↦ ⟨_, rfl⟩, fun _ ↦ .inr rfl, fun h ↦ by cases h⟩
        | false =>
          simp only [hsuccess, Bool.false_or, if_neg Bool.false_ne_true]
          exact ⟨_, fun report ↦ ⟨_, rfl⟩, fun h ↦ (by cases h), fun _ ↦ ⟨_, rfl⟩⟩

/-- A node that is offered leaves the seat after the move, whatever was reported before. -/
theorem exists_exec_offerNode (s : Seat) (peer : PeerId) (name : String) (trie : Trie)
    (key : Digest) (value : Bytes) (references : List Digest) (report : TrieReport) :
    ∃ report', (offerNode peer name trie key value references report).exec s =
      (.ok (s.takesNode trie key value, report'),
        s.move (.offer peer name trie key value references)) := by
  obtain ⟨t, hrun, -⟩ := s.exists_exec_importNode peer name trie key value
  obtain ⟨report', hreport⟩ := hrun report
  obtain ⟨zero', hzero⟩ := hrun .zero
  refine ⟨report', ?_⟩
  rw [move, Step.leaves, offerNode, offerNode, Step.exec_bind_of_ok hreport,
    Step.exec_bind_of_ok hzero]
  cases s.takesNode trie key value <;> rfl

/-- The state of fast synchronisation after a node was offered: it was received, or its failure was
handled. -/
theorem exists_fast_offer (s : Seat) (peer : PeerId) (name : String) (trie : Trie) (key : Digest)
    (value : Bytes) (references : List Digest) :
    let f := s.engine.fast
    let g := (s.move (.offer peer name trie key value references)).engine.fast
    (s.takesNode trie key value = true → ∃ edit, g = f.editLedger trie edit ∧
      (f.ledger.get trie).Receives references (edit (f.ledger.get trie))) ∧
    (s.takesNode trie key value = false →
      ∃ reason, g = f.handleFailure key trie peer name reason) := by
  obtain ⟨t, hrun, htaken, hrefused⟩ := s.exists_exec_importNode peer name trie key value
  obtain ⟨report', hzero⟩ := hrun .zero
  have hmove : s.move (.offer peer name trie key value references) =
      if s.takesNode trie key value then
        t.withLedger trie fun l ↦ l.update key references
      else t := by
    rw [move, Step.leaves, offerNode, Step.exec_bind_of_ok hzero]
    cases s.takesNode trie key value <;> rfl
  rw [hmove]
  refine ⟨fun htakes ↦ ?_, fun htakes ↦ ?_⟩
  · rw [if_pos htakes]
    rcases htaken htakes with ⟨hfast, hmem⟩ | hfast
    · refine ⟨fun l ↦ l.update key references, ?_, TrieLedger.receives_update hmem references⟩
      rw [fast_withLedger, hfast]
    · refine ⟨fun l ↦ (l.addImported key value).update key references, ?_,
        TrieLedger.receives_addImported _ key value references⟩
      rw [fast_withLedger, hfast]
      cases trie <;> rfl
  · rw [if_neg (by rw [htakes]; exact Bool.false_ne_true)]
    exact hrefused htakes

/-- Every move keeps the ledgers mindful. -/
theorem mindful_move (h : s.engine.fast.Mindful) (m : TrieMove) :
    (s.move m).engine.fast.Mindful := by
  cases m with
  | choose pivot => exact h.updatePivot pivot
  | offer peer name trie key value references =>
    obtain ⟨htaken, hrefused⟩ := s.exists_fast_offer peer name trie key value references
    cases htakes : s.takesNode trie key value with
    | true =>
      obtain ⟨edit, hedit, receives⟩ := htaken htakes
      rw [hedit]
      exact h.editLedger receives
    | false =>
      obtain ⟨reason, hfailure⟩ := hrefused htakes
      rw [hfailure]
      exact h.handleFailure ..
  | turn t => exact ⟨h.separate, h.root⟩

theorem tracks_move (h : s.engine.fast.Tracks u k) (m : TrieMove) :
    (s.move m).engine.fast.Tracks u k ∨ u = .state ∧ s.GivesWay m k := by
  cases m with
  | choose pivot =>
    rcases h.updatePivot pivot with hkept | ⟨hu, incomplete, ⟨replaced, hpivot, hroot⟩, hnext⟩
    · exact .inl hkept
    · refine .inr ⟨hu, ⟨replaced, hpivot, hroot, incomplete⟩, fun hk next hpivot' ↦ ?_⟩
      change (s.engine.fast.updatePivot pivot).2.pivot = some next at hpivot'
      rw [FastSync.pivot_updatePivot incomplete] at hpivot'
      cases hpivot'
      exact hnext hk
  | offer peer name trie key value references =>
    obtain ⟨htaken, hrefused⟩ := s.exists_fast_offer peer name trie key value references
    cases htakes : s.takesNode trie key value with
    | true =>
      obtain ⟨edit, hedit, receives⟩ := htaken htakes
      rw [hedit]
      exact .inl (h.editLedger receives)
    | false =>
      obtain ⟨reason, hfailure⟩ := hrefused htakes
      rcases h.handleFailure key trie peer name reason with hkept | ⟨hu, hpivot, hnext⟩
      · exact .inl (hfailure ▸ hkept)
      · exact .inr ⟨hu, hfailure ▸ hpivot, hfailure ▸ hnext⟩
  | turn t => exact .inl h

theorem tracks_offer (taken : s.takesNode trie key value = true) (hk : k ∈ references) :
    (s.move (.offer peer name trie key value references)).engine.fast.Tracks trie k := by
  obtain ⟨edit, hedit, receives⟩ :=
    (s.exists_fast_offer peer name trie key value references).1 taken
  rw [hedit, FastSync.Tracks, FastSync.get_editLedger, if_pos rfl]
  exact receives.referred hk

end

/-! ### Answers as moves -/

/-- The moves of what came with references, each in its turn. -/
def referenceMoves (peer : PeerId) (name : String) (trie : Trie)
    (references : List (Digest × Bytes)) : List TrieMove :=
  (references.filter fun entry ↦ !entry.2.isEmpty).map fun entry ↦
    .offer peer name trie entry.1 entry.2 []

def movesOf (s : Seat) : TrieCall → List TrieMove
  | .choose pivot => [.choose pivot]
  | .answer ⟨peer, name, r⟩ =>
    .offer peer name r.trie r.key r.value (r.references.map Prod.fst) ::
      if s.takesNode r.trie r.key r.value then referenceMoves peer name r.trie r.references else []
  | .turn t => [.turn t]

def unfolded : Seat → List TrieCall → List TrieMove
  | _, [] => []
  | s, first :: rest => s.movesOf first ++ (s.call first).unfolded rest

/-- What came with references is imported move by move. -/
theorem exists_exec_importReferences (peer : PeerId) (name : String) (trie : Trie)
    (references : List (Digest × Bytes)) (report : TrieReport) (s : Seat) :
    ∃ report', (importReferences peer name trie references report).exec s =
      (.ok report', (referenceMoves peer name trie references).foldl move s) := by
  induction references generalizing report s with
  | nil => exact ⟨report, rfl⟩
  | cons entry rest ih =>
    obtain ⟨key, value⟩ := entry
    rw [importReferences, referenceMoves, List.filter_cons]
    cases hempty : value.isEmpty with
    | true => exact ih report s
    | false =>
      obtain ⟨between, hnode⟩ := s.exists_exec_offerNode peer name trie key value [] report
      obtain ⟨report', hrest⟩ := ih between (s.move (.offer peer name trie key value []))
      have hsplit : (importNode peer name key value trie report >>= fun answer ↦ do
            if answer.1 then
              onFast fun f ↦ f.editLedger trie fun l ↦ l.settle key
            importReferences peer name trie rest answer.2) =
          offerNode peer name trie key value [] report >>= fun answer ↦
            importReferences peer name trie rest answer.2 := by
        rw [offerNode, bind_assoc]
        congr 1
        funext answer
        obtain ⟨present, between⟩ := answer
        cases present <;> rfl
      refine ⟨report', ?_⟩
      rw [if_neg Bool.false_ne_true, if_pos Bool.not_false, List.map_cons, List.foldl_cons]
      exact (congrArg (fun step ↦ step.exec s) hsplit).trans
        ((Step.exec_bind_of_ok hnode _).trans hrest)

/-- A call is its moves. -/
theorem foldl_movesOf (s : Seat) (c : TrieCall) : (s.movesOf c).foldl move s = s.call c := by
  cases c with
  | choose pivot => rfl
  | turn t => rfl
  | answer job =>
    obtain ⟨peer, name, r⟩ := job
    obtain ⟨between, hnode⟩ := s.exists_exec_offerNode peer name r.trie r.key r.value
      (r.references.map Prod.fst) .zero
    have hsplit : importTrie ⟨peer, name, r⟩ =
        offerNode peer name r.trie r.key r.value (r.references.map Prod.fst) .zero >>=
          fun answer ↦ if answer.1 then
            importReferences peer name r.trie r.references answer.2 else pure answer.2 := by
      rw [importTrie, offerNode, bind_assoc]
      congr 1
      funext answer
      obtain ⟨present, between⟩ := answer
      cases present <;> rfl
    rw [call, hsplit, Step.leaves, Step.exec_bind_of_ok hnode, movesOf, List.foldl_cons]
    cases s.takesNode r.trie r.key r.value with
    | false => rfl
    | true =>
      obtain ⟨report', hrest⟩ := exists_exec_importReferences peer name r.trie r.references between
        (s.move (.offer peer name r.trie r.key r.value (r.references.map Prod.fst)))
      rw [if_pos rfl, if_pos rfl, hrest]

/-- Calls in turn are their moves in turn. -/
theorem foldl_unfolded (calls : List TrieCall) (s : Seat) :
    (s.unfolded calls).foldl move s = calls.foldl call s := by
  induction calls generalizing s with
  | nil => rfl
  | cons first rest ih =>
    rw [unfolded, List.foldl_append, foldl_movesOf, ih, List.foldl_cons]

/-! ### Runs -/

def fetched (s : Seat) (moves : List TrieMove) (count : Nat) : Seat :=
  (moves.take count).foldl move s

section

variable {s : Seat} {moves : List TrieMove} {trie : Trie} {key : Digest}

theorem fetched_succ (s : Seat) (moves : List TrieMove) (n : Nat) :
    s.fetched moves (n + 1) = moves[n]?.elim (s.fetched moves n) (s.fetched moves n).move := by
  cases hmove : moves[n]? with
  | none => exact foldl_take_succ_of_none hmove _ s
  | some m => exact foldl_take_succ hmove _ s

/-- Every run keeps the ledgers mindful. -/
theorem mindful_fetched (h : s.engine.fast.Mindful) (moves : List TrieMove) (n : Nat) :
    (s.fetched moves n).engine.fast.Mindful := by
  induction n with
  | zero => exact h
  | succ n ih =>
    rw [fetched_succ]
    cases moves[n]? with
    | none => exact ih
    | some m => exact mindful_move ih m

theorem tracks_fetched {i n : Nat} (hle : i ≤ n)
    (h : (s.fetched moves i).engine.fast.Tracks trie key) :
    (s.fetched moves n).engine.fast.Tracks trie key ∨
      trie = .state ∧ ∃ j m, i ≤ j ∧ j < n ∧ moves[j]? = some m ∧
        (s.fetched moves j).GivesWay m key := by
  induction hle with
  | refl => exact .inl h
  | @step n hle ih =>
    rcases ih with htracks | ⟨htrie, j, m, hi, hn, hm, hgives⟩
    · rw [fetched_succ]
      cases hm : moves[n]? with
      | none => exact .inl htracks
      | some m =>
        refine (tracks_move htracks m).imp id fun ⟨htrie, hgives⟩ ↦ ?_
        exact ⟨htrie, n, m, hle, Nat.lt_succ_self n, hm, hgives⟩
    · exact .inr ⟨htrie, j, m, hi, Nat.lt_succ_of_lt hn, hm, hgives⟩

end

/-- Where no pivot was chosen and the ledgers are empty, they are mindful. -/
theorem mindful_of_empty {f : FastSync} (unchosen : f.pivot = none)
    (empty : f.ledger = .replicate .empty) : f.Mindful where
  separate trie := by
    rw [empty, PerTrie.get_replicate]
    exact TrieLedger.separate_empty
  root hpivot := by
    rw [unchosen] at hpivot
    cases hpivot

/-- Pivots are chosen and answers imported in any order, from when no pivot was chosen and nothing
was wanted, and the policy may choose other pivots after each node that is refused. Then after
every move no key of a trie is both wanted and imported, and the state root of the pivot, unless it
is zero, is wanted or imported. Every key that a node referred to which was taken is wanted or
imported, unless it belongs to the state and is the root of a pivot that gave way since. So when
nothing of the state is wanted, the state root of the pivot is imported. -/
theorem fetched_tracks_roots {s : Seat} (unchosen : s.engine.fast.pivot = none)
    (empty : s.engine.fast.ledger = .replicate .empty) (calls : List TrieCall) :
    let moves := s.unfolded calls
    moves.foldl move s = calls.foldl call s ∧
    ∀ n, let f := (s.fetched moves n).engine.fast
      (∀ trie key, key ∈ (f.ledger.get trie).outstanding →
        key ∉ (f.ledger.get trie).imported) ∧
      (∀ pivot, f.pivot = some pivot → pivot.header.stateRoot ≠ .zero →
        f.Tracks .state pivot.header.stateRoot) ∧
      (∀ i < n, ∀ peer name trie key value references,
        moves[i]? = some (.offer peer name trie key value references) →
        (s.fetched moves i).takesNode trie key value = true →
        ∀ reference ∈ references, f.Tracks trie reference ∨
          trie = .state ∧ ∃ j m, i < j ∧ j < n ∧ moves[j]? = some m ∧
            (s.fetched moves j).GivesWay m reference) ∧
      ∀ pivot, f.pivot = some pivot → pivot.header.stateRoot ≠ .zero →
        (f.ledger.get .state).isComplete true = true →
        pivot.header.stateRoot ∈ (f.ledger.get .state).imported := by
  dsimp only
  refine ⟨foldl_unfolded calls s, fun n ↦ ?_⟩
  have mindful := mindful_fetched (mindful_of_empty unchosen empty) (s.unfolded calls) n
  refine ⟨fun trie key ↦ mindful.separate trie key, fun pivot ↦ mindful.root, ?_,
    fun pivot hpivot hroot complete ↦ ?_⟩
  · intro i hi peer name trie key value references hoffer taken reference href
    have hafter : (s.fetched (s.unfolded calls) (i + 1)).engine.fast.Tracks trie reference := by
      rw [fetched_succ, hoffer]
      exact tracks_offer taken href
    exact tracks_fetched hi hafter
  · exact TrieLedger.Tracks.mem_imported (mindful.root hpivot hroot) complete

/-- A pivot with this byte as the only node of its state. -/
def pivotOf (byte : UInt8) : Block := .make 1 .zero 1 0 [] (keccak256 [byte])

/-- The seat of a new engine over the first block, with a policy that turns to one pivot. -/
def turning (c : Chain) (pivot : Block) : Seat :=
  { genesisSeat c with
    engine :=
      { (genesisSeat c).engine with
        fast := { (genesisSeat c).engine.fast with policy := .always pivot } } }

/-- A pivot is chosen, the root of its state comes with a wrong value for its reference, and then
the reference comes, and the state root of the pivot that the policy turns to. -/
def turningCalls : List TrieCall :=
  [.choose (pivotOf 1),
    .answer ⟨.ofNat 3, "three", ⟨keccak256 [1], [1], [(keccak256 [2], [9])], .state⟩⟩,
    .answer ⟨.ofNat 3, "three", ⟨keccak256 [2], [2], [], .state⟩⟩,
    .answer ⟨.ofNat 3, "three", ⟨keccak256 [3], [3], [], .state⟩⟩]

/-- The policy turns to another pivot in the middle of an answer, and in the end nothing is wanted
and the state root of that pivot is imported. -/
theorem exists_fetched_after_turning :
    ∃ c, Chain.new .genesis = .ok c ∧
      let s := turning c (pivotOf 3)
      let t := turningCalls.foldl call s
      s.engine.fast.pivot = none ∧ s.engine.fast.ledger = .replicate .empty ∧
      t.engine.fast.pivot = some (pivotOf 3) ∧
      (t.engine.fast.ledger.get .state).isComplete true = true ∧
      (pivotOf 3).header.stateRoot ∈ (t.engine.fast.ledger.get .state).imported := by
  obtain ⟨c, hnew, hrun⟩ := exists_genesis_of_any (fun c ↦
    let t := turningCalls.foldl call (turning c (pivotOf 3))
    decide (t.engine.fast.pivot = some (pivotOf 3) ∧
      (t.engine.fast.ledger.get .state).isComplete true = true)) (by decide +kernel)
  obtain ⟨hpivot, hcomplete⟩ := of_decide_eq_true hrun
  obtain ⟨hunfold, hall⟩ := fetched_tracks_roots (s := turning c (pivotOf 3)) rfl rfl turningCalls
  have hend := hall (unfolded (turning c (pivotOf 3)) turningCalls).length
  rw [fetched, List.take_length, hunfold] at hend
  have hroot : (pivotOf 3).header.stateRoot ≠ .zero := by decide +kernel
  exact ⟨c, hnew, rfl, rfl, hpivot, hcomplete, hend.2.2.2 _ hpivot hroot hcomplete⟩

end Seat
end ChainSync
