import ChainSync.Proofs.Import.Overflow
import ChainSync.Task.Job
import Mathlib.Data.List.Forall2

/-!
# What a set of answers leaves in the ledger

A node counts when its value is not empty and its key is the digest of the value. An answer whose
own node counts delivers that node and those that came with its references, and it wants every key
that it refers to. As long as no two values have the same digest, each step adds to the delivered
nodes and to the wanted keys, and the ledger holds exactly the delivered nodes and the keys wanted
but not delivered. Main statement: a set of answers and one choice of a pivot lead to one ledger,
in whatever order they come.
-/

namespace ChainSync

/-! ### What an answer brings -/

namespace TrieResponse

/-- The value is not empty, and the key is its digest. -/
def isGenuine (key : Digest) (value : Bytes) : Bool := !value.isEmpty && keccak256 value = key

/-- The nodes that an answer delivers: none unless its own node is genuine, and then that node and
the genuine ones that came with its references. -/
def delivered (r : TrieResponse) : List (Digest × Bytes) :=
  if isGenuine r.key r.value then
    (r.key, r.value) :: r.references.filter fun entry ↦ isGenuine entry.1 entry.2
  else []

/-- The keys that an answer refers to, if its own node is genuine. -/
def referred (r : TrieResponse) : List Digest :=
  if isGenuine r.key r.value then r.references.map Prod.fst else []

def payloads (r : TrieResponse) : List Bytes := r.value :: r.references.map Prod.snd

/-- The same answer with its references in another order. -/
structure Alike (r q : TrieResponse) : Prop where
  /-- The node has the same key. -/
  key : q.key = r.key
  /-- It has the same value. -/
  value : q.value = r.value
  /-- It belongs to the same trie. -/
  trie : q.trie = r.trie
  /-- It refers to the same nodes. -/
  references : r.references.Perm q.references

theorem isGenuine_iff {key : Digest} {value : Bytes} :
    isGenuine key value = true ↔ value ≠ [] ∧ keccak256 value = key := by
  simp [isGenuine]

end TrieResponse

/-- One of the answers delivers this node of a trie. -/
def Delivers (responses : List TrieResponse) (trie : Trie) (key : Digest) (value : Bytes) : Prop :=
  ∃ r ∈ responses, r.trie = trie ∧ (key, value) ∈ r.delivered

/-- One of the answers refers to this key of a trie. -/
def Refers (responses : List TrieResponse) (trie : Trie) (key : Digest) : Prop :=
  ∃ r ∈ responses, r.trie = trie ∧ key ∈ r.referred

/-- The key is the state root of a pivot, which asks for it. -/
def Block.AsksFor (pivot : Block) (trie : Trie) (key : Digest) : Prop :=
  trie = .state ∧ pivot.header.stateRoot = key ∧ key ≠ .zero

/-- No two different values have the same digest. -/
def DistinctDigests (values : List Bytes) : Prop :=
  ∀ v ∈ values, ∀ w ∈ values, keccak256 v = keccak256 w → v = w

/-- The answers of these jobs are those of the list, in any order and each with its references in
any order. -/
def Arranged (responses : List TrieResponse) (jobs : List TrieJob) : Prop :=
  ∃ order, responses.Perm order ∧
    List.Forall₂ TrieResponse.Alike order (jobs.map TrieJob.response)

namespace TrieResponse.Alike

variable {r q : TrieResponse}

theorem mem_delivered (h : r.Alike q) {node : Digest × Bytes} :
    node ∈ q.delivered ↔ node ∈ r.delivered := by
  simp only [delivered, h.key, h.value]
  split <;> simp [h.references.mem_iff]

theorem mem_referred (h : r.Alike q) {key : Digest} : key ∈ q.referred ↔ key ∈ r.referred := by
  simp only [referred, h.key, h.value]
  split <;> simp [h.references.mem_iff]

theorem mem_payloads (h : r.Alike q) {value : Bytes} : value ∈ q.payloads ↔ value ∈ r.payloads := by
  simp [payloads, h.value, h.references.mem_iff]

end TrieResponse.Alike

namespace Arranged

variable {responses : List TrieResponse} {jobs : List TrieJob}

theorem refl (responses : List TrieResponse) (peer : PeerId) (name : String) :
    Arranged responses (responses.map fun r ↦ ⟨peer, name, r⟩) := by
  refine ⟨responses, .refl _, ?_⟩
  rw [List.map_map]
  induction responses with
  | nil => exact .nil
  | cons r rest ih => exact .cons ⟨rfl, rfl, rfl, .refl _⟩ ih

/-- What does not depend on the order of references holds of some answer in every arrangement. -/
theorem exists_iff (h : Arranged responses jobs) {P : TrieResponse → Prop}
    (hP : ∀ {r q}, TrieResponse.Alike r q → (P q ↔ P r)) :
    (∃ q ∈ jobs.map TrieJob.response, P q) ↔ ∃ r ∈ responses, P r := by
  obtain ⟨order, hperm, halike⟩ := h
  have horder : (∃ r ∈ responses, P r) ↔ ∃ r ∈ order, P r := by simp [hperm.mem_iff]
  rw [horder]
  clear horder hperm
  generalize jobs.map TrieJob.response = answers at halike
  induction halike with
  | nil => exact .rfl
  | cons hr _ ih => simp [hP hr, ih]

theorem delivers_iff (h : Arranged responses jobs) {trie : Trie} {key : Digest} {value : Bytes} :
    Delivers (jobs.map TrieJob.response) trie key value ↔ Delivers responses trie key value :=
  h.exists_iff fun hr ↦ by rw [hr.trie, hr.mem_delivered]

theorem refers_iff (h : Arranged responses jobs) {trie : Trie} {key : Digest} :
    Refers (jobs.map TrieJob.response) trie key ↔ Refers responses trie key :=
  h.exists_iff fun hr ↦ by rw [hr.trie, hr.mem_referred]

theorem mem_payloads (h : Arranged responses jobs) :
    ∀ job ∈ jobs, ∀ v ∈ job.response.payloads, v ∈ responses.flatMap TrieResponse.payloads := by
  intro job hjob v hv
  rw [List.mem_flatMap]
  refine (h.exists_iff fun hr ↦ hr.mem_payloads).mp ⟨job.response, ?_, hv⟩
  exact List.mem_map_of_mem hjob

end Arranged

/-- The values of all tries determine the record of them. -/
theorem PerTrie.ext_get {α : Type} {p q : PerTrie α} (h : ∀ trie, p.get trie = q.get trie) :
    p = q := by
  cases p
  cases q
  simp only [mk.injEq]
  exact ⟨h .state, h .storage, h .details⟩

/-! ### The ledger of one trie -/

namespace TrieLedger

/-- The ledger holds these nodes, and wants these keys as far as their nodes are not among them. -/
structure Tallies (nodes : Digest → Bytes → Prop) (wants : Digest → Prop) (l : TrieLedger) :
    Prop where
  /-- The imported nodes are these. -/
  imported {key : Digest} {value : Bytes} : l.imported[key]? = some value ↔ nodes key value
  /-- The keys wanted are these without those of imported nodes. -/
  outstanding {key : Digest} : key ∈ l.outstanding ↔ wants key ∧ ∀ value, ¬ nodes key value
  /-- Every imported node was counted once. -/
  counted : l.importedCount = l.imported.size

variable {nodes : Digest → Bytes → Prop} {wants : Digest → Prop} {l m : TrieLedger}
  {key : Digest} {value : Bytes}

theorem mem_settle {k : Digest} : k ∈ (l.settle key).outstanding ↔ key ≠ k ∧ k ∈ l.outstanding := by
  simp [settle]

namespace Tallies

theorem initial : TrieLedger.empty.Tallies (fun _ _ ↦ False) fun _ ↦ False := by
  refine ⟨?_, ?_, ?_⟩ <;> simp [TrieLedger.empty]

theorem congr (h : l.Tallies nodes wants) {nodes' : Digest → Bytes → Prop}
    {wants' : Digest → Prop} (hn : ∀ k v, nodes' k v ↔ nodes k v) (hw : ∀ k, wants' k ↔ wants k) :
    l.Tallies nodes' wants' := by
  refine ⟨?_, ?_, h.counted⟩
  · intro k v
    rw [h.imported, hn]
  · intro k
    simp only [h.outstanding, hn, hw]

theorem unique (hl : l.Tallies nodes wants) (hm : m.Tallies nodes wants) : l = m := by
  have himported : l.imported = m.imported := by
    apply Std.ExtTreeMap.ext_getElem?
    intro k
    apply Option.ext
    intro v
    rw [hl.imported, hm.imported]
  have houtstanding : l.outstanding = m.outstanding := by
    apply Std.ExtTreeSet.ext_mem
    intro k
    rw [hl.outstanding, hm.outstanding]
  have hcount : l.importedCount = m.importedCount := by
    rw [hl.counted, hm.counted, himported]
  cases l
  cases m
  simp_all

theorem settle (h : l.Tallies nodes wants) (present : nodes key value) :
    (l.settle key).Tallies nodes wants := by
  refine ⟨h.imported, ?_, h.counted⟩
  intro k
  rw [mem_settle, h.outstanding]
  constructor
  · exact And.right
  · refine fun hk ↦ ⟨?_, hk⟩
    rintro rfl
    exact hk.2 _ present

/-- A node that is recorded and settled is one more. -/
theorem receive (h : l.Tallies nodes wants) (agrees : ∀ v, nodes key v → v = value) :
    ((l.addImported key value).settle key).Tallies
      (fun k v ↦ nodes k v ∨ key = k ∧ value = v) wants := by
  refine ⟨?_, ?_, ?_⟩
  · intro k v
    change (l.imported.insert key value)[k]? = some v ↔ _
    rw [Std.ExtTreeMap.getElem?_insert]
    by_cases hk : key = k
    · subst hk
      simp only [Std.ReflOrd.compare_self, if_true, Option.some.injEq, true_and]
      exact ⟨.inr, fun h ↦ h.elim (fun hv ↦ (agrees v hv).symm) id⟩
    · rw [if_neg (by simpa using hk), h.imported]
      simp [hk]
  · intro k
    rw [mem_settle]
    change key ≠ k ∧ k ∈ l.outstanding ↔ _
    rw [h.outstanding]
    constructor
    · rintro ⟨hne, hw, hn⟩
      exact ⟨hw, fun v hv ↦ hv.elim (hn v) fun hv ↦ hne hv.1⟩
    · rintro ⟨hw, hn⟩
      exact ⟨fun he ↦ hn value (.inr ⟨he, rfl⟩), hw, fun v hv ↦ hn v (.inl hv)⟩
  · change (if l.imported.contains key then _ else _) = (l.imported.insert key value).size
    rw [Std.ExtTreeMap.size_insert, h.counted]

theorem want (h : l.Tallies nodes wants) :
    (l.want key).Tallies nodes fun k ↦ wants k ∨ key = k := by
  have himported : key ∈ l.imported ↔ ∃ v, nodes key v := by
    simp only [Std.ExtTreeMap.mem_iff_isSome_getElem?, Option.isSome_iff_exists, h.imported]
  by_cases hk : key ∈ l.imported
  · have hsame : l.want key = l := if_pos (Std.ExtTreeMap.contains_iff_mem.mpr hk)
    rw [hsame]
    refine ⟨h.imported, ?_, h.counted⟩
    intro k
    rw [h.outstanding]
    constructor
    · exact fun hw ↦ ⟨.inl hw.1, hw.2⟩
    · rintro ⟨hw | rfl, hn⟩
      · exact ⟨hw, hn⟩
      · obtain ⟨v, hv⟩ := himported.mp hk
        exact absurd hv (hn v)
  · have hsame : l.want key = { l with outstanding := l.outstanding.insert key } :=
      if_neg (by simpa using hk)
    rw [hsame]
    refine ⟨h.imported, ?_, h.counted⟩
    intro k
    rw [Std.ExtTreeSet.mem_insert, h.outstanding, Std.LawfulEqOrd.compare_eq_iff_eq]
    constructor
    · rintro (rfl | hw)
      · exact ⟨.inr rfl, fun v hv ↦ hk (himported.mpr ⟨v, hv⟩)⟩
      · exact ⟨.inl hw.1, hw.2⟩
    · rintro ⟨hw | he, hn⟩
      · exact .inr ⟨hw, hn⟩
      · exact .inl he

theorem wantAll (keys : List Digest) :
    ∀ {wants : Digest → Prop} {l : TrieLedger}, l.Tallies nodes wants →
      (keys.foldl TrieLedger.want l).Tallies nodes fun k ↦ wants k ∨ k ∈ keys := by
  induction keys with
  | nil => exact fun h ↦ h.congr (fun _ _ ↦ .rfl) (by simp)
  | cons key rest ih =>
    intro wants l h
    refine (ih h.want).congr (fun _ _ ↦ .rfl) ?_
    intro k
    simp [or_assoc, eq_comm]

/-- Nothing is left to fetch exactly when every key wanted was delivered, and a node was delivered
if one is required. -/
theorem isComplete_iff (h : l.Tallies nodes wants) (required : Bool) :
    l.isComplete required = true ↔ (∀ k, wants k → ∃ v, nodes k v) ∧
      (required = true → ∃ k v, nodes k v) := by
  have hnone : l.outstanding.isEmpty = true ↔ ∀ k, wants k → ∃ v, nodes k v := by
    rw [Std.ExtTreeSet.isEmpty_iff, Std.ExtTreeSet.eq_empty_iff_forall_not_mem]
    simp [h.outstanding]
  have hsome : 0 < l.importedCount ↔ ∃ k v, nodes k v := by
    rw [h.counted, Nat.pos_iff_ne_zero, ne_eq, ← Std.ExtTreeMap.eq_empty_iff_size_eq_zero,
      Std.ExtTreeMap.eq_empty_iff_forall_not_mem]
    simp only [Std.ExtTreeMap.mem_iff_isSome_getElem?, Option.isSome_iff_exists, h.imported,
      not_forall, not_not]
  cases required <;> simp [isComplete, hnone, hsome]

end Tallies
end TrieLedger

/-! ### Answers at a seat -/

namespace Chain

variable {c : Chain} {key : Digest} {value : Bytes}

def withTrieNode (c : Chain) (trie : Trie) (key : Digest) (value : Bytes) : Chain :=
  { c with trieNodes := c.trieNodes.set ((c.trieNodes.get trie).insert key value) trie }

/-- Without a set error a node that does not count is refused. -/
theorem importTrieNode_of_not_genuine (calm : c.nextTrieFailure = none)
    (h : TrieResponse.isGenuine key value = false) (trie : Trie) :
    ∃ outcome : TrieNodeOutcome, outcome.isSuccess = false ∧
      c.importTrieNode key value trie = (.ok outcome, c) := by
  unfold importTrieNode
  rw [calm]
  by_cases hempty : value.isEmpty = true
  · exact ⟨.invalidValue, rfl, if_pos hempty⟩
  · have hkey : keccak256 value ≠ key := by
      intro hkey
      simp [TrieResponse.isGenuine, hempty, hkey] at h
    exact ⟨.invalidKey, rfl, by simp only [if_neg hempty, if_pos hkey]⟩

/-- Without a set error a node that counts is stored unless there is one under its key. -/
theorem importTrieNode_of_genuine (calm : c.nextTrieFailure = none)
    (h : TrieResponse.isGenuine key value = true) {trie : Trie}
    (hnew : (c.trieNodes.get trie)[key]? = none) :
    c.importTrieNode key value trie = (.ok .imported, c.withTrieNode trie key value) := by
  obtain ⟨hvalue, hkey⟩ := TrieResponse.isGenuine_iff.mp h
  have hempty : ¬ value.isEmpty = true := by simpa using hvalue
  unfold importTrieNode
  simp only [calm, if_neg hempty, hkey, ne_eq, not_true_eq_false, if_false, hnew, withTrieNode]

end Chain

namespace Seat

def withLedger (s : Seat) (trie : Trie) (edit : TrieLedger → TrieLedger) : Seat :=
  { s with engine := { s.engine with fast := s.engine.fast.editLedger trie edit } }

def withFailure (s : Seat) (key : Digest) (trie : Trie) (peer : PeerId) (name : String)
    (reason : FailureReason) : Seat :=
  { s with engine :=
    { s.engine with fast := s.engine.fast.handleFailure key trie peer name reason } }

/-- Two edits of the ledger of a trie are one. -/
theorem withLedger_withLedger (s : Seat) (trie : Trie) (f g : TrieLedger → TrieLedger) :
    (s.withLedger trie f).withLedger trie g = s.withLedger trie fun l ↦ g (f l) := by
  cases trie <;> rfl

/-- Importing a node passes it over, stores it, or handles its failure. -/
theorem exec_importNode (peer : PeerId) (name : String) (key : Digest) (value : Bytes)
    (trie : Trie) (report : TrieReport) (s : Seat) :
    (importNode peer name key value trie report).exec s =
      if (s.engine.fast.ledger.get trie).containsExact key value then
        (.ok (true, { report with skipped := report.skipped + 1 }), s)
      else match s.node.chain.importTrieNode key value trie with
        | (.ok outcome, c) =>
          if outcome.isSuccess then
            (.ok (true, { report with imported := report.imported + 1 }),
              (s.withChain c).withLedger trie fun l ↦ l.addImported key value)
          else (.ok (false, { report with failed := report.failed + 1 }),
            (s.withChain c).withFailure key trie peer name (.rejected outcome))
        | (.error e, c) => (.ok (false, { report with failed := report.failed + 1 }),
            Seat.withFailure { s with node := (s.withChain c).node.reportChainError e } key trie
              peer name (.error e.message)) := by
  rw [importNode, Step.exec_bind_of_ok (Step.exec_get s)]
  split
  · rfl
  cases hstore : s.node.chain.importTrieNode key value trie with
  | mk answer c =>
    have hrun : (storeTrieNode key value trie).exec s = (.ok answer, s.withChain c) := by
      rw [storeTrieNode, Step.exec_update]
      simp only [hstore]
      rfl
    rw [Step.exec_bind_of_ok hrun]
    cases answer with
    | error e => rfl
    | ok outcome => cases outcome <;> rfl

/-- Imports answers in turn and chooses a pivot between them. It answers whether the pivot was
accepted. -/
def importTriesAround (pivot : Block) (before after : List TrieJob) : Step Seat Bool := do
  importTries before
  let accepted ← choosePivot pivot
  importTries after
  return accepted

/-- The ledgers of a seat and the tries of its chain hold these nodes, these keys are wanted, and
nothing but the answers decides what comes next: no error is set, the pivot is this one and stays,
and it can still be chosen. -/
structure Balanced (payloads : List Bytes) (pivot : Option Block)
    (nodes : Trie → Digest → Bytes → Prop) (wants : Trie → Digest → Prop) (s : Seat) : Prop where
  /-- No error is set for the next trie node. -/
  calm : s.node.chain.nextTrieFailure = none
  /-- The pivot stays after a failure. -/
  keeps : s.engine.fast.policy = .keep
  /-- A pivot can be chosen. -/
  incomplete : s.engine.fast.blocksComplete = false
  /-- The pivot is this one. -/
  pivot : s.engine.fast.pivot = pivot
  /-- The ledgers hold the nodes. -/
  ledger (trie : Trie) : (s.engine.fast.ledger.get trie).Tallies (nodes trie) (wants trie)
  /-- The chain holds them too. -/
  stored {trie : Trie} {key : Digest} {value : Bytes} :
    (s.node.chain.trieNodes.get trie)[key]? = some value ↔ nodes trie key value
  /-- Each is genuine, and its value is one of these. -/
  genuine {trie : Trie} {key : Digest} {value : Bytes} : nodes trie key value →
    value ∈ payloads ∧ TrieResponse.isGenuine key value = true

namespace Balanced

variable {payloads : List Bytes} {pivot : Option Block} {nodes : Trie → Digest → Bytes → Prop}
  {wants : Trie → Digest → Prop} {s : Seat} {trie : Trie} {key : Digest} {value : Bytes}

theorem congr (h : Balanced payloads pivot nodes wants s) {nodes' : Trie → Digest → Bytes → Prop}
    {wants' : Trie → Digest → Prop} (hn : ∀ t k v, nodes' t k v ↔ nodes t k v)
    (hw : ∀ t k, wants' t k ↔ wants t k) : Balanced payloads pivot nodes' wants' s where
  calm := h.calm
  keeps := h.keeps
  incomplete := h.incomplete
  pivot := h.pivot
  ledger t := (h.ledger t).congr (hn t) (hw t)
  stored := by
    intro t k v
    rw [h.stored, hn]
  genuine := by
    intro t k v hv
    exact h.genuine ((hn t k v).mp hv)

/-- A failure changes nothing that counts. -/
theorem withFailure (h : Balanced payloads pivot nodes wants s) (key : Digest) (trie : Trie)
    (peer : PeerId) (name : String) (reason : FailureReason) :
    Balanced payloads pivot nodes wants (s.withFailure key trie peer name reason) := by
  have hsame : ∃ failure, s.engine.fast.handleFailure key trie peer name reason =
      s.engine.fast.recordFailure failure := by
    refine ⟨⟨key, trie, peer, name, reason, s.engine.fast.pivot.map Block.number⟩, ?_⟩
    simp only [FastSync.handleFailure, h.incomplete, h.keeps, PivotPolicy.keep]
    cases s.engine.fast.pivot <;> rfl
  obtain ⟨failure, hsame⟩ := hsame
  rw [Seat.withFailure, hsame]
  exact ⟨h.calm, h.keeps, h.incomplete, h.pivot, h.ledger, h.stored, h.genuine⟩

/-- An edit of one ledger after which it holds the same nodes and wants these keys. -/
theorem withLedger (h : Balanced payloads pivot nodes wants s) (trie : Trie)
    (edit : TrieLedger → TrieLedger) {keys : Digest → Prop}
    (hl : (edit (s.engine.fast.ledger.get trie)).Tallies (nodes trie) keys) :
    Balanced payloads pivot nodes (fun t k ↦ if trie = t then keys k else wants t k)
      (s.withLedger trie edit) where
  calm := h.calm
  keeps := h.keeps
  incomplete := h.incomplete
  pivot := h.pivot
  ledger t := by
    change ((s.engine.fast.ledger.set _ trie).get t).Tallies _ _
    rw [PerTrie.get_set]
    by_cases ht : trie = t
    · subst ht
      simpa using hl
    · simpa [ht] using h.ledger t
  stored := h.stored
  genuine := h.genuine

/-- A genuine node that the chain stores and the ledger records is one more. -/
theorem withNode (h : Balanced payloads pivot nodes wants s) (hvalue : value ∈ payloads)
    (hgenuine : TrieResponse.isGenuine key value = true)
    (hagrees : ∀ v, nodes trie key v → v = value) :
    Balanced payloads pivot (fun u k v ↦ nodes u k v ∨ trie = u ∧ key = k ∧ value = v) wants
      ((s.withChain (s.node.chain.withTrieNode trie key value)).withLedger trie
        fun l ↦ (l.addImported key value).settle key) where
  calm := h.calm
  keeps := h.keeps
  incomplete := h.incomplete
  pivot := h.pivot
  ledger u := by
    change ((s.engine.fast.ledger.set _ trie).get u).Tallies _ _
    rw [PerTrie.get_set]
    by_cases hu : trie = u
    · subst hu
      rw [if_pos rfl]
      exact ((h.ledger trie).receive hagrees).congr (by simp) fun _ ↦ .rfl
    · simpa [hu] using h.ledger u
  stored := by
    intro u k v
    change ((s.node.chain.trieNodes.set _ trie).get u)[k]? = some v ↔ _
    rw [PerTrie.get_set]
    by_cases hu : trie = u
    · subst hu
      rw [if_pos rfl, Std.ExtTreeMap.getElem?_insert]
      by_cases hk : key = k
      · subst hk
        simp only [Std.ReflOrd.compare_self, if_true, Option.some.injEq, true_and]
        exact ⟨.inr, fun hv ↦ hv.elim (fun hv ↦ (hagrees v hv).symm) id⟩
      · rw [if_neg (by simpa using hk), h.stored]
        simp [hk]
    · simp [hu, h.stored]
  genuine := by
    rintro u k v (hv | ⟨rfl, rfl, rfl⟩)
    · exact h.genuine hv
    · exact ⟨hvalue, hgenuine⟩

/-- A genuine node of which the key is settled afterwards is one more, and any other node changes
nothing that counts. -/
theorem importNode (h : Balanced payloads pivot nodes wants s) (distinct : DistinctDigests payloads)
    (hvalue : value ∈ payloads) (peer : PeerId) (name : String) (report : TrieReport) :
    ∃ report' t, (Seat.importNode peer name key value trie report).exec s =
        (.ok (TrieResponse.isGenuine key value, report'), t) ∧
      (TrieResponse.isGenuine key value = false → Balanced payloads pivot nodes wants t) ∧
      (TrieResponse.isGenuine key value = true → Balanced payloads pivot
        (fun u k v ↦ nodes u k v ∨ trie = u ∧ key = k ∧ value = v) wants
        (t.withLedger trie (·.settle key))) := by
  -- A stored node with the key of a genuine value has that value.
  have hagrees : TrieResponse.isGenuine key value = true → ∀ v, nodes trie key v → v = value := by
    intro hgenuine v hv
    have hdigest := (TrieResponse.isGenuine_iff.mp (h.genuine hv).2).2
    exact distinct v (h.genuine hv).1 value hvalue
      (hdigest.trans (TrieResponse.isGenuine_iff.mp hgenuine).2.symm)
  rw [exec_importNode]
  split
  case isTrue hexact =>
    have hnode : nodes trie key value :=
      (h.ledger trie).imported.mp (by simpa [TrieLedger.containsExact] using hexact)
    have hgenuine := (h.genuine hnode).2
    refine ⟨_, s, by rw [hgenuine], by simp [hgenuine], fun _ ↦ ?_⟩
    refine (h.withLedger trie (·.settle key) ((h.ledger trie).settle hnode)).congr ?_ ?_
    · rintro u k v
      constructor
      · rintro (hv | ⟨rfl, rfl, rfl⟩)
        · exact hv
        · exact hnode
      · exact .inl
    · intro u k
      split
      case isTrue hu => rw [hu]
      case isFalse => exact .rfl
  case isFalse hnew =>
    have hnode : ¬ nodes trie key value := by
      rw [← (h.ledger trie).imported]
      simpa [TrieLedger.containsExact] using hnew
    cases hgenuine : TrieResponse.isGenuine key value with
    | false =>
      obtain ⟨outcome, hfailed, hstore⟩ :=
        Chain.importTrieNode_of_not_genuine h.calm hgenuine trie
      refine ⟨_, _, by simp only [hstore, hfailed]; rfl, fun _ ↦ ?_, by simp⟩
      exact h.withFailure key trie peer name (.rejected outcome)
    | true =>
      have hfresh : (s.node.chain.trieNodes.get trie)[key]? = none := by
        rw [Option.eq_none_iff_forall_ne_some]
        intro v hv
        have hstored := h.stored.mp hv
        exact hnode (hagrees hgenuine v hstored ▸ hstored)
      refine ⟨_, _, by simp only [Chain.importTrieNode_of_genuine h.calm hgenuine hfresh]; rfl,
        by simp, fun _ ↦ ?_⟩
      rw [withLedger_withLedger]
      exact h.withNode hvalue hgenuine (hagrees hgenuine)

/-- The values that came with references are so many more nodes as are genuine. -/
theorem importReferences (distinct : DistinctDigests payloads) (peer : PeerId) (name : String)
    (trie : Trie) (references : List (Digest × Bytes)) :
    ∀ {nodes : Trie → Digest → Bytes → Prop} {s : Seat} (report : TrieReport),
      Balanced payloads pivot nodes wants s → (∀ entry ∈ references, entry.2 ∈ payloads) →
      ∃ report' t,
        (Seat.importReferences peer name trie references report).exec s = (.ok report', t) ∧
        Balanced payloads pivot (fun u k v ↦ nodes u k v ∨
          trie = u ∧ (k, v) ∈ references ∧ TrieResponse.isGenuine k v = true) wants t := by
  induction references with
  | nil =>
    intro nodes s report h _
    exact ⟨report, s, rfl, h.congr (by simp) fun _ _ ↦ .rfl⟩
  | cons entry rest ih =>
    obtain ⟨key, value⟩ := entry
    intro nodes s report h hvalues
    obtain ⟨hvalue, hrest⟩ := List.forall_mem_cons.mp hvalues
    rw [Seat.importReferences]
    -- Unless the first value is genuine, nothing but the rest counts.
    have hskip : TrieResponse.isGenuine key value = false → ∀ u k v,
        (nodes u k v ∨ trie = u ∧ (k, v) ∈ (key, value) :: rest ∧
          TrieResponse.isGenuine k v = true) ↔
        (nodes u k v ∨ trie = u ∧ (k, v) ∈ rest ∧ TrieResponse.isGenuine k v = true) := by
      intro hbad u k v
      grind
    by_cases hempty : value.isEmpty = true
    · obtain ⟨report', t, hrun, ht⟩ := ih report h hrest
      refine ⟨report', t, by rw [if_pos hempty, hrun], ht.congr (hskip ?_) fun _ _ ↦ .rfl⟩
      simp [TrieResponse.isGenuine, hempty]
    · obtain ⟨between, m, hnode, hbad, hgood⟩ := h.importNode distinct hvalue peer name report
      rw [if_neg hempty, Step.exec_bind_of_ok hnode]
      cases hgenuine : TrieResponse.isGenuine key value with
      | false =>
        obtain ⟨report', t, hrun, ht⟩ := ih between (hbad hgenuine) hrest
        exact ⟨report', t, hrun, ht.congr (hskip hgenuine) fun _ _ ↦ .rfl⟩
      | true =>
        obtain ⟨report', t, hrun, ht⟩ := ih between (hgood hgenuine) hrest
        refine ⟨report', t, hrun, ht.congr ?_ fun _ _ ↦ .rfl⟩
        intro u k v
        grind

/-- An answer adds the nodes that it delivers and the keys that it refers to. -/
theorem importTrie (h : Balanced payloads pivot nodes wants s) (distinct : DistinctDigests payloads)
    {job : TrieJob} (hvalues : ∀ v ∈ job.response.payloads, v ∈ payloads) :
    ∃ report t, (Seat.importTrie job).exec s = (.ok report, t) ∧
      Balanced payloads pivot
        (fun u k v ↦ nodes u k v ∨ job.response.trie = u ∧ (k, v) ∈ job.response.delivered)
        (fun u k ↦ wants u k ∨ job.response.trie = u ∧ k ∈ job.response.referred) t := by
  obtain ⟨hvalue, hrest⟩ := List.forall_mem_cons.mp hvalues
  obtain ⟨report, m, hnode, hbad, hgood⟩ := h.importNode distinct hvalue job.peer job.name .zero
  rw [Seat.importTrie, Step.exec_bind_of_ok hnode]
  cases hgenuine : TrieResponse.isGenuine job.response.key job.response.value with
  | false =>
    refine ⟨report, m, rfl, (hbad hgenuine).congr ?_ ?_⟩
    · simp [TrieResponse.delivered, hgenuine]
    · simp [TrieResponse.referred, hgenuine]
  | true =>
    have hm := hgood hgenuine
    have hwant := hm.withLedger job.response.trie
      (fun l ↦ (job.response.references.map Prod.fst).foldl TrieLedger.want l)
      ((hm.ledger job.response.trie).wantAll _)
    rw [withLedger_withLedger] at hwant
    obtain ⟨report', t, hrun, ht⟩ := importReferences distinct job.peer job.name job.response.trie
      job.response.references report hwant fun entry he ↦ hrest _ (List.mem_map_of_mem he)
    refine ⟨report', t, hrun, ht.congr ?_ ?_⟩
    · intro u k v
      simp only [TrieResponse.delivered, hgenuine, if_true, List.mem_cons, List.mem_filter,
        Prod.mk.injEq]
      grind
    · intro u k
      simp only [TrieResponse.referred, hgenuine, if_true]
      grind

/-- Answers in turn add all that they deliver and refer to. -/
theorem importTries (distinct : DistinctDigests payloads) (jobs : List TrieJob) :
    ∀ {nodes : Trie → Digest → Bytes → Prop} {wants : Trie → Digest → Prop} {s : Seat},
      Balanced payloads pivot nodes wants s →
      (∀ job ∈ jobs, ∀ v ∈ job.response.payloads, v ∈ payloads) →
      ∃ t, (Seat.importTries jobs).exec s = (.ok (), t) ∧
        Balanced payloads pivot
          (fun u k v ↦ nodes u k v ∨ Delivers (jobs.map TrieJob.response) u k v)
          (fun u k ↦ wants u k ∨ Refers (jobs.map TrieJob.response) u k) t := by
  induction jobs with
  | nil =>
    intro nodes wants s h _
    exact ⟨s, rfl, h.congr (by simp [Delivers]) (by simp [Refers])⟩
  | cons job rest ih =>
    intro nodes wants s h hvalues
    obtain ⟨hjob, hrest⟩ := List.forall_mem_cons.mp hvalues
    obtain ⟨report, m, hrun, hm⟩ := h.importTrie distinct hjob
    obtain ⟨t, hruns, ht⟩ := ih hm hrest
    refine ⟨t, ?_, ht.congr ?_ ?_⟩
    · rw [Seat.importTries, Step.exec_bind_of_ok (Step.exec_discard_of_ok hrun), hruns]
    · simp [Delivers, or_assoc]
    · simp [Refers, or_assoc]

/-- The first pivot is accepted, and its state root is one more wanted key. -/
theorem choosePivot (h : Balanced payloads none nodes wants s) (block : Block) :
    ∃ t, (Seat.choosePivot block).exec s = (.ok true, t) ∧
      Balanced payloads (some block) nodes (fun u k ↦ wants u k ∨ block.AsksFor u k) t := by
  have hforget : s.engine.fast.forgetPivot = s.engine.fast := by rw [FastSync.forgetPivot, h.pivot]
  have hbare : Balanced payloads (some block) nodes wants
      { s with engine := { s.engine with fast := { s.engine.fast with pivot := some block } } } :=
    ⟨h.calm, h.keeps, h.incomplete, rfl, h.ledger, h.stored, h.genuine⟩
  by_cases hroot : block.header.stateRoot = .zero
  · refine ⟨_, ?_, hbare.congr (fun _ _ _ ↦ .rfl) ?_⟩
    · rw [Seat.choosePivot, Step.exec_update, FastSync.updatePivot, h.incomplete, hforget]
      simp [hroot]
    · intro u k
      simp only [Block.AsksFor, hroot]
      grind
  · have hwant := hbare.withLedger .state (fun l ↦ l.want block.header.stateRoot)
      ((hbare.ledger .state).want)
    refine ⟨_, ?_, hwant.congr (fun _ _ _ ↦ .rfl) ?_⟩
    · rw [Seat.choosePivot, Step.exec_update, FastSync.updatePivot, h.incomplete, hforget]
      simp [hroot]
      rfl
    · intro u k
      simp only [Block.AsksFor]
      grind

end Balanced

/-! ### The same ledger in every order -/

/-- No answer has come and no pivot was chosen; pivots stay after failures, and no error is set for
the next trie node. -/
structure Unfed (s : Seat) : Prop where
  /-- No error is set for the next trie node. -/
  calm : s.node.chain.nextTrieFailure = none
  /-- The chain holds no trie nodes. -/
  tries : s.node.chain.trieNodes = .replicate ∅
  /-- The pivot stays after a failure. -/
  keeps : s.engine.fast.policy = .keep
  /-- A pivot can be chosen. -/
  incomplete : s.engine.fast.blocksComplete = false
  /-- There is no pivot. -/
  pivot : s.engine.fast.pivot = none
  /-- The ledgers are empty. -/
  ledger : s.engine.fast.ledger = .replicate .empty

/-- To a new engine over a new chain no answer has come. -/
theorem unfed_fresh {first : Block} {c : Chain} (start : Chain.new first = .ok c)
    (accepts : Header → Bool) (settings : Settings) (inbox : TrieInbox) (modes : ModeTable) :
    Unfed (fresh c accepts settings inbox modes) := by
  have hroom := Chain.room_new start
  rw [Chain.new, Chain.setHead_of_block? (by simp [Chain.block?] :
    Chain.block? _ first.hash = some first) rfl, if_pos hroom] at start
  cases start
  exact ⟨rfl, rfl, rfl, rfl, rfl, rfl⟩

theorem Unfed.balanced {s : Seat} (h : Unfed s) (payloads : List Bytes) :
    Balanced payloads none (fun _ _ _ ↦ False) (fun _ _ ↦ False) s where
  calm := h.calm
  keeps := h.keeps
  incomplete := h.incomplete
  pivot := h.pivot
  ledger trie := by
    rw [h.ledger, PerTrie.get_replicate]
    exact .initial
  stored := by simp [h.tries]
  genuine := False.elim

/-- Answers in turn, with a choice of a pivot between them, leave the delivered nodes and the keys
that were wanted. -/
theorem Unfed.exec_importTries {s : Seat} (h : Unfed s) {payloads : List Bytes}
    (distinct : DistinctDigests payloads) (pivot : Block) {before after : List TrieJob}
    (hvalues : ∀ job ∈ before ++ after, ∀ v ∈ job.response.payloads, v ∈ payloads) :
    ∃ t, (importTriesAround pivot before after).exec s = (.ok true, t) ∧
      ∀ trie, (t.engine.fast.ledger.get trie).Tallies
        (Delivers ((before ++ after).map TrieJob.response) trie)
        (fun key ↦ Refers ((before ++ after).map TrieJob.response) trie key ∨
          pivot.AsksFor trie key) := by
  obtain ⟨a, hbefore, ha⟩ := (h.balanced payloads).importTries distinct before fun job hjob ↦
    hvalues job (List.mem_append_left _ hjob)
  obtain ⟨b, hpivot, hb⟩ := ha.choosePivot pivot
  obtain ⟨t, hafter, ht⟩ := hb.importTries distinct after fun job hjob ↦
    hvalues job (List.mem_append_right _ hjob)
  refine ⟨t, ?_, fun trie ↦ (ht.ledger trie).congr ?_ ?_⟩
  · rw [importTriesAround, Step.exec_bind_of_ok hbefore, Step.exec_bind_of_ok hpivot,
      Step.exec_bind_of_ok hafter, Step.exec_pure]
  · simp [Delivers, or_and_right, exists_or]
  · simp only [Refers, List.map_append, List.mem_append, or_and_right, exists_or, false_or]
    grind

/-- A set of answers with distinct digests and one choice of a pivot lead to one ledger, in whatever
order they come. It holds the delivered nodes, wants what is referred to and the state root of the
pivot as far as these were not delivered, and is complete when nothing is wanted. -/
theorem exists_ledger_importTries {s : Seat} (h : Unfed s) {responses : List TrieResponse}
    (distinct : DistinctDigests (responses.flatMap TrieResponse.payloads)) (pivot : Block) :
    ∃ ledger : PerTrie TrieLedger,
      (∀ trie, (ledger.get trie).Tallies (Delivers responses trie)
        fun key ↦ Refers responses trie key ∨ pivot.AsksFor trie key) ∧
      (∀ trie required, (ledger.get trie).isComplete required = true ↔
        (∀ key, Refers responses trie key ∨ pivot.AsksFor trie key →
          ∃ value, Delivers responses trie key value) ∧
        (required = true → ∃ key value, Delivers responses trie key value)) ∧
      ∀ before after, Arranged responses (before ++ after) →
        ∃ t, (importTriesAround pivot before after).exec s = (.ok true, t) ∧
          t.engine.fast.ledger = ledger := by
  have hrun (before after : List TrieJob) (harranged : Arranged responses (before ++ after)) :
      ∃ t, (importTriesAround pivot before after).exec s = (.ok true, t) ∧
        ∀ trie, (t.engine.fast.ledger.get trie).Tallies (Delivers responses trie)
          fun key ↦ Refers responses trie key ∨ pivot.AsksFor trie key := by
    obtain ⟨t, hrun, ht⟩ := h.exec_importTries distinct pivot harranged.mem_payloads
    exact ⟨t, hrun, fun trie ↦ (ht trie).congr (fun _ _ ↦ harranged.delivers_iff.symm)
      fun _ ↦ or_congr harranged.refers_iff.symm .rfl⟩
  obtain ⟨u, -, hu⟩ := hrun [] (responses.map fun r ↦ ⟨.ofNat 0, "", r⟩) (.refl responses _ _)
  refine ⟨u.engine.fast.ledger, hu, fun trie ↦ (hu trie).isComplete_iff, ?_⟩
  intro before after harranged
  obtain ⟨t, ht, htallies⟩ := hrun before after harranged
  exact ⟨t, ht, PerTrie.ext_get fun trie ↦ (htallies trie).unique (hu trie)⟩

/-- A state root that brings one of its two nodes, the other one, and a wrong value for it. -/
def rootAnswers : List TrieResponse :=
  [⟨keccak256 [1], [1], [(keccak256 [2], []), (keccak256 [3], [3])], .state⟩,
    ⟨keccak256 [2], [2], [], .state⟩, ⟨keccak256 [2], [4], [], .state⟩]

/-- In every order the three answers complete the state of a pivot with this root. -/
theorem exists_ledger_importTries_root :
    ∃ c ledger, Chain.new .genesis = .ok c ∧ (ledger.get Trie.state).isComplete true = true ∧
      ∀ before after, Arranged rootAnswers (before ++ after) →
        ∃ t, (importTriesAround (.make 1 .zero 1 0 [] (keccak256 [1])) before after).exec
            (genesisSeat c) = (.ok true, t) ∧
          t.engine.fast.ledger = ledger := by
  have hdistinct : DistinctDigests (rootAnswers.flatMap TrieResponse.payloads) := by
    unfold DistinctDigests
    decide +kernel
  have hroot : TrieResponse.isGenuine (keccak256 [1]) [1] = true := by decide +kernel
  have hleft : TrieResponse.isGenuine (keccak256 [2]) [2] = true := by decide +kernel
  have hright : TrieResponse.isGenuine (keccak256 [3]) [3] = true := by decide +kernel
  have hforged : TrieResponse.isGenuine (keccak256 [2]) [4] = false := by decide +kernel
  obtain ⟨c, hnew, -⟩ := exists_genesis
  obtain ⟨ledger, -, hcomplete, hruns⟩ := exists_ledger_importTries
    (unfed_fresh hnew Header.isAcceptable {} .opened .empty) hdistinct
    (.make 1 .zero 1 0 [] (keccak256 [1]))
  refine ⟨c, ledger, hnew, ?_, hruns⟩
  refine (hcomplete .state true).mpr ⟨?_, fun _ ↦ ⟨keccak256 [1], [1], ?_⟩⟩
  · intro key hkey
    have hkeys : key = keccak256 [1] ∨ key = keccak256 [2] ∨ key = keccak256 [3] := by
      rcases hkey with hkey | ⟨-, rfl, -⟩
      · simp only [Refers, rootAnswers, TrieResponse.referred] at hkey
        simp [hroot, hleft, hforged] at hkey
        grind
      · exact .inl rfl
    obtain rfl | rfl | rfl := hkeys
    · exact ⟨[1], by simp [Delivers, rootAnswers, TrieResponse.delivered, hroot]⟩
    · exact ⟨[2], by simp [Delivers, rootAnswers, TrieResponse.delivered, hleft]⟩
    · exact ⟨[3], by simp [Delivers, rootAnswers, TrieResponse.delivered, hroot, hright]⟩
  · simp [Delivers, rootAnswers, TrieResponse.delivered, hroot]

end Seat
end ChainSync
