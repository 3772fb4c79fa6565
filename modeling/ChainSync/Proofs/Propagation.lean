import ChainSync.Proofs.Import.Retention

/-!
# Announced blocks and the hashes noted

A hash is noted as announced when a block is announced here, and when a peer announces a block whose
header is accepted, before it is known whether the block extends the best one, has the body that its
header names and can be linked. A block that could be linked is linked unless its hash is noted.
So a copy of it with its header and another body, which is refused itself, keeps the block out
for as long as the hash is not pushed out of the set.
-/

namespace ChainSync

/-- What happens to an engine, as far as announced blocks are concerned. -/
inductive Gossip where
  /-- A block is announced to every peer. -/
  | announce (block : Block)
  /-- A peer announces a block. -/
  | receive (sender : PeerId) (block : Block)
  /-- Whatever else happens leaves this seat, apart from the hashes noted and the rule for
  headers. -/
  | turn (seat : Seat)

namespace Gossip

/-- The hashes that are noted, if the rule for headers asks for sealed ones above the first
block. -/
def noted : Gossip → List Digest
  | announce block => [block.hash]
  | receive _ block => if block.header.isAcceptable then [block.hash] else []
  | turn _ => []

/-- The hashes that are noted under a rule for headers. -/
def notedUnder (accepts : Header → Bool) : Gossip → List Digest
  | announce block => [block.hash]
  | receive _ block => if accepts block.header then [block.hash] else []
  | turn _ => []

theorem notedUnder_isAcceptable : notedUnder Header.isAcceptable = noted :=
  funext fun event ↦ by cases event <;> rfl

end Gossip

/-- The block is valid and extends the best block of the chain, and there is a height above it. -/
structure Chain.Awaits (c : Chain) (b : Block) : Prop where
  /-- The best block is stored under its hash. -/
  stored : c.block? c.bestBlock.hash = some c.bestBlock
  /-- It is the parent. -/
  parent : b.parent = c.bestBlock.hash
  /-- The block is sealed, has the body that it names, and stands one above the best block. -/
  follows : b.Follows c.bestBlock
  /-- There is a height above it. -/
  room : b.number.toNat + 1 < UInt64.size

namespace Seat

open Chain (sprout)

def hear (s : Seat) : Gossip → Seat
  | .announce block => (announce block).leaves s
  | .receive sender block => (receiveAnnounced sender block).leaves s
  | .turn t =>
    { node := { t.node with accepts := s.node.accepts }
      engine := { t.engine with announced := s.engine.announced } }

/-! ### The hashes noted -/

/-- The hashes noted and the rule for headers are these. -/
structure Notes (announced : RecentSet Digest) (accepts : Header → Bool) (s : Seat) : Prop where
  /-- The hashes noted. -/
  announced : s.engine.announced = announced
  /-- The rule for headers. -/
  accepts : s.node.accepts = accepts

section

variable {announced : RecentSet Digest} {accepts : Header → Bool}

theorem keeps_notes_broadcast (block : Block) (peers : List PeerId) :
    Step.Keeps (Notes announced accepts) (onNode (Node.broadcast block peers)) := by
  intro s h
  obtain ⟨registry, hnode⟩ := s.node.exists_broadcast block peers
  exact ⟨h.announced, (congrArg Node.accepts hnode).trans h.accepts⟩

theorem keeps_notes_forward (sender : PeerId) (block : Block) :
    Step.Keeps (Notes announced accepts) (forward sender block) := by
  refine .bind (fun _ h ↦ h) fun s ↦ ?_
  dsimp only
  split
  · exact .bind (keeps_notes_broadcast ..) fun _ ↦ .pure _
  · exact .pure _

theorem keeps_notes_linkAnnounced (block : Block) :
    Step.Keeps (Notes announced accepts) (linkAnnounced block) := by
  have hconnect : Step.Keeps (Notes announced accepts) (connect [block]) := by
    intro s h
    have handed := handed_connect s [block]
    exact ⟨handed.engine ▸ h.announced, handed.accepts.trans h.accepts⟩
  refine .bind hconnect fun answer ↦ ?_
  cases answer with
  | ok report =>
    dsimp only
    split
    · exact .bind (fun _ h ↦ ⟨h.announced, h.accepts⟩) fun _ ↦ .pure _
    · exact .pure _
  | error e =>
    refine .bind (fun s h ↦ ⟨h.announced, ?_⟩) fun _ ↦ .pure _
    obtain ⟨alarms, hnode⟩ := s.node.exists_reportChainError e
    exact (congrArg Node.accepts hnode).trans h.accepts

end

def withNoted (s : Seat) (hash : Digest) : Seat :=
  { s with engine := { s.engine with announced := s.engine.announced.insert hash } }

/-- Taking an announced block is dropping it if its header is refused or its hash is noted, and
otherwise noting its hash and going on if it extends the best block. -/
theorem exec_receiveAnnounced (sender : PeerId) (block : Block) (s : Seat) :
    (receiveAnnounced sender block).exec s =
      if s.node.accepts block.header = false then (.ok .dropped, s)
      else if s.engine.announced.contains block.hash then (.ok .dropped, s.withNoted block.hash)
      else match s.node.extendsBest block with
        | .error e => (.error e, s.withNoted block.hash)
        | .ok false => (.ok .dropped, s.withNoted block.hash)
        | .ok true => (do
            let forwarded ← forward sender block
            let linked ← linkAnnounced block
            return Propagation.ofFlags forwarded linked).exec (s.withNoted block.hash) := by
  have hnote : (noteAnnounced block.hash).exec s =
      (.ok (!s.engine.announced.contains block.hash), s.withNoted block.hash) := rfl
  rw [receiveAnnounced, Step.exec_bind, Step.exec_get]
  dsimp only
  cases s.node.accepts block.header with
  | false => rfl
  | true =>
    rw [Bool.not_true, if_neg Bool.false_ne_true, if_neg (Ne.symm Bool.false_ne_true),
      Step.exec_bind, hnote]
    cases s.engine.announced.contains block.hash with
    | true => rfl
    | false =>
      have hextends : (s.withNoted block.hash).node.extendsBest block = s.node.extendsBest block :=
        rfl
      dsimp only
      rw [Bool.not_false, Bool.not_true, if_neg Bool.false_ne_true, if_neg Bool.false_ne_true,
        Step.exec_bind, Step.exec_get]
      dsimp only
      rw [Step.exec_bind, Step.exec_lift, hextends]
      cases s.node.extendsBest block with
      | error e => rfl
      | ok next => cases next <;> rfl

/-- What happens notes its hashes, one after the other, and leaves the rule for headers. -/
theorem notes_hear {s : Seat} {accepts : Header → Bool} (rule : s.node.accepts = accepts)
    (event : Gossip) :
    Notes (s.engine.announced.insertAll (event.notedUnder accepts)) accepts (s.hear event) := by
  cases event with
  | announce block =>
    have start : Notes (s.engine.announced.insert block.hash) accepts (s.withNoted block.hash) :=
      ⟨rfl, rule⟩
    exact Step.Keeps.seq start fun _ ↦ .bind (fun _ h ↦ h) fun t ↦
      .bind (keeps_notes_broadcast block _) fun _ ↦ .pure _
  | receive sender block =>
    rw [hear, Step.leaves, exec_receiveAnnounced, rule, Gossip.notedUnder]
    cases accepts block.header with
    | false => exact ⟨rfl, rule⟩
    | true =>
      have start : Notes (s.engine.announced.insertAll [block.hash]) accepts
          (s.withNoted block.hash) := ⟨rfl, rule⟩
      rw [if_neg (Ne.symm Bool.false_ne_true), if_pos rfl]
      split
      · exact start
      · split
        · exact start
        · exact start
        · exact Step.Keeps.bind (keeps_notes_forward ..) (fun _ ↦ .bind
            (keeps_notes_linkAnnounced block) fun _ ↦ .pure _) start
  | turn t => exact ⟨rfl, rule⟩

theorem notes_foldl_hear_under {accepts : Header → Bool} (past : List Gossip) :
    ∀ {s : Seat}, s.node.accepts = accepts →
      Notes (s.engine.announced.insertAll (past.flatMap (Gossip.notedUnder accepts))) accepts
        (past.foldl hear s) := by
  induction past with
  | nil => exact fun rule ↦ ⟨rfl, rule⟩
  | cons event rest ih =>
    intro s rule
    have notes := notes_hear rule event
    have hrest := ih notes.accepts
    rw [notes.announced] at hrest
    have happend : s.engine.announced.insertAll
        ((event :: rest).flatMap (Gossip.notedUnder accepts)) =
        (s.engine.announced.insertAll (event.notedUnder accepts)).insertAll
          (rest.flatMap (Gossip.notedUnder accepts)) := by
      rw [List.flatMap_cons]
      exact List.foldl_append
    rw [happend]
    exact hrest

/-- What happened noted its hashes, if the rule for headers asks for sealed ones above the first
block. -/
theorem notes_foldl_hear (past : List Gossip) {s : Seat}
    (rule : s.node.accepts = Header.isAcceptable) :
    Notes (s.engine.announced.insertAll (past.flatMap Gossip.noted)) Header.isAcceptable
      (past.foldl hear s) :=
  Gossip.notedUnder_isAcceptable ▸ notes_foldl_hear_under past rule

/-! ### Blocks that could be linked -/

/-- A list of one block that the chain awaits is stored without a fault. -/
theorem exists_importBlocks_of_awaits {c : Chain} {b : Block} (awaits : c.Awaits b) :
    ∃ imported outcome d, (Chain.importBlocks [b] .exist).exec c = (.ok (imported, outcome), d) ∧
      outcome.isStored = true := by
  have ha := Chain.attempt_importBlock (c.withHanded b.hash) b
  rw [Chain.exec_importBlocks_cons]
  have hparent : (c.withHanded b.hash).block? b.parent = some c.bestBlock := by
    rw [awaits.parent]
    exact awaits.stored
  have hnumber := awaits.follows.number
  have hroom := awaits.room
  cases hx : (Chain.importBlock b).exec (c.withHanded b.hash) with
  | mk r d =>
    rw [hx] at ha
    cases ha with
    | exist stored => exact ⟨[], .exist, _, rfl, rfl⟩
    | detached _ _ _ _ | light _ _ _ _ _ | heavy _ _ _ _ _ _ => exact ⟨[b.hash], _, _, rfl, rfl⟩
    | noParent _ orphan =>
      rw [hparent] at orphan
      cases orphan
    | noHeight _ found full =>
      rw [hparent] at found
      cases found
      omega
    | invalid _ found _ misfit =>
      rw [hparent] at found
      cases found
      exact absurd awaits.follows misfit
    | lastHead _ _ _ _ _ full => omega

/-- Forwarding answers, and changes nothing but what peers are sent. -/
theorem exists_exec_forward (sender : PeerId) (block : Block) (s : Seat) :
    ∃ forwarded registry, (forward sender block).exec s =
      (.ok forwarded, { s with node := { s.node with registry } }) := by
  obtain ⟨registry, h⟩ := s.node.exists_broadcast block (s.node.forwardTargets sender block)
  have hsent : (onNode (Node.broadcast block (s.node.forwardTargets sender block))).exec s =
      (.ok (), { s with node := { s.node with registry } }) := by
    rw [← h]
    rfl
  unfold forward
  rw [Step.exec_bind, Step.exec_get]
  dsimp only
  cases s.engine.settings.syncOnlyNode with
  | true => exact ⟨_, s.node.registry, rfl⟩
  | false =>
    rw [Bool.not_false, if_pos rfl, Step.exec_bind_of_ok hsent]
    exact ⟨_, registry, rfl⟩

/-- A block that the chain awaits is linked and stored. -/
theorem exists_exec_linkAnnounced {s : Seat} (ready : Ready s) {b : Block}
    (awaits : s.node.chain.Awaits b) : ∃ t, (linkAnnounced b).exec s = (.ok true, t) := by
  obtain ⟨imported, outcome, c, himport, stored⟩ := exists_importBlocks_of_awaits awaits
  have hconnect := exec_connect ready [b]
  rw [himport] at hconnect
  rw [linkAnnounced, Step.exec_bind_of_ok hconnect]
  dsimp only
  rw [if_pos stored]
  exact ⟨_, rfl⟩

/-- A block that the chain awaits is linked unless its hash is noted. Then it is dropped. -/
theorem exists_exec_receiveAnnounced {s : Seat} (ready : Ready s) {b : Block}
    (awaits : s.node.chain.Awaits b) (rule : s.node.accepts = Header.isAcceptable)
    (sender : PeerId) :
    ∃ answer t, (receiveAnnounced sender b).exec s = (.ok answer, t) ∧
      (b.hash ∈ s.engine.announced.keys → answer = .dropped) ∧
      (b.hash ∉ s.engine.announced.keys → answer.isConnected = true) := by
  have hnumber := awaits.follows.number
  have hnext : s.node.extendsBest b = .ok true := by
    have hadd : checkedAdd s.node.chain.bestNumber 1 = .ok b.number :=
      checkedAdd_eq_ok_iff.mpr hnumber.symm
    rw [Node.extendsBest, hadd, awaits.parent]
    simp
  have haccepted : s.node.accepts b.header = true := by
    have hpos : 0 < b.header.number := UInt64.lt_iff_toNat_lt.mpr (by
      change 0 < b.number.toNat
      omega)
    rw [rule, Header.isAcceptable, awaits.follows.isSealed, decide_eq_true hpos]
    rfl
  rw [exec_receiveAnnounced, haccepted, if_neg (Ne.symm Bool.false_ne_true)]
  by_cases hseen : b.hash ∈ s.engine.announced.keys
  · rw [if_pos (RecentSet.contains_iff.mpr hseen)]
    exact ⟨.dropped, _, rfl, fun _ ↦ rfl, fun h ↦ absurd hseen h⟩
  · rw [if_neg (mt RecentSet.contains_iff.mp hseen), hnext]
    obtain ⟨forwarded, registry, hforward⟩ := exists_exec_forward sender b (s.withNoted b.hash)
    have ready' : Ready { s.withNoted b.hash with
        node := { (s.withNoted b.hash).node with registry } } := ⟨ready.later, ready.chain⟩
    obtain ⟨t, hlink⟩ := exists_exec_linkAnnounced ready' awaits
    dsimp only
    rw [Step.exec_bind_of_ok hforward, Step.exec_bind_of_ok hlink]
    refine ⟨.ofFlags forwarded true, t, rfl, fun h ↦ absurd h hseen, fun _ ↦ ?_⟩
    cases forwarded <;> rfl

/-- A new engine whose rule for headers asks for sealed ones above the first block takes announced
blocks, whatever else happens in between. When a peer then announces a valid block on top of the
best one, and no error is set for the chain, the block is linked exactly when its hash is not among
those noted, some of which later ones may have pushed out. So it is linked if no block with its hash
was announced here or came with an accepted header; and if one did, and all the hashes noted fit in
the set, it is dropped, be that one the block itself or a copy with another body. -/
theorem exists_connected_iff_not_noted {s : Seat} (rule : s.node.accepts = Header.isAcceptable)
    (fresh : s.engine.announced.keys = []) (past : List Gossip) {b : Block}
    (awaits : (past.foldl hear s).node.chain.Awaits b) (ready : Ready (past.foldl hear s))
    (sender : PeerId) :
    ∃ answer t, (receiveAnnounced sender b).exec (past.foldl hear s) = (.ok answer, t) ∧
      (answer.isConnected = true ↔
        b.hash ∉ (s.engine.announced.insertAll (past.flatMap Gossip.noted)).keys) ∧
      (b.hash ∉ past.flatMap Gossip.noted → answer.isConnected = true) ∧
      (b.hash ∈ past.flatMap Gossip.noted →
        (past.flatMap Gossip.noted).toFinset.card ≤ s.engine.announced.capacity →
        answer = .dropped) := by
  obtain ⟨hannounced, haccepts⟩ := notes_foldl_hear past rule
  obtain ⟨answer, t, hrun, hseen, hnew⟩ := exists_exec_receiveAnnounced ready awaits haccepts sender
  rw [hannounced] at hseen hnew
  have hconnected : answer.isConnected = true ↔
      b.hash ∉ (s.engine.announced.insertAll (past.flatMap Gossip.noted)).keys := by
    refine ⟨fun hc hmem ↦ ?_, hnew⟩
    rw [hseen hmem] at hc
    cases hc
  refine ⟨answer, t, hrun, hconnected, fun hnone ↦ hnew fun hmem ↦ ?_, fun hmem room ↦ hseen ?_⟩
  · rcases RecentSet.mem_of_mem_insertAll _ hmem with hmem | hmem
    · rw [fresh] at hmem
      cases hmem
    · exact hnone hmem
  · have holds := (RecentSet.holds_nil fresh).insertAll (by rwa [List.nil_append])
    exact holds.mem_iff.mpr hmem

/-! ### Copies of a child of the first block of every chain -/

/-- The chain of the first block of every chain awaits a child of it. -/
theorem awaits_sprout {c : Chain} (best : c.bestBlock = .genesis)
    (stored : c.block? Block.genesis.hash = some .genesis) : c.Awaits (sprout 0) where
  stored := by rwa [best]
  parent := by
    rw [best]
    rfl
  follows := by
    rw [best]
    exact ⟨rfl, Header.isSealed_sealed _, decide_eq_true rfl⟩
  room := by decide

/-- The child with another height and the same hash is not sealed, so it leaves no trace and the
child is linked when it comes. -/
theorem exists_connected_iff_not_noted_renumbered :
    ∃ c, Chain.new .genesis = .ok c ∧
      let past : List Gossip := [.receive (.ofNat 3) ((sprout 0).renumber 2)]
      let t := past.foldl hear (genesisSeat c)
      (genesisSeat c).node.accepts = Header.isAcceptable ∧
      (genesisSeat c).engine.announced.keys = [] ∧ t.node.chain.Awaits (sprout 0) ∧ Ready t ∧
      ∃ answer u, (receiveAnnounced (.ofNat 4) (sprout 0)).exec t = (.ok answer, u) ∧
        answer.isConnected = true := by
  obtain ⟨c, hnew, hrun⟩ := exists_genesis_of_any (fun c ↦
    let t := [Gossip.receive (.ofNat 3) ((sprout 0).renumber 2)].foldl hear (genesisSeat c)
    decide (t.node.chain.bestBlock = .genesis ∧
      t.node.chain.block? Block.genesis.hash = some .genesis ∧
      t.node.laterFailure = none ∧ t.node.chain.nextFailure = none)) (by decide +kernel)
  obtain ⟨hbest, hstored, hlater, hnext⟩ := of_decide_eq_true hrun
  have awaits := awaits_sprout hbest hstored
  obtain ⟨answer, u, hanswer, -, hnone, -⟩ := exists_connected_iff_not_noted rfl rfl
    [.receive (.ofNat 3) ((sprout 0).renumber 2)] awaits ⟨hlater, hnext⟩ (.ofNat 4)
  exact ⟨c, hnew, rfl, rfl, awaits, ⟨hlater, hnext⟩, answer, u, hanswer,
    hnone (by decide +kernel)⟩

/-- The child with the header that it has and one transaction instead of none. -/
def forged : Block := { sprout 0 with body := ⟨[.zero]⟩ }

/-- The forged child is refused for its body, and the child itself is dropped when it comes after
it. -/
theorem exists_dropped_of_forged :
    ∃ c, Chain.new .genesis = .ok c ∧
      let t := (receiveAnnounced (.ofNat 3) forged).leaves (genesisSeat c)
      (genesisSeat c).node.accepts = Header.isAcceptable ∧
      (genesisSeat c).engine.announced.keys = [] ∧
      forged ≠ sprout 0 ∧ forged.hash = (sprout 0).hash ∧
      t.node.chain.Awaits (sprout 0) ∧ Ready t ∧
      t.node.chain.totalDifficulty <
        t.node.chain.totalDifficulty + (sprout 0).header.difficulty ∧
      ∃ u, (receiveAnnounced (.ofNat 4) (sprout 0)).exec t = (.ok .dropped, u) := by
  obtain ⟨c, hnew, hrun⟩ := exists_genesis_of_any (fun c ↦
    let t := (receiveAnnounced (.ofNat 3) forged).leaves (genesisSeat c)
    decide (t.node.chain.bestBlock = .genesis ∧
      t.node.chain.block? Block.genesis.hash = some .genesis ∧
      t.node.laterFailure = none ∧ t.node.chain.nextFailure = none ∧
      t.node.chain.totalDifficulty <
        t.node.chain.totalDifficulty + (sprout 0).header.difficulty ∧
      (sprout 0).hash ∈ t.engine.announced.keys)) (by decide +kernel)
  obtain ⟨hbest, hstored, hlater, hnext, hheavier, hseen⟩ := of_decide_eq_true hrun
  have awaits := awaits_sprout hbest hstored
  have rule : ((receiveAnnounced (.ofNat 3) forged).leaves (genesisSeat c)).node.accepts =
      Header.isAcceptable :=
    (notes_hear rfl (.receive (.ofNat 3) forged)).accepts
  obtain ⟨answer, u, hanswer, hdropped, -⟩ :=
    exists_exec_receiveAnnounced ⟨hlater, hnext⟩ awaits rule (.ofNat 4)
  rw [hdropped hseen] at hanswer
  have hother : forged ≠ sprout 0 := fun h ↦ by cases congrArg Block.body h
  exact ⟨c, hnew, rfl, rfl, hother, rfl, awaits, ⟨hlater, hnext⟩, hheavier, u,
    hanswer⟩

end Seat
end ChainSync
