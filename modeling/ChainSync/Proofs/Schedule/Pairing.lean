import ChainSync.Proofs.Chain.Promotion
import ChainSync.Proofs.Schedule.RateLimit
import ChainSync.Proofs.Schedule.Waiting

/-!
# Batches made of headers and bodies

Headers are told apart by the point of a run at which they were stored. Each point is the source of
the headers that wait or that were taken at most once, since only storing adds headers and bodies
take them away. So every batch that is handed to the import queue has its headers from one answer of
the same peer, which passed the screen and was stored, and no such answer is used twice. Whether the
queue keeps the batch, passes it over or sends it to the pending store makes no difference.
-/

namespace ChainSync
namespace Seat

open Chain (sprout)

/-- The seat before one of the things that happen, one after the other. -/
def beforeEvent (s : Seat) (events : List HeaderEvent) (n : Nat) : Seat :=
  (events.take n).foldl afterEvent s

/-- At this point of a run these headers of a peer pass the screen and are stored. -/
def StoresAt (s : Seat) (events : List HeaderEvent) (n : Nat) (peer : PeerId)
    (headers : HeaderBatch) : Prop :=
  ∃ event, events[n]? = some event ∧ (s.beforeEvent events n).Stores event peer headers

/-- At this point of a run bodies of a peer take these headers. -/
def TakesAt (s : Seat) (events : List HeaderEvent) (n : Nat) (peer : PeerId)
    (headers : HeaderBatch) : Prop :=
  ∃ event, events[n]? = some event ∧ (s.beforeEvent events n).Takes event peer headers

/-- At this point of a run bodies of a peer make a batch, which is handed to the import queue. -/
def HandsAt (s : Seat) (events : List HeaderEvent) (n : Nat) (peer : PeerId)
    (batch : BlockBatch) : Prop :=
  ∃ bodies, events[n]? = some (.bodies peer bodies) ∧
    ((pairBodies peer bodies).exec (s.beforeEvent events n)).1 = .ok (some batch)

theorem Takes.unique {s : Seat} {event : HeaderEvent} {peer other : PeerId}
    {headers headers' : HeaderBatch} (h : s.Takes event peer headers)
    (h' : s.Takes event other headers') : other = peer ∧ headers' = headers := by
  obtain ⟨bodies, rfl, htaken⟩ := h
  obtain ⟨_, he, htaken'⟩ := h'
  cases he
  rw [htaken] at htaken'
  cases htaken'
  exact ⟨rfl, rfl⟩

/-- Headers are not stored where others are taken. -/
theorem Stores.not_takes {s : Seat} {event : HeaderEvent} {peer other : PeerId}
    {headers headers' : HeaderBatch} (h : s.Stores event peer headers) :
    ¬ s.Takes event other headers' := by
  rintro ⟨bodies, rfl, -⟩
  obtain ⟨name, sent, he, -⟩ := h
  cases he

theorem StoresAt.unique {s : Seat} {events : List HeaderEvent} {n : Nat} {peer other : PeerId}
    {headers headers' : HeaderBatch} (h : s.StoresAt events n peer headers)
    (h' : s.StoresAt events n other headers') : peer = other ∧ headers = headers' := by
  obtain ⟨event, hevent, name, sent, rfl, hscreen, -⟩ := h
  obtain ⟨event', hevent', name', sent', rfl, hscreen', -⟩ := h'
  rw [hevent] at hevent'
  cases hevent'
  rw [hscreen] at hscreen'
  cases hscreen'
  exact ⟨rfl, rfl⟩

variable {s : Seat} {events : List HeaderEvent} {n : Nat}

/-- The event at this point takes the headers. -/
theorem TakesAt.takes {event : HeaderEvent} {peer : PeerId} {headers : HeaderBatch}
    (h : s.TakesAt events n peer headers) (here : events[n]? = some event) :
    (s.beforeEvent events n).Takes event peer headers := by
  obtain ⟨_, he, htakes⟩ := h
  rw [here] at he
  cases he
  exact htakes

theorem beforeEvent_succ_of_some {event : HeaderEvent} (h : events[n]? = some event) :
    s.beforeEvent events (n + 1) = (s.beforeEvent events n).afterEvent event :=
  foldl_take_succ h _ s

theorem beforeEvent_succ_of_none (h : events[n]? = none) :
    s.beforeEvent events (n + 1) = s.beforeEvent events n :=
  foldl_take_succ_of_none h _ s

theorem accepts_beforeEvent : (s.beforeEvent events n).node.accepts = s.node.accepts :=
  List.foldlRecOn (motive := fun t : Seat ↦ t.node.accepts = s.node.accepts) _ _ rfl
    fun t ht event _ ↦ (t.accepts_afterEvent event).trans ht

/-- The headers of a peer that wait for so many bodies, each with the point at which it was stored.
No point occurs twice, and none is the source of headers that were taken. -/
structure Tagged (s : Seat) (events : List HeaderEvent) (n : Nat) (source : Nat → Nat)
    (peer : PeerId) (size : Nat) (tags : List (Nat × HeaderBatch)) : Prop where
  /-- The points are distinct. -/
  distinct : (tags.map Prod.fst).Nodup
  /-- The headers were stored there. -/
  stored : ∀ tag ∈ tags, tag.1 < n ∧ s.StoresAt events tag.1 peer tag.2 ∧ tag.2.size = size
  /-- They were not taken. -/
  unused : ∀ tag ∈ tags, ∀ j < n, ∀ other headers, s.TakesAt events j other headers →
    source j ≠ tag.1

namespace Tagged

variable {source source' : Nat → Nat} {peer : PeerId} {size : Nat} {tags : List (Nat × HeaderBatch)}

theorem sublist (h : s.Tagged events n source peer size tags) {fewer : List (Nat × HeaderBatch)}
    (sub : fewer.Sublist tags) : s.Tagged events n source peer size fewer :=
  ⟨h.distinct.sublist (sub.map _), fun tag ht ↦ h.stored tag (sub.subset ht),
    fun tag ht ↦ h.unused tag (sub.subset ht)⟩

/-- Some of the headers are some of these with their points. -/
theorem exists_of_sublist (h : s.Tagged events n source peer size tags) {left : List HeaderBatch}
    (sub : left.Sublist (tags.map Prod.snd)) :
    ∃ fewer, s.Tagged events n source peer size fewer ∧ left = fewer.map Prod.snd := by
  obtain ⟨fewer, hfewer, rfl⟩ := List.sublist_map_iff.mp sub
  exact ⟨fewer, h.sublist hfewer, rfl⟩

/-- At the next point the sources so far are the same, and no headers are taken of which this one
would be the source. -/
theorem succ (h : s.Tagged events n source peer size tags) (same : ∀ j < n, source' j = source j)
    (spared : ∀ tag ∈ tags, ∀ other headers, s.TakesAt events n other headers →
      source' n ≠ tag.1) :
    s.Tagged events (n + 1) source' peer size tags := by
  refine ⟨h.distinct, fun tag ht ↦ ⟨?_, (h.stored tag ht).2⟩,
    fun tag ht j hj other headers hj' ↦ ?_⟩
  · have := (h.stored tag ht).1
    omega
  · rcases Nat.lt_succ_iff_lt_or_eq.mp hj with hj | rfl
    · rw [same j hj]
      exact h.unused tag ht j hj other headers hj'
    · exact spared tag ht other headers hj'

/-- Headers that are stored at this point come last, as it is no source yet. -/
theorem concat (h : s.Tagged events n source peer size tags)
    (next : s.Tagged events (n + 1) source peer size tags) {headers : HeaderBatch}
    (stores : s.StoresAt events n peer headers) (sized : headers.size = size)
    (unused : ∀ j < n + 1, ∀ other headers', s.TakesAt events j other headers' → source j ≠ n) :
    s.Tagged events (n + 1) source peer size (tags ++ [(n, headers)]) := by
  refine ⟨?_, fun tag ht ↦ ?_, fun tag ht ↦ ?_⟩
  · rw [List.map_append, List.nodup_append]
    refine ⟨h.distinct, List.nodup_singleton _, fun i hi j hj ↦ ?_⟩
    obtain ⟨tag, ht, rfl⟩ := List.mem_map.mp hi
    have hearlier := (h.stored tag ht).1
    rw [List.map_singleton, List.mem_singleton] at hj
    omega
  · rcases List.mem_append.mp ht with ht | ht
    · exact next.stored tag ht
    · rw [List.mem_singleton.mp ht]
      exact ⟨Nat.lt_succ_self n, stores, sized⟩
  · rcases List.mem_append.mp ht with ht | ht
    · exact next.unused tag ht
    · rw [List.mem_singleton.mp ht]
      exact unused

end Tagged

/-- All headers that were taken were stored before, at points that are distinct, and so were those
that wait. -/
structure Ledger (s : Seat) (events : List HeaderEvent) (n : Nat) (source : Nat → Nat) : Prop where
  /-- Headers that were taken were stored before. -/
  traced : ∀ j < n, ∀ peer headers, s.TakesAt events j peer headers →
    source j < j ∧ s.StoresAt events (source j) peer headers
  /-- None were taken twice. -/
  once : ∀ j < n, ∀ k < n, ∀ peer headers other headers', s.TakesAt events j peer headers →
    s.TakesAt events k other headers' → source j = source k → j = k
  /-- Those that wait were stored before and not taken. -/
  waiting : ∀ peer size, ∃ tags, s.Tagged events n source peer size tags ∧
    (s.beforeEvent events n).waiting peer size = tags.map Prod.snd

namespace Ledger

variable {source source' : Nat → Nat}

/-- A ledger with one more point. -/
theorem succ (h : s.Ledger events n source) (same : ∀ j < n, source' j = source j)
    (traced : ∀ peer headers, s.TakesAt events n peer headers →
      source' n < n ∧ s.StoresAt events (source' n) peer headers ∧
      ∀ j < n, ∀ other headers', s.TakesAt events j other headers' → source j ≠ source' n)
    (waiting : ∀ peer size, ∃ tags, s.Tagged events (n + 1) source' peer size tags ∧
      (s.beforeEvent events (n + 1)).waiting peer size = tags.map Prod.snd) :
    s.Ledger events (n + 1) source' := by
  refine ⟨?_, ?_, waiting⟩
  · intro j hj peer headers htaken
    rcases Nat.lt_succ_iff_lt_or_eq.mp hj with hj | rfl
    · rw [same j hj]
      exact h.traced j hj peer headers htaken
    · exact ⟨(traced peer headers htaken).1, (traced peer headers htaken).2.1⟩
  · intro j hj k hk peer headers other headers' htaken htaken' hsame
    rcases Nat.lt_succ_iff_lt_or_eq.mp hj with hj | rfl <;>
      rcases Nat.lt_succ_iff_lt_or_eq.mp hk with hk | rfl
    · rw [same j hj, same k hk] at hsame
      exact h.once j hj k hk peer headers other headers' htaken htaken' hsame
    · rw [same j hj] at hsame
      exact absurd hsame ((traced other headers' htaken').2.2 j hj peer headers htaken)
    · rw [same k hk] at hsame
      exact absurd hsame.symm ((traced peer headers htaken).2.2 k hk other headers' htaken')
    · rfl

/-- A ledger with one more point, at which no headers are taken. -/
theorem succ_of_untaken (h : s.Ledger events n source)
    (untaken : ∀ peer headers, ¬ s.TakesAt events n peer headers)
    (waiting : ∀ peer size tags, s.Tagged events n source peer size tags →
      s.Tagged events (n + 1) source peer size tags →
      (s.beforeEvent events n).waiting peer size = tags.map Prod.snd →
      ∃ tags', s.Tagged events (n + 1) source peer size tags' ∧
        (s.beforeEvent events (n + 1)).waiting peer size = tags'.map Prod.snd) :
    s.Ledger events (n + 1) source := by
  apply h.succ (fun _ _ ↦ rfl) fun peer headers ht ↦ absurd ht (untaken peer headers)
  intro peer size
  obtain ⟨tags, htags, hwaiting⟩ := h.waiting peer size
  exact waiting peer size tags htags (htags.succ (fun _ _ ↦ rfl) fun _ _ other headers ht ↦
    absurd ht (untaken other headers)) hwaiting

/-- The ledger goes on when headers are stored. -/
theorem succ_of_stores (h : s.Ledger events n source) {event : HeaderEvent}
    (here : events[n]? = some event) {peer : PeerId} {headers : HeaderBatch}
    (stores : (s.beforeEvent events n).Stores event peer headers) :
    s.Ledger events (n + 1) source := by
  have huntaken (other : PeerId) (headers' : HeaderBatch) :
      ¬ s.TakesAt events n other headers' := fun htakes ↦ stores.not_takes (htakes.takes here)
  have hunused : ∀ j < n + 1, ∀ other headers', s.TakesAt events j other headers' →
      source j ≠ n := by
    intro j hj other headers' htakes
    rcases Nat.lt_succ_iff_lt_or_eq.mp hj with hj | rfl
    · have := (h.traced j hj other headers' htakes).1
      omega
    · exact absurd htakes (huntaken other headers')
  apply h.succ_of_untaken huntaken
  intro other size tags htags hnext hwaiting
  rw [beforeEvent_succ_of_some here, stores.waiting_eq, hwaiting]
  split
  · next he =>
    refine ⟨_, htags.concat hnext ⟨event, here, he.1 ▸ stores⟩ he.2 hunused, ?_⟩
    rw [List.map_append]
    rfl
  · exact ⟨tags, hnext, rfl⟩

theorem exists_succ_of_takes (h : s.Ledger events n source) {event : HeaderEvent}
    (here : events[n]? = some event) {peer : PeerId} {size : Nat} {headers : HeaderBatch}
    {later : List HeaderBatch} (takes : (s.beforeEvent events n).Takes event peer headers)
    (found : (s.beforeEvent events n).waiting peer size = headers :: later)
    (rest : ∀ other count, (((s.beforeEvent events n).afterEvent event).waiting other count).Sublist
      (if peer = other ∧ size = count then later
        else (s.beforeEvent events n).waiting other count)) :
    ∃ source', s.Ledger events (n + 1) source' := by
  obtain ⟨tags, htags, hwaiting⟩ := h.waiting peer size
  rw [found] at hwaiting
  obtain ⟨⟨i, headers⟩, behind, rfl, rfl, rfl⟩ := List.map_eq_cons_iff.mp hwaiting.symm
  -- The headers that are taken were stored at `i`.
  obtain ⟨hearlier, hstored, hsized⟩ := htags.stored _ List.mem_cons_self
  have hsame (j : Nat) (hj : j < n) : Function.update source n i j = source j :=
    Function.update_of_ne (Nat.ne_of_lt hj) i source
  refine ⟨Function.update source n i, h.succ hsame ?_ fun other count ↦ ?_⟩
  · intro other headers' htakes
    obtain ⟨rfl, rfl⟩ := takes.unique (htakes.takes here)
    rw [Function.update_self]
    exact ⟨hearlier, hstored, htags.unused _ List.mem_cons_self⟩
  · rw [beforeEvent_succ_of_some here]
    have hrest := rest other count
    by_cases hqueue : peer = other ∧ size = count
    · rw [if_pos hqueue] at hrest
      obtain ⟨rfl, rfl⟩ := hqueue
      have hnext := (htags.sublist (List.sublist_cons_self _ _)).succ hsame fun tag ht _ _ _ ↦ by
        rw [Function.update_self]
        intro he
        exact (List.nodup_cons.mp htags.distinct).1 (List.mem_map.mpr ⟨tag, ht, he.symm⟩)
      exact hnext.exists_of_sublist hrest
    · rw [if_neg hqueue] at hrest
      obtain ⟨tags, htags', hwaiting'⟩ := h.waiting other count
      have hnext := htags'.succ hsame fun tag ht _ _ _ ↦ by
        rw [Function.update_self]
        rintro rfl
        obtain ⟨-, hstored', hsized'⟩ := htags'.stored tag ht
        obtain ⟨rfl, rfl⟩ := hstored.unique hstored'
        exact hqueue ⟨rfl, hsized.symm.trans hsized'⟩
      exact hnext.exists_of_sublist (hwaiting' ▸ hrest)

theorem exists_succ (h : s.Ledger events n source) :
    ∃ source', s.Ledger events (n + 1) source' := by
  cases here : events[n]? with
  | none =>
    refine ⟨source, h.succ_of_untaken ?_ fun peer size tags _ htags hwaiting ↦
      ⟨tags, htags, ?_⟩⟩
    · rintro peer headers ⟨event, he, -⟩
      rw [here] at he
      cases he
    · rw [beforeEvent_succ_of_none here, hwaiting]
  | some event =>
    cases (s.beforeEvent events n).becomes event with
    | dropped untaken rest =>
      refine ⟨source, h.succ_of_untaken (fun peer headers htakes ↦
        untaken peer headers (htakes.takes here)) fun peer size tags _ htags hwaiting ↦ ?_⟩
      rw [beforeEvent_succ_of_some here]
      exact htags.exists_of_sublist (hwaiting ▸ rest peer size)
    | stored stores => exact ⟨source, h.succ_of_stores here stores⟩
    | taken takes found rest => exact h.exists_succ_of_takes here takes found rest

/-- Where no headers wait a ledger starts. -/
theorem start (fresh : s.engine.requests.headers.queues = ∅) (source : Nat → Nat) :
    s.Ledger events 0 source := by
  refine ⟨fun _ hj ↦ absurd hj (Nat.not_lt_zero _), fun _ hj ↦ absurd hj (Nat.not_lt_zero _),
    fun peer size ↦ ⟨[], ⟨List.nodup_nil, by simp, by simp⟩, ?_⟩⟩
  simp [beforeEvent, Seat.waiting, HeaderStore.queue, HeaderStore.queuesOf, fresh]

/-- There is a ledger of every run. -/
theorem exists_ledger (fresh : s.engine.requests.headers.queues = ∅) (events : List HeaderEvent)
    (n : Nat) : ∃ source, s.Ledger events n source := by
  induction n with
  | zero => exact ⟨id, start fresh id⟩
  | succ n ih =>
    obtain ⟨source, h⟩ := ih
    exact h.exists_succ

end Ledger

/-- A new engine whose rule for headers asks for sealed ones above the first block takes headers and
bodies from peers in any order, whatever else happens in between. Headers that bodies take are one
answer of the same peer, which passed the screen and was stored before, and no other bodies take
that answer. Every batch that bodies hand to the import queue is made of such an answer, whatever
the queue does with it: its headers are exactly those of the answer in order, each is sealed and
above the first block, and each body is the one that its header names. -/
theorem exists_source_of_handsAt {s : Seat} (rule : s.node.accepts = Header.isAcceptable)
    (fresh : s.engine.requests.headers.queues = ∅) (events : List HeaderEvent) :
    ∃ source : Nat → Nat,
      (∀ j peer headers, s.TakesAt events j peer headers →
        source j < j ∧ s.StoresAt events (source j) peer headers) ∧
      (∀ j k peer other headers headers', s.TakesAt events j peer headers →
        s.TakesAt events k other headers' → source j = source k → j = k) ∧
      ∀ j peer batch, s.HandsAt events j peer batch →
        (∃ bodies, events[j]? = some (.bodies peer bodies) ∧
          s.beforeEvent events (j + 1) =
            (enqueue batch).leaves ((pairBodies peer bodies).leaves (s.beforeEvent events j))) ∧
        ∃ headers, s.TakesAt events j peer headers ∧
          batch.peer = peer ∧ batch.blocks.map Block.header = headers.headers ∧
          ∀ b ∈ batch.blocks, b.header.isSealed = true ∧ 0 < b.number ∧
            b.hasMatchingBody = true := by
  obtain ⟨source, ledger⟩ := Ledger.exists_ledger fresh events events.length
  have hlt {j : Nat} {peer : PeerId} {headers : HeaderBatch}
      (h : s.TakesAt events j peer headers) : j < events.length := by
    obtain ⟨event, hevent, -⟩ := h
    exact (List.getElem?_eq_some_iff.mp hevent).1
  refine ⟨source, fun j peer headers h ↦ ledger.traced j (hlt h) peer headers h,
    fun j k peer other headers headers' h h' ↦
      ledger.once j (hlt h) k (hlt h') peer headers other headers' h h', ?_⟩
  rintro j peer batch ⟨bodies, here, hpaired⟩
  obtain ⟨headers, htaken, hassemble⟩ := exists_takeHeaders_of_pairBodies hpaired
  have htakes : s.TakesAt events j peer headers := ⟨_, here, bodies, rfl, htaken⟩
  obtain ⟨-, -, -, _, _, -, hscreen, -⟩ := ledger.traced j (hlt htakes) peer headers htakes
  rw [accepts_beforeEvent, rule] at hscreen
  obtain ⟨hpeer, hall⟩ := HeaderBatch.assembleAll_of_assemble hassemble
  obtain ⟨hheaders, hmatching⟩ := HeaderBatch.map_header_of_assembleAll hall
  refine ⟨⟨bodies, here, ?_⟩, headers, htakes, hpeer.trans (HeaderBatch.screen_eq_some hscreen).1,
    hheaders, fun b hb ↦ ?_⟩
  · rw [beforeEvent_succ_of_some here]
    exact leaves_onBodies_of_handed hpaired
  have hmem : b.header ∈ headers.headers := hheaders ▸ List.mem_map_of_mem hb
  have haccepted := HeaderBatch.accepts_of_screen hscreen b.header hmem
  rw [Header.isAcceptable, Bool.and_eq_true, decide_eq_true_eq] at haccepted
  exact ⟨haccepted.2, haccepted.1, hmatching b hb⟩

/-- A full queue, in which a batch waits that starts at height 9. -/
def crowded : ImportQueue :=
  { ImportQueue.new 1 0 with batches := Std.ExtTreeMap.insert ∅ 9 ⟨.ofNat 2, "peer-2", []⟩ }

/-- A peer is connected and asked while the queue is full, and sends the header and the body of a
block. -/
def sproutEvents (c : Chain) : List HeaderEvent :=
  [.turn (((genesisSeat c).withRegistry ScheduleEvent.single).withQueue crowded), .pass,
    .headers (.ofNat 1) "peer-1" [(sprout 0).header], .bodies (.ofNat 1) [(sprout 0).body]]

/-- Over the first block of every chain, the body of a block takes the header of it that came
before. The batch of both is handed to a full queue, which sends it to the pending store. -/
theorem exists_source_of_handsAt_sprout :
    ∃ c, Chain.new .genesis = .ok c ∧ (genesisSeat c).node.accepts = Header.isAcceptable ∧
      (genesisSeat c).engine.requests.headers.queues = ∅ ∧
      ((onBodies (.ofNat 1) [(sprout 0).body]).exec
        ((genesisSeat c).beforeEvent (sproutEvents c) 3)).1 = .ok (some (.diverted 1)) ∧
      ∃ batch, (genesisSeat c).HandsAt (sproutEvents c) 3 (.ofNat 1) batch ∧
        ∃ headers, (genesisSeat c).TakesAt (sproutEvents c) 3 (.ofNat 1) headers ∧
          (∃ i < 3, (genesisSeat c).StoresAt (sproutEvents c) i (.ofNat 1) headers) ∧
          batch.peer = .ofNat 1 ∧ batch.blocks.map Block.header = headers.headers := by
  obtain ⟨c, hnew, hrun⟩ := exists_genesis_of_any (fun c ↦
    let s := (genesisSeat c).beforeEvent (sproutEvents c) 3
    decide (((onBodies (.ofNat 1) [(sprout 0).body]).exec s).1 = .ok (some (.diverted 1))))
    (by decide +kernel)
  have hdiverted := of_decide_eq_true hrun
  obtain ⟨source, hsource, -, hhands⟩ :=
    exists_source_of_handsAt (s := genesisSeat c) rfl rfl (sproutEvents c)
  obtain ⟨batch, hbatch⟩ := exists_handed_of_onBodies hdiverted
  have hands : (genesisSeat c).HandsAt (sproutEvents c) 3 (.ofNat 1) batch := ⟨_, rfl, hbatch⟩
  obtain ⟨-, headers, htakes, hpeer, hheaders, -⟩ := hhands 3 (.ofNat 1) batch hands
  obtain ⟨hearlier, hstores⟩ := hsource 3 (.ofNat 1) headers htakes
  exact ⟨c, hnew, rfl, rfl, hdiverted, batch, hands, headers, htakes,
    ⟨source 3, hearlier, hstores⟩, hpeer, hheaders⟩

end Seat
end ChainSync
