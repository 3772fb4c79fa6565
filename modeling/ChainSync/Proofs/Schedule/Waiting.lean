import ChainSync.Proofs.Import.Watch
import ChainSync.Proofs.Round.Exchange
import ChainSync.Proofs.Schedule.Places

/-!
# Headers that wait for their bodies

Bodies that a peer sends say nothing about the headers they belong to: they take the earliest
headers of that peer that are as many. Whatever else happens, headers that wait are only dropped
or joined by others that pass the screen. Main statement: every event drops headers, stores
some, or takes some.
-/

namespace ChainSync

/-- What happens to an engine, as far as headers and their bodies are concerned. -/
inductive HeaderEvent where
  /-- A peer sends headers. -/
  | headers (peer : PeerId) (name : String) (headers : List Header)
  /-- A peer sends bodies. -/
  | bodies (peer : PeerId) (bodies : List Body)
  /-- A pass of header requests. -/
  | pass
  /-- Whatever else happens leaves this seat, apart from the headers that wait and the rule for
  headers. -/
  | turn (seat : Seat)

/-! ### Batches -/

namespace HeaderBatch

/-- Headers that pass the screen are accepted. -/
theorem accepts_of_screen {accepts : Header → Bool} {imported : RecentSet Digest}
    {batch passed : HeaderBatch} (screened : screen accepts imported batch = .ok (some passed)) :
    ∀ h ∈ passed.headers, accepts h = true := by
  intro h hh
  have hsent := (screen_eq_some screened).2.2 h hh
  have hall : batch.headers.all accepts = true := by
    by_contra hrefused
    rw [screen, Bool.eq_false_iff.mpr hrefused, Bool.not_false, Bool.or_true,
      if_pos rfl] at screened
    cases screened
  exact List.all_eq_true.mp hall h hsent

/-- Blocks are made of the headers in order, each with a body that it names. -/
theorem map_header_of_assembleAll : ∀ {headers : List Header} {bodies : List Body}
    {blocks : List Block}, assembleAll headers bodies = some blocks →
      blocks.map Block.header = headers ∧ ∀ b ∈ blocks, b.hasMatchingBody = true := by
  intro headers bodies blocks h
  fun_induction assembleAll headers bodies generalizing blocks with
  | case1 =>
    cases h
    exact ⟨rfl, by simp⟩
  | case2 header headers body bodies ih =>
    obtain ⟨block, hblock, h⟩ := Option.bind_eq_some_iff.mp h
    obtain ⟨rest, hrest, h⟩ := Option.bind_eq_some_iff.mp h
    cases h
    obtain ⟨hheaders, hmatching⟩ := ih hrest
    obtain ⟨rfl, hroot⟩ := Block.assemble_eq_some_iff.mp hblock
    refine ⟨by rw [List.map_cons, hheaders], ?_⟩
    rintro b (_ | ⟨_, hb⟩)
    · exact decide_eq_true hroot
    · exact hmatching b hb
  | case3 => cases h

/-- A batch is made of the headers and the bodies in order, and is the sender's. -/
theorem assembleAll_of_assemble {headers : HeaderBatch} {bodies : List Body} {batch : BlockBatch}
    (h : headers.assemble bodies = some batch) :
    batch.peer = headers.peer ∧ assembleAll headers.headers bodies = some batch.blocks := by
  unfold assemble at h
  split at h
  · next hall =>
    cases h
    exact ⟨rfl, hall⟩
  · cases h

end HeaderBatch

/-! ### Headers that wait -/

namespace HeaderStore

variable {s : HeaderStore} {waiting : PeerId → Nat → List HeaderBatch}

/-- The headers in each queue are some of these, in order. -/
def Among (s : HeaderStore) (waiting : PeerId → Nat → List HeaderBatch) : Prop :=
  ∀ peer size, (s.queue peer size).Sublist (waiting peer size)

theorem Among.removePeer (h : s.Among waiting) (other : PeerId) :
    (s.removePeer other).2.Among waiting := by
  intro peer size
  rw [queue_removePeer]
  split
  · exact List.nil_sublist _
  · exact h peer size

theorem Among.prune (h : s.Among waiting) (now : Millis) : (s.prune now).2.Among waiting := by
  intro peer size
  rw [queue_prune]
  exact List.filter_sublist.trans (h peer size)

end HeaderStore

namespace RequestSchedule

variable {s : RequestSchedule} {waiting : PeerId → Nat → List HeaderBatch}

/-- After a refresh the headers of the connected peers are left. -/
theorem among_refresh (h : s.headers.Among waiting) (registry : Registry) (now : Millis) :
    (s.refresh registry now).headers.Among waiting := by
  have hleft : ((s.departed registry).foldl removePeer s).headers.Among waiting :=
    List.foldlRecOn (motive := fun t : RequestSchedule ↦ t.headers.Among waiting)
      (s.departed registry) removePeer h fun _ ht other _ ↦ ht.removePeer other
  unfold refresh
  dsimp only
  generalize (s.departed registry).foldl removePeer s = t at *
  refine List.foldlRecOn (motive := fun t : RequestSchedule ↦ t.headers.Among waiting)
    _ _ ?_ fun t ht other _ ↦ ?_
  · refine List.foldlRecOn (motive := fun t : RequestSchedule ↦ t.headers.Among waiting)
      _ _ hleft fun t ht entry _ ↦ ?_
    have hheaders : (t.meet entry.1 entry.2).headers = t.headers := by
      unfold meet
      split <;> rfl
    rw [hheaders]
    exact ht
  · rw [headers_releaseIfAllowed]
    exact ht

theorem keeps_among_issue (registry : Registry) (modes : ModeTable) (now : Millis)
    (localBest : UInt64) (localTotal : Difficulty) :
    Step.Keeps (fun s : RequestSchedule ↦ s.headers.Among waiting)
      (issue registry modes now localBest localTotal) := by
  have hvisit (mode : SyncMode) (peer : PeerId) (next : UInt64) :
      Step.Keeps (fun s : RequestSchedule ↦ s.headers.Among waiting)
        (visit mode now peer next) := by
    intro s h
    have hvisits := visits_visit mode now peer next s
    rw [Step.leaves]
    cases hrun : (visit mode now peer next).exec s with
    | mk r t =>
      rw [hrun] at hvisits
      cases hvisits with
      | untracked _ => exact h
      | faulted _ noted | withheld _ noted =>
        obtain ⟨q, rfl, -⟩ := noted
        exact h
      | asked _ _ _ => exact h
  exact keeps_issue (fun _ _ h ↦ h) (fun _ _ h ↦ h) hvisit registry modes localBest localTotal

end RequestSchedule

namespace Seat

def waiting (s : Seat) (peer : PeerId) (size : Nat) : List HeaderBatch :=
  s.engine.requests.headers.queue peer size

/-- The headers that wait are some of these, and the rule for headers is this one. -/
structure HeadersAmong (waiting : PeerId → Nat → List HeaderBatch) (accepts : Header → Bool)
    (s : Seat) : Prop where
  /-- The headers that wait. -/
  among : s.engine.requests.headers.Among waiting
  /-- The rule for headers. -/
  accepts : s.node.accepts = accepts

section

variable {waiting : PeerId → Nat → List HeaderBatch} {accepts : Header → Bool}

theorem keeps_headersAmong_sendHeaderRequests (now : Millis) (requests : List HeaderRequest) :
    Step.Keeps (HeadersAmong waiting accepts) (sendHeaderRequests now requests) := by
  induction requests with
  | nil => exact .pure _
  | cons r rest ih =>
    exact .bind (fun _ h ↦ ⟨h.among, h.accepts⟩) fun _ ↦
      .bind (fun _ h ↦ ⟨h.among, h.accepts⟩) fun _ ↦ ih

/-- A pass drops headers of peers that left, and headers that waited too long. -/
theorem keeps_headersAmong_requestHeaders :
    Step.Keeps (HeadersAmong waiting accepts) requestHeaders := by
  have hmeet (registry : Registry) (now : Millis) :
      Step.Keeps (HeadersAmong waiting accepts) (onEngine (Engine.meetPeers registry now)) :=
    fun _ h ↦ ⟨(RequestSchedule.among_refresh h.among registry now).prune now, h.accepts⟩
  have hpass (now : Millis) (localBest : UInt64) (localTotal : Difficulty) :
      Step.Keeps (HeadersAmong waiting accepts) (headerPass now localBest localTotal) := by
    refine .bind (fun _ h ↦ h) fun s ↦ .bind (hmeet _ now) fun _ ↦ .bind (fun _ h ↦ h) fun t ↦ ?_
    refine .bind (fun u h ↦ ⟨?_, h.accepts⟩) fun requests ↦
      .bind (keeps_headersAmong_sendHeaderRequests now requests) fun _ ↦ .pure _
    exact RequestSchedule.keeps_among_issue s.node.registry t.engine.modes now localBest localTotal
      h.among
  refine .bind (fun _ h ↦ h) fun s ↦ .bind (hpass ..) fun requests ↦ .bind (fun _ h ↦ h) fun t ↦ ?_
  exact .bind (fun _ h ↦ ⟨h.among, h.accepts⟩) fun _ ↦ .pure _

end

/-! ### Headers and bodies that arrive -/

def takeHeaders (peer : PeerId) (bodies : List Body) : Step Seat (Option HeaderBatch) := do
  recordResponse peer .bodies
  matchHeaders peer bodies.length

/-- Makes a batch of headers and bodies, if there are such headers and all bodies fit. -/
def pairHeaders (peer : PeerId) (bodies : List Body) :
    Option HeaderBatch → Step Seat (Option BlockBatch)
  | none => return none
  | some headers =>
    match headers.assemble bodies with
    | none => return none
    | some batch => do
      recordReceived peer batch.size
      return some batch

/-- Queues a batch if one was made. -/
def queueBlocks : Option BlockBatch → Step Seat (Option PushOutcome)
  | none => return none
  | some batch => enqueue batch

/-- Making a batch of bodies is taking the headers that they are for and putting both together. -/
theorem pairBodies_eq (peer : PeerId) (bodies : List Body) :
    pairBodies peer bodies = takeHeaders peer bodies >>= pairHeaders peer bodies := by
  rw [pairBodies, takeHeaders, bind_assoc]
  rfl

/-- Taking bodies is making a batch of them and queueing it. -/
theorem onBodies_eq (peer : PeerId) (bodies : List Body) :
    onBodies peer bodies = pairBodies peer bodies >>= queueBlocks := rfl

/-- A batch that is made of bodies is made of the headers that they take. -/
theorem exists_takeHeaders_of_pairBodies {peer : PeerId} {bodies : List Body} {s : Seat}
    {batch : BlockBatch} (h : ((pairBodies peer bodies).exec s).1 = .ok (some batch)) :
    ∃ headers, ((takeHeaders peer bodies).exec s).1 = .ok (some headers) ∧
      headers.assemble bodies = some batch := by
  rw [pairBodies_eq] at h
  obtain ⟨found, t, htaken, hpaired⟩ := Step.exists_exec_of_bind (Prod.ext h rfl)
  cases found with
  | none => cases hpaired
  | some headers =>
    rw [htaken]
    rw [pairHeaders] at hpaired
    cases hassemble : headers.assemble bodies with
    | none =>
      rw [hassemble] at hpaired
      cases hpaired
    | some made =>
      rw [hassemble] at hpaired
      obtain ⟨_, u, -, hmade⟩ := Step.exists_exec_of_bind hpaired
      cases hmade
      exact ⟨headers, rfl, hassemble⟩

/-- A batch that is made of bodies is handed to the queue, and nothing else is done. -/
theorem leaves_onBodies_of_handed {peer : PeerId} {bodies : List Body} {s : Seat}
    {batch : BlockBatch} (h : ((pairBodies peer bodies).exec s).1 = .ok (some batch)) :
    (onBodies peer bodies).leaves s =
      (enqueue batch).leaves ((pairBodies peer bodies).leaves s) := by
  rw [onBodies_eq, Step.leaves, Step.exec_bind_of_ok (Prod.ext h rfl)]
  rfl

/-- When the queue answers something, it was handed a batch. -/
theorem exists_handed_of_onBodies {peer : PeerId} {bodies : List Body} {s : Seat}
    {outcome : PushOutcome} (h : ((onBodies peer bodies).exec s).1 = .ok (some outcome)) :
    ∃ batch, ((pairBodies peer bodies).exec s).1 = .ok (some batch) := by
  rw [onBodies_eq] at h
  obtain ⟨paired, t, hpaired, hqueued⟩ := Step.exists_exec_of_bind (Prod.ext h rfl)
  cases paired with
  | none => cases hqueued
  | some batch => exact ⟨batch, congrArg Prod.fst hpaired⟩

/-- The seat after something happened, whether or not its step faulted. -/
def afterEvent (s : Seat) : HeaderEvent → Seat
  | .headers peer name headers => (onHeaders peer name headers).leaves s
  | .bodies peer bodies => (onBodies peer bodies).leaves s
  | .pass => requestHeaders.leaves s
  | .turn t =>
    { node := { t.node with accepts := s.node.accepts }
      engine := { t.engine with
        requests := { t.engine.requests with headers := s.engine.requests.headers } } }

/-- Headers of the peer arrive, and these of them pass the screen and are stored. -/
def Stores (s : Seat) (event : HeaderEvent) (peer : PeerId) (headers : HeaderBatch) : Prop :=
  ∃ name sent, event = .headers peer name sent ∧
    HeaderBatch.screen s.node.accepts s.engine.imported ⟨peer, name, sent, s.node.clock⟩ =
      .ok (some headers) ∧
    (s.afterEvent event).engine.requests.headers = s.engine.requests.headers.store headers

/-- Bodies of the peer arrive and take these headers. -/
def Takes (s : Seat) (event : HeaderEvent) (peer : PeerId) (headers : HeaderBatch) : Prop :=
  ∃ bodies, event = .bodies peer bodies ∧
    ((takeHeaders peer bodies).exec s).1 = .ok (some headers)

/-- Headers that are stored come last among those of their peer that are as many. -/
theorem Stores.waiting_eq {s : Seat} {event : HeaderEvent} {peer : PeerId} {headers : HeaderBatch}
    (h : s.Stores event peer headers) (other : PeerId) (size : Nat) :
    (s.afterEvent event).waiting other size =
      if peer = other ∧ headers.size = size then s.waiting other size ++ [headers]
      else s.waiting other size := by
  obtain ⟨name, sent, rfl, hscreen, hstored⟩ := h
  obtain ⟨hpeer, hnonempty, -⟩ := HeaderBatch.screen_eq_some hscreen
  rw [waiting, hstored, HeaderStore.queue_store hnonempty, hpeer]
  rfl

/-- What becomes of the headers that wait. -/
inductive Becomes (s : Seat) (event : HeaderEvent) : Prop where
  /-- None are added or taken, and some may be dropped. -/
  | dropped (untaken : ∀ peer headers, ¬ s.Takes event peer headers)
    (rest : ∀ peer size, ((s.afterEvent event).waiting peer size).Sublist (s.waiting peer size))
  /-- Some are added. -/
  | stored {peer : PeerId} {headers : HeaderBatch} (stores : s.Stores event peer headers)
  /-- The first ones of a queue are taken. -/
  | taken {peer : PeerId} {size : Nat} {headers : HeaderBatch} {later : List HeaderBatch}
    (takes : s.Takes event peer headers) (found : s.waiting peer size = headers :: later)
    (rest : ∀ other count, ((s.afterEvent event).waiting other count).Sublist
      (if peer = other ∧ size = count then later else s.waiting other count))

/-- Timing an answer changes the statistics only. -/
theorem exists_exec_recordResponse (s : Seat) (peer : PeerId) (kind : RequestKind) :
    ∃ r stats, (Stats.recordResponse peer kind s.node.clock).exec s.engine.stats = (r, stats) ∧
      (recordResponse peer kind).exec s = (r, s.withStats stats) := by
  refine ⟨((Stats.recordResponse peer kind s.node.clock).exec s.engine.stats).1,
    ((Stats.recordResponse peer kind s.node.clock).exec s.engine.stats).2, rfl, ?_⟩
  rw [recordResponse, Step.exec_bind_of_ok (Step.exec_get s), exec_stats]

/-- Headers that arrive are dropped or stored. -/
theorem becomes_headers (s : Seat) (peer : PeerId) (name : String) (sent : List Header) :
    s.Becomes (.headers peer name sent) := by
  have huntaken (other : PeerId) (headers : HeaderBatch) :
      ¬ s.Takes (.headers peer name sent) other headers := by
    rintro ⟨bodies, he, -⟩
    cases he
  have hkept (h : (s.afterEvent (.headers peer name sent)).engine.requests.headers =
      s.engine.requests.headers) : s.Becomes (.headers peer name sent) :=
    .dropped huntaken fun other size ↦ by rw [waiting, h, waiting]
  obtain ⟨r, stats, hstats, hresponse⟩ := s.exists_exec_recordResponse peer .headers
  cases r with
  | error e =>
    apply hkept
    rw [afterEvent, Step.leaves, onHeaders, Step.exec_bind_of_error hresponse]
    rfl
  | ok _ =>
    have hrun := exec_onHeaders hstats name sent
    cases hscreen : HeaderBatch.screen s.node.accepts s.engine.imported
      ⟨peer, name, sent, s.node.clock⟩ with
    | error e =>
      apply hkept
      rw [afterEvent, Step.leaves, hrun, hscreen]
      rfl
    | ok passed =>
      cases passed with
      | none =>
        apply hkept
        rw [afterEvent, Step.leaves, hrun, hscreen]
        rfl
      | some headers =>
        have hleft : (s.afterEvent (.headers peer name sent)).engine.requests.headers =
            (s.engine.requests.storeHeaders headers s.node.clock).headers := by
          rw [afterEvent, Step.leaves, hrun, hscreen]
          rfl
        by_cases htracked : s.engine.requests.peers.contains headers.peer = true
        · refine .stored ⟨name, sent, rfl, hscreen, ?_⟩
          rw [hleft, RequestSchedule.storeHeaders, if_pos htracked,
            RequestSchedule.headers_releaseIfAllowed]
        · apply hkept
          rw [hleft, RequestSchedule.storeHeaders, if_neg htracked]

section

variable {waiting : PeerId → Nat → List HeaderBatch} {accepts : Header → Bool}

theorem keeps_headersAmong_pairHeaders (peer : PeerId) (bodies : List Body)
    (headers : Option HeaderBatch) :
    Step.Keeps (HeadersAmong waiting accepts) (pairHeaders peer bodies headers) := by
  cases headers with
  | none => exact .pure _
  | some headers =>
    rw [pairHeaders]
    cases headers.assemble bodies with
    | none => exact .pure _
    | some batch => exact .bind (fun _ h ↦ ⟨h.among, h.accepts⟩) fun _ ↦ .pure _

theorem keeps_headersAmong_queueBlocks (batch : Option BlockBatch) :
    Step.Keeps (HeadersAmong waiting accepts) (queueBlocks batch) := by
  cases batch with
  | none => exact .pure _
  | some batch =>
    refine .bind (fun _ h ↦ h) fun s ↦ .bind (fun _ h ↦ ⟨h.among, h.accepts⟩) fun outcome ↦ ?_
    cases outcome with
    | ok outcome =>
      cases outcome with
      | diverted stored => exact .bind (fun _ h ↦ ⟨h.among, h.accepts⟩) fun _ ↦ .pure _
      | queued | replaced | superseded | empty => exact .pure _
    | error e =>
      refine .bind (fun t h ↦ ⟨h.among, ?_⟩) fun _ ↦ .pure _
      obtain ⟨alarms, hnode⟩ := t.node.exists_reportStoreError e
      exact (congrArg Node.accepts hnode).trans h.accepts

/-- Once headers are taken, bodies leave those that wait. -/
theorem headersAmong_onBodies {peer : PeerId} {bodies : List Body} {s : Seat}
    (h : HeadersAmong waiting accepts ((takeHeaders peer bodies).leaves s)) :
    HeadersAmong waiting accepts ((onBodies peer bodies).leaves s) := by
  rw [onBodies_eq, pairBodies_eq]
  apply Step.Keeps.seq ?_ keeps_headersAmong_queueBlocks
  exact Step.Keeps.seq h fun headers ↦ keeps_headersAmong_pairHeaders peer bodies headers

end

/-- What changes neither the headers that wait nor the rule leaves both. -/
theorem headersAmong_of_eq {s t : Seat}
    (headers : t.engine.requests.headers = s.engine.requests.headers)
    (accepts : t.node.accepts = s.node.accepts) : HeadersAmong s.waiting s.node.accepts t := by
  refine ⟨fun peer size ↦ ?_, accepts⟩
  rw [headers]
  exact List.Sublist.refl _

/-- Taking headers leaves the rule for headers. -/
theorem accepts_takeHeaders (peer : PeerId) (bodies : List Body) (s : Seat) :
    ((takeHeaders peer bodies).leaves s).node.accepts = s.node.accepts := by
  have hkept : Step.Keeps (fun t : Seat ↦ t.node.accepts = s.node.accepts)
      (takeHeaders peer bodies) := .bind (.bind (fun _ h ↦ h) fun _ _ h ↦ h) fun _ _ h ↦ h
  exact hkept rfl

/-- Bodies take no headers, as a fault stopped them, or what there is to take of their number. -/
theorem takeHeaders_cases (peer : PeerId) (bodies : List Body) (s : Seat) :
    (∀ headers, ((takeHeaders peer bodies).exec s).1 ≠ .ok (some headers)) ∧
        ((takeHeaders peer bodies).leaves s).engine.requests.headers = s.engine.requests.headers ∨
      ((takeHeaders peer bodies).exec s).1 = .ok (s.waiting peer bodies.length).head? ∧
        ((takeHeaders peer bodies).leaves s).engine.requests.headers =
          (s.engine.requests.headers.take peer bodies.length).2 := by
  rw [Step.leaves]
  obtain ⟨r, stats, -, hresponse⟩ := s.exists_exec_recordResponse peer .bodies
  cases r with
  | error e =>
    rw [takeHeaders, Step.exec_bind_of_error hresponse]
    exact .inl ⟨fun _ h ↦ (by cases h), rfl⟩
  | ok _ =>
    have hrun : (takeHeaders peer bodies).exec s =
        (.ok (s.engine.requests.headers.take peer bodies.length).1,
          (s.withStats stats).withRequests { s.engine.requests with
            headers := (s.engine.requests.headers.take peer bodies.length).2 }) := by
      rw [takeHeaders, Step.exec_bind_of_ok hresponse]
      rfl
    rw [hrun, HeaderStore.take_fst]
    exact .inr ⟨rfl, rfl⟩

/-- Bodies that arrive take headers or drop none. -/
theorem becomes_bodies (s : Seat) (peer : PeerId) (bodies : List Body) :
    s.Becomes (.bodies peer bodies) := by
  have hleft {waiting : PeerId → Nat → List HeaderBatch}
      (h : ((takeHeaders peer bodies).leaves s).engine.requests.headers.Among waiting) :
      (s.afterEvent (.bodies peer bodies)).engine.requests.headers.Among waiting :=
    (headersAmong_onBodies ⟨h, accepts_takeHeaders peer bodies s⟩).among
  have huntaken (h : ∀ headers, ((takeHeaders peer bodies).exec s).1 ≠ .ok (some headers))
      (other : PeerId) (headers : HeaderBatch) : ¬ s.Takes (.bodies peer bodies) other headers := by
    rintro ⟨bodies', he, htaken⟩
    cases he
    exact h headers htaken
  rcases takeHeaders_cases peer bodies s with ⟨hnone, hsame⟩ | ⟨htaken, hrest⟩
  · refine .dropped (huntaken hnone) (hleft ?_)
    rw [hsame]
    exact fun _ _ ↦ List.Sublist.refl _
  · have hqueue (other : PeerId) (count : Nat) :
        ((takeHeaders peer bodies).leaves s).engine.requests.headers.queue other count =
          if peer = other ∧ bodies.length = count then (s.waiting other count).tail
          else s.waiting other count := by
      rw [hrest, HeaderStore.queue_take]
      rfl
    cases hfound : s.waiting peer bodies.length with
    | nil =>
      rw [hfound] at htaken
      refine .dropped (huntaken fun headers h ↦ ?_) (hleft fun other count ↦ ?_)
      · rw [htaken] at h
        cases h
      · rw [hqueue]
        split
        · exact List.tail_sublist _
        · exact List.Sublist.refl _
    | cons headers later =>
      rw [hfound] at htaken
      refine .taken ⟨bodies, rfl, htaken⟩ hfound (hleft fun other count ↦ ?_)
      rw [hqueue]
      split
      · next he => rw [← he.1, ← he.2, hfound, List.tail_cons]
      · exact List.Sublist.refl _

/-- Whatever happens, the headers that wait are dropped, stored or taken. -/
theorem becomes (s : Seat) (event : HeaderEvent) : s.Becomes event := by
  cases event with
  | headers peer name sent => exact s.becomes_headers peer name sent
  | bodies peer bodies => exact s.becomes_bodies peer bodies
  | pass =>
    refine .dropped ?_ (keeps_headersAmong_requestHeaders (headersAmong_of_eq rfl rfl)).among
    rintro peer headers ⟨bodies, he, -⟩
    cases he
  | turn t =>
    refine .dropped ?_ fun _ _ ↦ List.Sublist.refl _
    rintro peer headers ⟨bodies, he, -⟩
    cases he

/-- Nothing that happens changes the rule for headers. -/
theorem accepts_afterEvent (s : Seat) (event : HeaderEvent) :
    (s.afterEvent event).node.accepts = s.node.accepts := by
  cases event with
  | headers peer name sent =>
    have hkept : Step.Keeps (fun t : Seat ↦ t.node.accepts = s.node.accepts)
        (onHeaders peer name sent) := by
      refine .bind (.bind (fun _ h ↦ h) fun _ _ h ↦ h) fun _ ↦ .bind (fun _ h ↦ h) fun t ↦
        .bind (.lift _) fun passed ↦ ?_
      cases passed with
      | none => exact .pure _
      | some headers =>
        exact .bind (fun _ h ↦ h) fun _ ↦ .bind (.bind (fun _ h ↦ h) fun _ ↦
          .bind (fun _ h ↦ h) fun _ _ h ↦ h) fun _ ↦ .pure _
    exact hkept rfl
  | bodies peer bodies =>
    have htaken : HeadersAmong ((takeHeaders peer bodies).leaves s).waiting s.node.accepts
        ((takeHeaders peer bodies).leaves s) :=
      ⟨fun _ _ ↦ List.Sublist.refl _, accepts_takeHeaders peer bodies s⟩
    exact (headersAmong_onBodies htaken).accepts
  | pass => exact (keeps_headersAmong_requestHeaders (headersAmong_of_eq rfl rfl)).accepts
  | turn t => rfl

end Seat
end ChainSync
