import ChainSync.Pending.Record
import Mathlib.Algebra.GroupWithZero.Nat

/-!
# Reading what was written

A reader takes some bytes as a value when it takes them from the front of any longer sequence and
hands on the rest. Readers in sequence take the bytes of one after the other. Main statement: the
entry of a payload is read back, as long as the length of the payload fits in 32 bits.
-/

namespace ChainSync

/-- The reader takes these bytes from the front as the value, whatever follows them. -/
def Reader.Takes {α : Type} (reader : Reader α) (bytes : Bytes) (a : α) : Prop :=
  ∀ rest, reader.run (bytes ++ rest) = some (a, rest)

namespace Reader

variable {α β : Type}

theorem takes_pure (a : α) : (pure a : Reader α).Takes [] a := fun _ ↦ rfl

/-- Readers in sequence take their bytes one after the other. -/
theorem Takes.bind {reader : Reader α} {next : α → Reader β} {left right : Bytes} {a : α} {b : β}
    (h : reader.Takes left a) (h' : (next a).Takes right b) :
    (reader >>= next).Takes (left ++ right) b := by
  intro rest
  rw [List.append_assoc, StateT.run_bind, h]
  exact h' rest

/-- What is made of the value takes the same bytes. -/
theorem Takes.map {reader : Reader α} {bytes : Bytes} {a : α} (h : reader.Takes bytes a)
    (f : α → β) : (reader >>= fun a ↦ pure (f a)).Takes bytes (f a) := by
  intro rest
  rw [StateT.run_bind, h]
  rfl

/-- As many bytes as asked for are taken. -/
theorem takes_bytes {count : Nat} {taken : Bytes} (h : taken.length = count) :
    (bytes count).Takes taken taken := by
  intro rest
  subst h
  simp [bytes, StateT.run]

/-- A number that its width can hold is read back. -/
theorem takes_number {width n : Nat} (h : n < Bytes.span width) :
    (number width).Takes (Bytes.ofNatLE width n) n := by
  have htaken := (takes_bytes (Bytes.length_ofNatLE width n)).map Bytes.toNatLE
  rw [Bytes.toNatLE_ofNatLE, Nat.mod_eq_of_lt h] at htaken
  exact htaken

/-- Eight bytes hold the numbers of 64 bits. -/
theorem span_eight : Bytes.span 8 = UInt64.size := by decide

/-- A word is read back. -/
theorem takes_word64 (n : UInt64) : word64.Takes (Binary.word64 n) n := by
  have hlt : n.toNat < Bytes.span 8 := span_eight ▸ n.toNat_lt
  have htaken := (takes_number hlt).map UInt64.ofNat
  rwa [UInt64.ofNat_toNat] at htaken

/-- Thirty-two bytes behind their number are taken. -/
theorem takes_bytes32 {taken : Bytes} (h : taken.length = 32) :
    bytes32.Takes (Bytes.ofNatLE 8 32 ++ taken) taken := by
  have hlength : (number 8).Takes (Bytes.ofNatLE 8 32) 32 := takes_number (by decide)
  exact hlength.bind (takes_bytes h)

/-- A digest is read back. -/
theorem takes_digest (d : Digest) : digest.Takes (Binary.digest d) d := by
  have htaken := (takes_bytes32 d.length_toBytes).map Digest.ofBytes
  rwa [Digest.ofBytes_toBytes] at htaken

/-- A difficulty is read back. -/
theorem takes_difficulty (d : Difficulty) : difficulty.Takes (Binary.difficulty d) d := by
  have hlt : d.toNat < Bytes.span 32 := d.isLt
  have htaken := (takes_bytes32 (Bytes.length_ofNatBE 32 d.toNat)).map
    fun taken ↦ BitVec.ofNat 256 (Bytes.toNatBE taken)
  rw [Bytes.toNatBE_ofNatBE, Nat.mod_eq_of_lt hlt, BitVec.ofNat_toNat, BitVec.setWidth_eq] at htaken
  exact htaken

/-- The members of a list are read back one after the other. -/
theorem takes_times {one : Reader α} {write : α → Bytes} {as : List α}
    (h : ∀ a ∈ as, one.Takes (write a) a) : (times one as.length).Takes (as.flatMap write) as := by
  induction as with
  | nil => exact takes_pure []
  | cons a rest ih =>
    have hrest := ih fun b hb ↦ h b (List.mem_cons_of_mem _ hb)
    exact (h a List.mem_cons_self).bind (hrest.map (a :: ·))

/-- A list is read back if its length fits in 64 bits. -/
theorem takes_list {one : Reader α} {write : α → Bytes} {as : List α}
    (hlength : as.length < UInt64.size) (h : ∀ a ∈ as, one.Takes (write a) a) :
    (list one).Takes (Binary.list write as) as := by
  rw [← span_eight] at hlength
  exact (takes_number hlength).bind (takes_times h)

/-- A header is read back. -/
theorem takes_header (h : Header) : header.Takes (Binary.header h) h := by
  rw [Binary.header]
  simp only [List.append_assoc]
  refine (takes_word64 h.number).bind ?_
  refine (takes_digest h.parent).bind ?_
  refine (takes_digest h.hash).bind ?_
  refine (takes_difficulty h.difficulty).bind ?_
  refine (takes_word64 h.timestamp).bind ?_
  refine (takes_digest h.transactionsRoot).bind ?_
  exact (takes_digest h.stateRoot).map _

/-- A body is read back if the number of its transactions fits in 64 bits. -/
theorem takes_body {b : Body} (hlength : b.transactions.length < UInt64.size) :
    body.Takes (Binary.body b) b := by
  rw [Binary.body]
  exact (takes_list hlength fun d _ ↦ takes_digest d).map Body.mk

/-- A block is read back if the number of its transactions fits in 64 bits. -/
theorem takes_block {b : Block} (hlength : b.body.transactions.length < UInt64.size) :
    block.Takes (Binary.block b) b := by
  rw [Binary.block]
  refine (takes_header b.header).bind ?_
  exact (takes_body hlength).map _

end Reader

namespace Binary

theorem length_le_length_list {α : Type} {one : α → Bytes} {as : List α}
    (h : ∀ a ∈ as, 1 ≤ (one a).length) : as.length ≤ (list one as).length := by
  have hflat : as.length ≤ (as.flatMap one).length := by
    induction as with
    | nil => exact Nat.le_refl 0
    | cons a rest ih =>
      have ha := h a List.mem_cons_self
      have hrest := ih fun b hb ↦ h b (List.mem_cons_of_mem _ hb)
      rw [List.flatMap_cons, List.length_append, List.length_cons]
      omega
  rw [list, List.length_append]
  omega

theorem length_le_of_mem {α : Type} (one : α → Bytes) {as : List α} {a : α} (h : a ∈ as) :
    (one a).length ≤ (list one as).length := by
  obtain ⟨before, behind, rfl⟩ := List.append_of_mem h
  rw [list, List.flatMap_append, List.flatMap_cons]
  simp only [List.length_append]
  omega

@[simp] theorem length_digest (d : Digest) : (digest d).length = 40 := by simp [digest]

@[simp] theorem length_header (h : Header) : (header h).length = 216 := by
  simp [header, word64, difficulty]

theorem length_digests (digests : List Digest) :
    (list digest digests).length = 8 + 40 * digests.length := by
  have hflat : (digests.flatMap digest).length = 40 * digests.length := by
    induction digests with
    | nil => rfl
    | cons d rest ih =>
      rw [List.flatMap_cons, List.length_append, ih, length_digest, List.length_cons]
      omega
  rw [list, List.length_append, Bytes.length_ofNatLE, hflat]

theorem length_block (b : Block) :
    (block b).length = 224 + 40 * b.body.transactions.length := by
  rw [block, List.length_append, length_header, body, length_digests]
  omega

end Binary

namespace LogEntry

/-- An entry of a stored range is read back. -/
theorem takes_put {blocks : List Block} (hshort : (put blocks).encode.length < 2 ^ 32) :
    read.Takes (put blocks).encode (put blocks) := by
  rw [encode, List.length_append] at hshort
  have hword : 2 ^ 32 < UInt64.size := by decide
  have hvariant : (Reader.number 4).Takes (Binary.variant 0) 0 := Reader.takes_number (by decide)
  have hcount : blocks.length ≤ (Binary.list Binary.block blocks).length :=
    Binary.length_le_length_list fun b _ ↦ by rw [Binary.length_block]; omega
  have hlist : (Reader.list Reader.block).Takes (Binary.list Binary.block blocks) blocks := by
    refine Reader.takes_list (Nat.lt_trans (by omega) hword) ?_
    intro b hb
    have hbytes := Binary.length_block b
    have hle := Binary.length_le_of_mem Binary.block hb
    exact Reader.takes_block (Nat.lt_trans (by omega) hword)
  rw [encode]
  exact hvariant.bind (hlist.map put)

/-- An entry of dropped keys is read back. -/
theorem takes_drop {keys : List Digest} (hshort : (drop keys).encode.length < 2 ^ 32) :
    read.Takes (drop keys).encode (drop keys) := by
  rw [encode, List.length_append] at hshort
  have hword : 2 ^ 32 < UInt64.size := by decide
  have hvariant : (Reader.number 4).Takes (Binary.variant 1) 1 := Reader.takes_number (by decide)
  have hbytes := Binary.length_digests keys
  have hlist : (Reader.list Reader.digest).Takes (Binary.list Binary.digest keys) keys :=
    Reader.takes_list (Nat.lt_trans (by omega) hword) fun d _ ↦ Reader.takes_digest d
  rw [encode]
  exact hvariant.bind (hlist.map drop)

/-- An entry whose payload has a length of 32 bits is read back from it. -/
theorem decode?_encode {entry : LogEntry} (hshort : entry.encode.length < 2 ^ 32) :
    decode? entry.encode = some entry := by
  have hread : read.Takes entry.encode entry := by
    cases entry with
    | put blocks => exact takes_put hshort
    | drop keys => exact takes_drop hshort
  have hrun := hread []
  rw [List.append_nil] at hrun
  rw [decode?, hrun]
  rfl

end LogEntry
end ChainSync
