import ChainSync.Proofs.Delivery.Steps
import Mathlib.Order.Bounds.Defs

/-!
# Segments of a line in any order

Segments of a line are pushed into the queue in any order, with any overlap and repetition, and
batches are imported in between. Main statement: when the queue is empty the best block is the one
at the greatest height up to which every block was pushed, and every pending range starts above the
height after it.
-/

namespace ChainSync
namespace Seat

/-- Takes a step of a delivery of segments of a line. -/
def deliver (c : Nat → Block) : Delivery → Step Seat Unit
  | .push peer name first last => discard (push ⟨peer, name, segment c first last⟩)
  | .importNext => discard importNext

def deliverAll (c : Nat → Block) : List Delivery → Step Seat Unit
  | [] => return
  | d :: rest => do
    deliver c d
    deliverAll c rest

namespace Standing

variable {c : Nat → Block} {top height : Nat} {done : List Delivery} {s : Seat}

/-- Every step of a delivery is taken without a fault. -/
theorem deliver (line : Line c top) (standing : Standing c top done height s) {d : Delivery}
    (fits : d.Fits top) (hsize : Delivery.total done < UInt64.size) :
    ∃ height' t, (Seat.deliver c d).exec s = (.ok (), t) ∧
      Standing c top (done ++ [d]) height' t := by
  cases d with
  | push peer name first last =>
    obtain ⟨-, hle, hlast⟩ := fits
    obtain ⟨answer, t, hrun, standing'⟩ := standing.push line peer name hle hlast
    exact ⟨height, t, Step.exec_discard_of_ok hrun, standing'⟩
  | importNext =>
    obtain ⟨answer, height', t, hrun, standing'⟩ := standing.importNext line hsize
    exact ⟨height', t, Step.exec_discard_of_ok hrun, standing'⟩

/-- Every delivery runs to its end without a fault. -/
theorem deliverAll (line : Line c top) (deliveries : List Delivery) :
    ∀ {done : List Delivery} {height : Nat} {s : Seat}, Standing c top done height s →
      (∀ d ∈ deliveries, d.Fits top) →
      Delivery.total (done ++ deliveries) < UInt64.size →
      ∃ height' t, (Seat.deliverAll c deliveries).exec s = (.ok (), t) ∧
        Standing c top (done ++ deliveries) height' t := by
  induction deliveries with
  | nil =>
    intro done height s standing _ _
    rw [List.append_nil]
    exact ⟨height, s, rfl, standing⟩
  | cons d rest ih =>
    intro done height s standing fits hsize
    have hsize' : Delivery.total done < UInt64.size := by
      rw [Delivery.total, List.map_append, List.sum_append] at hsize
      exact Nat.lt_of_le_of_lt (Nat.le_add_right _ _) hsize
    obtain ⟨height₁, t₁, hrun, standing₁⟩ :=
      standing.deliver line (fits d List.mem_cons_self) hsize'
    rw [List.append_cons] at hsize ⊢
    obtain ⟨height', t, hrest, standing'⟩ :=
      ih standing₁ (fun e he ↦ fits e (List.mem_cons_of_mem _ he)) hsize
    exact ⟨height', t, by rw [Seat.deliverAll, Step.exec_bind_of_ok hrun, hrest], standing'⟩

/-- Where nothing waits, the height is the greatest one up to which every block was pushed. -/
theorem isGreatest (line : Line c top) (standing : Standing c top done height s)
    (fits : ∀ d ∈ done, d.Fits top) (hempty : s.engine.queue.batches = ∅) :
    IsGreatest {m | ∀ i, 1 ≤ i → i ≤ m → Delivery.Covered done i} height := by
  refine ⟨fun i hone hi ↦ standing.holds.sound hone hi, ?_⟩
  intro m hm
  by_contra hhigh
  have hnext : Delivery.Covered done (height + 1) := hm _ (by omega) (by omega)
  have htop : height + 1 ≤ top := by
    obtain ⟨d, hd, hcovers⟩ := hnext
    have hfits := fits d hd
    cases d with
    | push peer name first last => exact Nat.le_trans hcovers.2 hfits.2.2
    | importNext => cases hcovers
  rcases standing.kept htop hnext with hlow | ⟨n, batch, hbatch, -⟩ | ⟨level, key, blocks, hr, hb⟩
  · omega
  · rw [hempty] at hbatch
    simp at hbatch
  · obtain ⟨hlow, -, last, -, hlast, rfl, -⟩ := standing.files level key blocks hr
    have := ((mem_segment line hlast htop).mp hb).1
    omega

end Standing

/-- Segments of a line that are pushed and imported in any order are imported without a fault, and
no more batches wait than were pushed and not yet imported. If nothing waits in the end, the best
block is the one at the greatest height up to which every block was pushed, and every pending range
starts above the height after it. -/
theorem exists_deliverAll_converges {c : Nat → Block} {top : Nat} (line : Line c top)
    (accepts : Header → Bool) {settings : Settings} (hslack : 1 ≤ settings.importSlack.toNat)
    (hroom : top + settings.importSlack.toNat < UInt64.size) (inbox : TrieInbox)
    (modes : ModeTable) {deliveries : List Delivery} (hfits : ∀ d ∈ deliveries, d.Fits top)
    (hsize : Delivery.total deliveries < UInt64.size) :
    ∃ chain t, Chain.new (c 0) = .ok chain ∧
      (deliverAll c deliveries).exec (fresh chain accepts settings inbox modes) = (.ok (), t) ∧
      t.engine.queue.size ≤ Delivery.backlog deliveries ∧
      (t.engine.queue.batches = ∅ → ∃ m,
        IsGreatest {m | ∀ i, 1 ≤ i → i ≤ m → Delivery.Covered deliveries i} m ∧
        t.node.chain.best = (c m).hash ∧ t.node.chain.bestBlock = c m ∧
        ∀ level key blocks, t.node.pending.index.range? level key = some blocks →
          ∃ first ∈ blocks.head?, level = first.number ∧ m + 1 < first.number.toNat) := by
  obtain ⟨chain, hnew, stores, hcalm⟩ := exists_new_storesTo line
  have standing := Standing.initial stores hcalm accepts hslack hroom inbox modes
  obtain ⟨m, t, hrun, standing'⟩ := standing.deliverAll line deliveries hfits hsize
  rw [List.nil_append] at standing'
  refine ⟨chain, t, hnew, hrun, standing'.size_le, ?_⟩
  intro hempty
  refine ⟨m, standing'.isGreatest line hfits hempty, standing'.holds.stores.best,
    standing'.holds.stores.bestBlock, ?_⟩
  intro level key blocks hrange
  obtain ⟨hlow, -, last, hle, hlast, rfl, -⟩ := standing'.files level key blocks hrange
  obtain ⟨rest, hsegment⟩ := exists_segment_cons c hle
  have hnumber := line.toNat_number (Nat.le_trans hle hlast)
  refine ⟨c level.toNat, by rw [hsegment]; rfl, UInt64.toNat_inj.mp hnumber.symm, ?_⟩
  rw [hnumber]
  omega

/-- The first block of every chain, and above it blocks without transactions. -/
def plain : Nat → Block
  | 0 => .genesis
  | i + 1 => .make (UInt64.ofNat (i + 1)) (plain i).hash 1 0 [] .zero

/-- The first three of these blocks are a line. -/
theorem line_plain : Line plain 2 := by
  refine .of_make rfl (fun _ ↦ rfl) (by decide +kernel) ?_ ?_ (by decide)
  · rintro (_ | i) -
    · exact Nat.le_refl 1
    · exact Nat.le_refl 1
  · change 3 < 2 ^ 256
    decide

/-- Of two blocks above the first one the second is pushed and imported before the first. -/
def reversed : List Delivery :=
  [.push (.ofNat 1) "peer-1" 2 2, .importNext, .push (.ofNat 2) "peer-2" 1 1, .importNext]

/-- In the end nothing waits, and the second block is the best. -/
theorem exists_deliverAll_converges_reversed :
    ∃ chain t, Chain.new (plain 0) = .ok chain ∧
      (deliverAll plain reversed).exec (fresh chain Header.isAcceptable {} .opened .empty) =
        (.ok (), t) ∧
      t.engine.queue.batches = ∅ ∧ t.node.chain.bestBlock = plain 2 := by
  have hslack : 1 ≤ ({} : Settings).importSlack.toNat := by decide
  have hroom : 2 + ({} : Settings).importSlack.toNat < UInt64.size := by decide
  have hfits : ∀ d ∈ reversed, d.Fits 2 := by
    simp [reversed, Delivery.Fits]
  have hsize : Delivery.total reversed < UInt64.size := by decide
  obtain ⟨chain, t, hnew, hrun, hwaiting, hbest⟩ := exists_deliverAll_converges line_plain
    Header.isAcceptable hslack hroom .opened .empty hfits hsize
  have hempty : t.engine.queue.batches = ∅ :=
    Std.ExtTreeMap.eq_empty_iff_size_eq_zero.mpr (Nat.le_zero.mp hwaiting)
  obtain ⟨m, hgreatest, -, hblock, -⟩ := hbest hempty
  have hcovered (i : Nat) : Delivery.Covered reversed i ↔ 1 ≤ i ∧ i ≤ 2 := by
    simp [Delivery.Covered, reversed, Delivery.Covers]
    omega
  obtain rfl : m = 2 := by
    apply Nat.le_antisymm
    · by_contra hhigh
      have := (hcovered m).mp (hgreatest.1 m (by omega) (Nat.le_refl m))
      omega
    · exact hgreatest.2 fun i hone hi ↦ (hcovered i).mpr ⟨hone, hi⟩
  exact ⟨chain, t, hnew, hrun, hempty, hblock⟩

end Seat
end ChainSync
