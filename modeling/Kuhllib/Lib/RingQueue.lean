import Mathlib.Data.Nat.ModEq
import Mathlib.Logic.Function.Basic

/-!
# Queues in a ring of cells

A ring has a power of two of cells and two counters that run on and wrap at the
width of their type; a counter modulo the number of cells is a cell. One party
writes at `tail` and advances it, the other one reads at `head` and advances it.

`Contains r xs`: the cells from `head` to `tail` hold the sequence `xs`. The rules
say what writing, pushing and popping do to the sequence, and how the counters
tell its length.
-/

namespace RingQueue

universe u

/-- The counters have `w` bits, and there are fewer than `2 ^ w` cells. -/
structure Ring (w : Nat) (α : Type u) where
  head : BitVec w
  tail : BitVec w
  mask : BitVec w
  array : BitVec w → α
  bits : Nat
  bits_lt : bits < w
  mask_eq : mask.toNat = 2 ^ bits - 1

variable {w : Nat} {α : Type u} {r : Ring w α} {x : α} {xs : List α}

/-- The cell of a counter. -/
def Ring.slot (r : Ring w α) (n : BitVec w) : BitVec w := n &&& r.mask

def Ring.get (r : Ring w α) (n : BitVec w) : α := r.array (r.slot n)

def Ring.write (r : Ring w α) (x : α) : Ring w α :=
  { r with array := Function.update r.array (r.slot r.tail) x }

def Ring.advance_tail (r : Ring w α) : Ring w α := { r with tail := r.tail + 1 }

def Ring.advance_head (r : Ring w α) : Ring w α := { r with head := r.head + 1 }

structure Contains (r : Ring w α) (xs : List α) : Prop where
  size : xs.length ≤ 2 ^ r.bits
  tail : r.tail = r.head + BitVec.ofNat w xs.length
  cells : ∀ i (h : i < xs.length), r.get (r.head + BitVec.ofNat w i) = xs[i]

theorem slot_toNat (r : Ring w α) (n : BitVec w) : (r.slot n).toNat = n.toNat % 2 ^ r.bits := by
  rw [Ring.slot, BitVec.toNat_and, r.mask_eq, Nat.and_two_pow_sub_one_eq_mod]

/-- Counters that are less than the number of cells apart have different cells. -/
theorem slot_inj {i j : Nat} (n : BitVec w) (hi : i < 2 ^ r.bits) (hj : j < 2 ^ r.bits)
    (h : r.slot (n + BitVec.ofNat w i) = r.slot (n + BitVec.ofNat w j)) : i = j := by
  have hdvd : 2 ^ r.bits ∣ 2 ^ w := Nat.pow_dvd_pow 2 (Nat.le_of_lt r.bits_lt)
  have hnat := congrArg BitVec.toNat h
  simp only [slot_toNat, BitVec.toNat_add, BitVec.toNat_ofNat, Nat.add_mod_mod,
    Nat.mod_mod_of_dvd _ hdvd] at hnat
  have hmod : i ≡ j [MOD 2 ^ r.bits] := Nat.ModEq.add_left_cancel' n.toNat hnat
  exact Nat.ModEq.eq_of_lt_of_lt hmod hi hj

theorem length_lt (h : Contains r xs) : xs.length < 2 ^ w :=
  Nat.lt_of_le_of_lt h.size (Nat.pow_lt_pow_right (by decide) r.bits_lt)

/-- The distance of the counters is the length. -/
theorem Contains.distance (h : Contains r xs) : (r.tail - r.head).toNat = xs.length := by
  rw [h.tail, BitVec.add_comm, BitVec.add_sub_cancel, BitVec.toNat_ofNat,
    Nat.mod_eq_of_lt (length_lt h)]

theorem Contains.empty_iff (h : Contains r xs) : r.head = r.tail ↔ xs = [] := by
  constructor
  · intro he
    have hlen := h.distance
    rw [he, BitVec.sub_self] at hlen
    exact List.length_eq_zero_iff.mp hlen.symm
  · rintro rfl
    simpa using h.tail.symm

theorem Contains.nil (h : r.head = r.tail) : Contains r [] where
  size := Nat.zero_le _
  tail := by simp [h]
  cells i hi := absurd hi (Nat.not_lt_zero i)

/-- A free cell is no cell of the sequence. -/
theorem Contains.slot_ne (h : Contains r xs) (hfree : xs.length < 2 ^ r.bits) {i : Nat}
    (hi : i < xs.length) : r.slot (r.head + BitVec.ofNat w i) ≠ r.slot r.tail := by
  intro he
  rw [h.tail] at he
  exact Nat.ne_of_lt hi (slot_inj r.head (Nat.lt_trans hi hfree) hfree he)

/-- Writing to a free cell and advancing `tail` appends. -/
theorem Contains.push (h : Contains r xs) (hfree : xs.length < 2 ^ r.bits) (x : α) :
    Contains (r.write x).advance_tail (xs ++ [x]) where
  size := by
    rw [List.length_append, List.length_singleton]
    exact hfree
  tail := by
    show r.tail + 1 = r.head + BitVec.ofNat w (xs ++ [x]).length
    rw [h.tail, List.length_append, List.length_singleton, BitVec.ofNat_add, BitVec.add_assoc]
    rfl
  cells i hi := by
    show Function.update r.array (r.slot r.tail) x (r.slot (r.head + BitVec.ofNat w i)) = _
    rcases Nat.lt_or_ge i xs.length with hlt | hge
    · rw [Function.update_of_ne (h.slot_ne hfree hlt), List.getElem_append_left hlt]
      exact h.cells i hlt
    · have he : i = xs.length := by
        have : i < xs.length + 1 := by simpa using hi
        omega
      subst he
      rw [← h.tail, Function.update_self, List.getElem_concat_length rfl]

/-- The cell at `head` is the first of the sequence. -/
theorem Contains.front (h : Contains r (x :: xs)) : r.get r.head = x := by
  have := h.cells 0 (Nat.zero_lt_succ _)
  simpa using this

/-- Advancing `head` removes it. -/
theorem Contains.pop (h : Contains r (x :: xs)) : Contains r.advance_head xs where
  size := Nat.le_of_succ_le h.size
  tail := by
    show r.tail = r.head + 1 + BitVec.ofNat w xs.length
    rw [h.tail, List.length_cons, Nat.add_comm, BitVec.ofNat_add, ← BitVec.add_assoc]
    rfl
  cells i hi := by
    have hnext : r.head + 1 + BitVec.ofNat w i = r.head + BitVec.ofNat w (i + 1) := by
      rw [Nat.add_comm, BitVec.ofNat_add, ← BitVec.add_assoc]
      rfl
    show r.get (r.head + 1 + BitVec.ofNat w i) = xs[i]
    rw [hnext]
    exact h.cells (i + 1) (Nat.succ_lt_succ hi)

end RingQueue
