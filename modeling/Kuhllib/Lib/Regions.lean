import Mathlib.Algebra.Ring.Nat
import Mathlib.Order.Interval.Finset.Nat
import Mathlib.Order.Interval.Multiset

/-!
# Regions of memory

A region is a base address and a number of bytes. `spread rs` is the multiset of the
addresses in the regions `rs`. That no address has two owners says that this multiset has
no duplicates, and that no byte is lost or won is an equation between sums.
-/

namespace Regions

structure Region where
  base : ℕ
  size : ℕ
deriving DecidableEq, Repr

def Region.bytes (r : Region) : Multiset ℕ := Multiset.Ico r.base (r.base + r.size)

def spread (rs : List Region) : Multiset ℕ := (rs.map Region.bytes).sum

def total (rs : List Region) : ℕ := (rs.map Region.size).sum

variable {r s : Region} {rs cs : List Region} {a p k n : ℕ}

@[simp]
theorem Region.mem_bytes : a ∈ r.bytes ↔ r.base ≤ a ∧ a < r.base + r.size :=
  Multiset.mem_Ico

@[simp]
theorem Region.card_bytes (r : Region) : r.bytes.card = r.size := by
  have hcard := Nat.card_Ico r.base (r.base + r.size)
  rw [Nat.add_sub_cancel_left] at hcard
  exact hcard

theorem Region.nodup_bytes (r : Region) : r.bytes.Nodup := Multiset.nodup_Ico

@[simp]
theorem Region.bytes_empty (p : ℕ) : (Region.mk p 0).bytes = 0 := by
  simp [Region.bytes]

/-- A region is its first `k` bytes and the others. -/
theorem Region.bytes_add (p k n : ℕ) :
    (Region.mk p (k + n)).bytes = (Region.mk p k).bytes + (Region.mk (p + k) n).bytes := by
  have hsplit := Multiset.Ico_add_Ico_eq_Ico (Nat.le_add_right p k) (Nat.le_add_right (p + k) n)
  rw [Region.bytes, Region.bytes, Region.bytes, hsplit, Nat.add_assoc]

/-- An array of `k + 1` objects is the first one and the others. -/
theorem Region.bytes_mul_succ (p n k : ℕ) :
    (Region.mk p (n * (k + 1))).bytes =
      (Region.mk p n).bytes + (Region.mk (p + n) (n * k)).bytes := by
  rw [Nat.mul_succ, Nat.add_comm, Region.bytes_add]

@[simp]
theorem spread_nil : spread [] = 0 := rfl

@[simp]
theorem spread_cons (r : Region) (rs : List Region) : spread (r :: rs) = r.bytes + spread rs := by
  simp [spread]

@[simp]
theorem spread_append (rs cs : List Region) : spread (rs ++ cs) = spread rs + spread cs := by
  simp [spread]

theorem spread_perm (h : rs.Perm cs) : spread rs = spread cs :=
  (h.map Region.bytes).sum_eq

theorem spread_erase (h : r ∈ rs) : spread rs = r.bytes + spread (rs.erase r) := by
  rw [spread_perm (List.perm_cons_erase h), spread_cons]

theorem mem_spread : a ∈ spread rs ↔ ∃ r ∈ rs, a ∈ r.bytes := by
  induction rs with
  | nil => simp
  | cons r rs ih => simp only [spread_cons, Multiset.mem_add, ih, List.exists_mem_cons_iff]

theorem bytes_le_spread (h : r ∈ rs) : r.bytes ≤ spread rs := by
  rw [spread_erase h]
  exact Multiset.le_add_right _ _

@[simp]
theorem total_cons (r : Region) (rs : List Region) : total (r :: rs) = r.size + total rs := by
  simp [total]

theorem total_append (rs cs : List Region) : total (rs ++ cs) = total rs + total cs := by
  simp [total]

theorem card_spread (rs : List Region) : (spread rs).card = total rs := by
  induction rs with
  | nil => rfl
  | cons r rs ih => rw [spread_cons, Multiset.card_add, Region.card_bytes, ih, total_cons]

/-- Regions without a common address. -/
theorem apart_of_nodup (h : (spread rs).Nodup) :
    rs.Pairwise fun r s => Disjoint r.bytes s.bytes := by
  induction rs with
  | nil => exact .nil
  | cons r rs ih =>
    rw [spread_cons, Multiset.nodup_add] at h
    obtain ⟨-, hrest, hdisjoint⟩ := h
    refine List.pairwise_cons.mpr ⟨fun s hs => ?_, ih hrest⟩
    rw [Multiset.disjoint_left] at hdisjoint ⊢
    exact fun ha hb => hdisjoint ha (mem_spread.mpr ⟨s, hs, hb⟩)

/-- Addresses that are neither `0` nor `n` or more are less than `n`. -/
theorem total_lt (h : (spread rs).Nodup) (hn : ∀ a ∈ spread rs, 0 < a ∧ a < n) (hpos : 0 < n) :
    total rs < n := by
  have hcons : (0 ::ₘ spread rs).Nodup :=
    Multiset.nodup_cons.mpr ⟨fun h0 => absurd (hn 0 h0).1 (lt_irrefl 0), h⟩
  have hle : (0 ::ₘ spread rs) ≤ Multiset.range n := by
    refine (Multiset.le_iff_subset hcons).mpr fun a ha => Multiset.mem_range.mpr ?_
    obtain rfl | ha := Multiset.mem_cons.mp ha
    · exact hpos
    · exact (hn a ha).2
  have hcard := Multiset.card_le_card hle
  rw [Multiset.card_cons, card_spread, Multiset.card_range] at hcard
  exact hcard

end Regions
