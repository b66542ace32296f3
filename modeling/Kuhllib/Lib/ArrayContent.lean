import Mathlib.Data.Multiset.Range
import Mathlib.Data.Multiset.MapFold
import Mathlib.Logic.Function.Basic

/-!
# The content of an array

`content n v` are the values of the first `n` cells, `around n h v` those of all but one of
them. While values move from cell to cell, one cell is a hole: the values around it stay.
-/

namespace ArrayContent

variable {T : Type*} {n h m : Nat} {v v' : Nat → T} {x : T}

def content (n : Nat) (v : Nat → T) : Multiset T := (Multiset.range n).map v

def around (n h : Nat) (v : Nat → T) : Multiset T := ((Multiset.range n).erase h).map v

theorem content_succ (n : Nat) (v : Nat → T) : content (n + 1) v = v n ::ₘ content n v := by
  rw [content, Multiset.range_succ, Multiset.map_cons, content]

theorem mem_content : x ∈ content n v ↔ ∃ i, i < n ∧ v i = x := by
  simp only [content, Multiset.mem_map, Multiset.mem_range]

/-- A value is taken out of its cell. -/
theorem cons_around (hh : h < n) : v h ::ₘ around n h v = content n v := by
  rw [around, ← Multiset.map_cons, Multiset.cons_erase (Multiset.mem_range.mpr hh), content]

theorem around_congr (hv : ∀ i, i < n → i ≠ h → v' i = v i) : around n h v' = around n h v := by
  refine Multiset.map_congr rfl fun i hi => ?_
  rw [(Multiset.nodup_range n).mem_erase_iff, Multiset.mem_range] at hi
  exact hv i hi.2 hi.1

/-- What stands in the hole does not matter. -/
theorem around_update : around n h (Function.update v h x) = around n h v :=
  around_congr fun _ _ hi => Function.update_of_ne hi _ _

/-- The hole is filled. -/
theorem content_update (hh : h < n) : content n (Function.update v h x) = x ::ₘ around n h v := by
  rw [← cons_around hh, Function.update_self, around_update]

/-- The hole moves to another cell. -/
theorem around_move (hm : m < n) (hh : h < n) (hne : m ≠ h) :
    around n m (Function.update v h (v m)) = around n h v := by
  have hcontent := content_update (x := v m) (v := v) hh
  rw [← cons_around hm, Function.update_of_ne hne] at hcontent
  exact (Multiset.cons_inj_right (v m)).mp hcontent

/-- The hole at the end is given up. -/
theorem around_last (n : Nat) (v : Nat → T) : around (n + 1) n v = content n v := by
  have hcontent := cons_around (v := v) (Nat.lt_succ_self n)
  rw [content_succ] at hcontent
  exact (Multiset.cons_inj_right (v n)).mp hcontent

end ArrayContent
