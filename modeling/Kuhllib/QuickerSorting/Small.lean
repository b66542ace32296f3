import Kuhllib.Lib.RangeSort

/-!
# `small::sort`

The networks for three, four and five elements, on the values that the iterators point
to. The first component is the number that is returned.

Results:
1. `sort3_spec`, `sort4_spec`, `sort5_spec`: the values are permuted into order.
-/

namespace Kuhllib.Small

open RangeSort

section

variable {α : Type} [LT α] [DecidableLT α]

def sort3 (p0 p1 p2 : α) : Nat × α × α × α :=
  if p1 < p0 then
    if p2 < p1 then (1, p2, p1, p0)
    else if p2 < p0 then (2, p1, p2, p0)
    else (1, p1, p0, p2)
  else
    if p2 < p0 then (2, p2, p0, p1)
    else if p2 < p1 then (1, p0, p2, p1)
    else (0, p0, p1, p2)

def sort4 (p0 p1 p2 p3 : α) : Nat × α × α × α × α :=
  let (result, p0, p1, p2) := sort3 p0 p1 p2
  if p3 < p2 then
    if p3 < p1 then
      let tmp := p3
      if tmp < p0 then (result + 3, tmp, p0, p1, p2)
      else (result + 2, p0, tmp, p1, p2)
    else (result + 1, p0, p1, p3, p2)
  else (result, p0, p1, p2, p3)

def sort5 (p0 p1 p2 p3 p4 : α) : Nat × α × α × α × α × α :=
  let (result, p0, p1, p2, p3) := sort4 p0 p1 p2 p3
  if p4 < p3 then
    if p4 < p2 then
      let tmp := p4
      if tmp < p1 then
        if tmp < p0 then (result + 4, tmp, p0, p1, p2, p3)
        else (result + 3, p0, tmp, p1, p2, p3)
      else (result + 2, p0, p1, tmp, p2, p3)
    else (result + 1, p0, p1, p2, p4, p3)
  else (result, p0, p1, p2, p3, p4)

/-- What is left behind the pointers. -/
def sorted3 (p0 p1 p2 : α) : List α :=
  let r := (sort3 p0 p1 p2).2
  [r.1, r.2.1, r.2.2]

def sorted4 (p0 p1 p2 p3 : α) : List α :=
  let r := (sort4 p0 p1 p2 p3).2
  [r.1, r.2.1, r.2.2.1, r.2.2.2]

def sorted5 (p0 p1 p2 p3 p4 : α) : List α :=
  let r := (sort5 p0 p1 p2 p3 p4).2
  [r.1, r.2.1, r.2.2.1, r.2.2.2.1, r.2.2.2.2]

end

variable {α : Type} [LinearOrder α]

theorem sort2_spec (x y : α) :
    (if y < x then [y, x] else [x, y]).Pairwise (· ≤ ·) ∧
      (if y < x then [y, x] else [x, y]).Perm [x, y] := by
  split
  next h => exact ⟨by simpa using h.le, .swap x y []⟩
  next h => exact ⟨by simpa using h, .refl _⟩

theorem sort3_spec (p0 p1 p2 : α) :
    (sorted3 p0 p1 p2).Pairwise (· ≤ ·) ∧ (sorted3 p0 p1 p2).Perm [p0, p1, p2] := by
  have sorted : ∀ {x y z : α}, x ≤ y → y ≤ z → [x, y, z].Pairwise (· ≤ ·) := by
    intro x y z hxy hyz
    simp [hxy, hyz, hxy.trans hyz]
  have rotate : [p1, p2, p0].Perm [p0, p1, p2] :=
    (List.perm_append_comm : ([p1, p2] ++ [p0]).Perm ([p0] ++ [p1, p2]))
  have rotate' : [p2, p0, p1].Perm [p0, p1, p2] :=
    (List.perm_append_comm : ([p2] ++ [p0, p1]).Perm ([p0, p1] ++ [p2]))
  unfold sorted3 sort3
  split
  next h10 =>
    split
    next h21 => exact ⟨sorted h21.le h10.le, List.reverse_perm [p0, p1, p2]⟩
    next h21 =>
      split
      next h20 => exact ⟨sorted (not_lt.mp h21) h20.le, rotate⟩
      next h20 => exact ⟨sorted h10.le (not_lt.mp h20), .swap p0 p1 [p2]⟩
  next h10 =>
    split
    next h20 => exact ⟨sorted h20.le (not_lt.mp h10), rotate'⟩
    next h20 =>
      split
      next h21 => exact ⟨sorted (not_lt.mp h20) h21.le, (List.Perm.swap p1 p2 []).cons p0⟩
      next h21 => exact ⟨sorted (not_lt.mp h10) (not_lt.mp h21), .refl _⟩

/-- A value goes behind the last one that is not greater. -/
theorem inserted_of (l r : List α) {tmp : α} (hs : (l ++ r).Pairwise (· ≤ ·))
    (hl : ∀ x ∈ l.getLast?, ¬ tmp < x) (hr : ∀ x ∈ r.head?, tmp < x) :
    Inserted (l ++ r) tmp l r := by
  obtain ⟨hsl, hsr, -⟩ := List.pairwise_append.mp hs
  refine ⟨rfl, fun y hy => ?_, fun y hy => ?_⟩
  · have hne := List.ne_nil_of_mem hy
    obtain ⟨q, x, rfl⟩ : ∃ q x, l = q ++ [x] := ⟨_, _, (List.dropLast_concat_getLast hne).symm⟩
    have hx : x ≤ tmp := not_lt.mp (hl x (by simp))
    rcases List.mem_append.mp hy with hy | hy
    · exact ((List.pairwise_append.mp hsl).2.2 y hy x List.mem_cons_self).trans hx
    · rwa [List.mem_singleton.mp hy]
  · cases r with
    | nil => cases hy
    | cons x r =>
      have hx : tmp < x := hr x rfl
      rcases List.mem_cons.mp hy with rfl | hy
      · exact hx
      · exact hx.trans_le ((List.pairwise_cons.mp hsr).1 y hy)

/-- The last value is inserted between the others. -/
theorem sorted4_inserted (p0 p1 p2 p3 : α) :
    ∃ l r, sorted4 p0 p1 p2 p3 = l ++ p3 :: r ∧ Inserted (sorted3 p0 p1 p2) p3 l r := by
  obtain ⟨hs, -⟩ := sort3_spec p0 p1 p2
  unfold sorted4 sort4
  unfold sorted3 at hs ⊢
  generalize sort3 p0 p1 p2 = s at *
  obtain ⟨n, q0, q1, q2⟩ := s
  dsimp only at hs ⊢
  split
  next h2 =>
    split
    next h1 =>
      split
      next h0 => exact ⟨_, _, rfl, inserted_of [] [q0, q1, q2] hs (by simp) (by simpa using h0)⟩
      next h0 =>
        exact ⟨_, _, rfl, inserted_of [q0] [q1, q2] hs (by simpa using h0) (by simpa using h1)⟩
    next h1 =>
      exact ⟨_, _, rfl, inserted_of [q0, q1] [q2] hs (by simpa using h1) (by simpa using h2)⟩
  next h2 => exact ⟨_, _, rfl, inserted_of [q0, q1, q2] [] hs (by simpa using h2) (by simp)⟩

theorem sort4_spec (p0 p1 p2 p3 : α) :
    (sorted4 p0 p1 p2 p3).Pairwise (· ≤ ·) ∧ (sorted4 p0 p1 p2 p3).Perm [p0, p1, p2, p3] := by
  obtain ⟨hs, hp⟩ := sort3_spec p0 p1 p2
  obtain ⟨l, r, he, hi⟩ := sorted4_inserted p0 p1 p2 p3
  have hperm := hi.perm []
  rw [List.append_nil] at hperm
  rw [he]
  exact ⟨hi.sorted hs, hperm.trans (hp.append_right [p3])⟩

theorem sorted5_inserted (p0 p1 p2 p3 p4 : α) :
    ∃ l r, sorted5 p0 p1 p2 p3 p4 = l ++ p4 :: r ∧ Inserted (sorted4 p0 p1 p2 p3) p4 l r := by
  obtain ⟨hs, -⟩ := sort4_spec p0 p1 p2 p3
  unfold sorted5 sort5
  unfold sorted4 at hs ⊢
  generalize sort4 p0 p1 p2 p3 = s at *
  obtain ⟨n, q0, q1, q2, q3⟩ := s
  dsimp only at hs ⊢
  split
  next h3 =>
    split
    next h2 =>
      split
      next h1 =>
        split
        next h0 =>
          exact ⟨_, _, rfl, inserted_of [] [q0, q1, q2, q3] hs (by simp) (by simpa using h0)⟩
        next h0 =>
          exact ⟨_, _, rfl, inserted_of [q0] [q1, q2, q3] hs
            (by simpa using h0) (by simpa using h1)⟩
      next h1 =>
        exact ⟨_, _, rfl, inserted_of [q0, q1] [q2, q3] hs (by simpa using h1) (by simpa using h2)⟩
    next h2 =>
      exact ⟨_, _, rfl, inserted_of [q0, q1, q2] [q3] hs (by simpa using h2) (by simpa using h3)⟩
  next h3 => exact ⟨_, _, rfl, inserted_of [q0, q1, q2, q3] [] hs (by simpa using h3) (by simp)⟩

theorem sort5_spec (p0 p1 p2 p3 p4 : α) :
    (sorted5 p0 p1 p2 p3 p4).Pairwise (· ≤ ·) ∧
      (sorted5 p0 p1 p2 p3 p4).Perm [p0, p1, p2, p3, p4] := by
  obtain ⟨hs, hp⟩ := sort4_spec p0 p1 p2 p3
  obtain ⟨l, r, he, hi⟩ := sorted5_inserted p0 p1 p2 p3 p4
  have hperm := hi.perm []
  rw [List.append_nil] at hperm
  rw [he]
  exact ⟨hi.sorted hs, hperm.trans (hp.append_right [p4])⟩

end Kuhllib.Small
