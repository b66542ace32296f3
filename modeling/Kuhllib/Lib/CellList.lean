import Mathlib.Data.List.Nodup

/-!
# Lists linked through locations

A location is a variable that holds a node or nothing. A list begins at a location, and
each node has a location for its successor. A node knows the location it is held by, so
it can be taken out without a search.
-/

namespace CellList

variable {Loc α : Type*}

def Listed (next : α → Loc) (cell : Loc → Option α) (prev : α → Option Loc) :
    Loc → List α → Prop
  | l, [] => cell l = none
  | l, x :: xs => cell l = some x ∧ prev x = some l ∧ Listed next cell prev (next x) xs

variable {next : α → Loc} {cell cell' : Loc → Option α} {prev prev' : α → Option Loc} {l : Loc}
  {xs ys : List α} {n : α}

theorem Listed.head (h : Listed next cell prev l xs) : cell l = xs.head? := by
  cases xs with
  | nil => exact h
  | cons x xs => exact h.1

/-- A list is what its locations and nodes make of it. -/
theorem Listed.congr (h : Listed next cell prev l xs) (hl : cell' l = cell l)
    (hcell : ∀ x ∈ xs, cell' (next x) = cell (next x)) (hprev : ∀ x ∈ xs, prev' x = prev x) :
    Listed next cell' prev' l xs := by
  induction xs generalizing l with
  | nil => exact hl.trans h
  | cons x xs ih =>
    exact ⟨hl.trans h.1, (hprev x List.mem_cons_self).trans h.2.1,
      ih h.2.2 (hcell x List.mem_cons_self) (fun y hy => hcell y (List.mem_cons_of_mem x hy))
        fun y hy => hprev y (List.mem_cons_of_mem x hy)⟩

/-- The first node changes its location. -/
theorem Listed.move {l' : Loc} (h : Listed next cell prev l xs) (hl : cell' l' = xs.head?)
    (hhead : ∀ y, xs.head? = some y → prev' y = some l')
    (hcell : ∀ x ∈ xs, cell' (next x) = cell (next x))
    (hprev : ∀ x ∈ xs, xs.head? ≠ some x → prev' x = prev x) (hnodup : xs.Nodup) :
    Listed next cell' prev' l' xs := by
  cases xs with
  | nil => exact hl
  | cons y ys =>
    refine ⟨hl, hhead y rfl, h.2.2.congr (hcell y List.mem_cons_self)
      (fun x hx => hcell x (List.mem_cons_of_mem y hx)) fun x hx => ?_⟩
    refine hprev x (List.mem_cons_of_mem y hx) fun he => ?_
    exact (List.nodup_cons.mp hnodup).1 (Option.some.inj he ▸ hx)

/-- A node goes out of a list, and its successor to the location that held it. -/
theorem Listed.remove (h : Listed next cell prev l (xs ++ n :: ys))
    (hnodup : (xs ++ n :: ys).Nodup) (hnext : Function.Injective next)
    (hl : ∀ x ∈ xs ++ n :: ys, next x ≠ l) :
    ∃ m, prev n = some m ∧ cell (next n) = ys.head? ∧ (m = l ∨ ∃ x ∈ xs, m = next x) ∧
      ∀ cell' prev', cell' m = ys.head? → (∀ k, k ≠ m → cell' k = cell k) →
        (∀ y, ys.head? = some y → prev' y = some m) →
        (∀ y, y ≠ n → ys.head? ≠ some y → prev' y = prev y) →
        Listed next cell' prev' l (xs ++ ys) := by
  induction xs generalizing l with
  | nil =>
    obtain ⟨hn, hys⟩ := List.nodup_cons.mp hnodup
    refine ⟨l, h.2.1, h.2.2.head, .inl rfl, fun cell' prev' hm hcell hhead hprev => ?_⟩
    refine h.2.2.move hm hhead (fun x hx => hcell _ (hl x (List.mem_cons_of_mem n hx)))
      (fun x hx hne => hprev x ?_ hne) hys
    rintro rfl
    exact hn hx
  | cons x xs ih =>
    obtain ⟨hx, hnodup⟩ := List.nodup_cons.mp hnodup
    have hlx : ∀ y ∈ xs ++ n :: ys, next y ≠ next x := by
      intro y hy he
      exact hx (hnext he ▸ hy)
    obtain ⟨m, hm, hn, hat, hremove⟩ := ih h.2.2 hnodup hlx
    refine ⟨m, hm, hn, .inr ?_, fun cell' prev' hcm hcell hhead hprev => ?_⟩
    · rcases hat with rfl | ⟨y, hy, rfl⟩
      · exact ⟨x, List.mem_cons_self, rfl⟩
      · exact ⟨y, List.mem_cons_of_mem x hy, rfl⟩
    · have hlm : l ≠ m := by
        rcases hat with rfl | ⟨y, hy, rfl⟩
        · exact (hl x List.mem_cons_self).symm
        · exact (hl y (List.mem_cons_of_mem x (List.mem_append_left _ hy))).symm
      have hxn : x ≠ n := by
        rintro rfl
        exact hx (List.mem_append_right _ List.mem_cons_self)
      have hxy : ys.head? ≠ some x := fun he =>
        hx (List.mem_append_right _ (List.mem_cons_of_mem n (List.mem_of_head? he)))
      exact ⟨(hcell l hlm).trans h.1, (hprev x hxn hxy).trans h.2.1,
        hremove cell' prev' hcm hcell hhead hprev⟩

end CellList
