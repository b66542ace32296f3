import Mathlib.Data.List.Nodup

/-!
# Singly linked chains

`Path next p xs` says that following `next` from the pointer `p` visits the
cells `xs` and then ends in a null pointer.
-/

namespace Chain

universe u

variable {α : Type u}

/-- The cells visited from `p` are `xs`, followed by null. -/
def Path (next : α → Option α) : Option α → List α → Prop
  | p, [] => p = none
  | p, x :: xs => p = some x ∧ Path next (next x) xs

theorem Path.congr {next next' : α → Option α} {p : Option α} {xs : List α}
    (h : Path next p xs) (hn : ∀ x ∈ xs, next' x = next x) : Path next' p xs := by
  induction xs generalizing p with
  | nil => exact h
  | cons x xs ih =>
    refine ⟨h.1, ?_⟩
    rw [hn x (by simp)]
    exact ih h.2 fun y hy => hn y (List.mem_cons_of_mem _ hy)

/-- The rest of a chain, from any of its cells. -/
theorem Path.suffix {next : α → Option α} {p : Option α} {xs ys : List α} {y : α}
    (h : Path next p (xs ++ y :: ys)) : Path next (next y) ys := by
  induction xs generalizing p with
  | nil => exact h.2
  | cons x xs ih => exact ih h.2

variable [DecidableEq α]

/-- Writing the link of a cell outside the chain keeps the chain. -/
theorem Path.update {next : α → Option α} {p q : Option α} {xs : List α} {x : α}
    (h : Path next p xs) (hx : x ∉ xs) : Path (Function.update next x q) p xs :=
  h.congr fun y hy => Function.update_of_ne (by rintro rfl; exact hx hy) _ _

/-- A new first cell. -/
theorem Path.push {next : α → Option α} {p : Option α} {xs : List α} {x : α}
    (h : Path next p xs) (hx : x ∉ xs) : Path (Function.update next x p) (some x) (x :: xs) :=
  ⟨rfl, by simpa using h.update hx⟩

/-- Bypassing the cell after `n`. -/
theorem Path.unlink {next : α → Option α} {p : Option α} {xs ys : List α} {n c : α}
    (h : Path next p (xs ++ n :: c :: ys)) (nd : (xs ++ n :: c :: ys).Nodup) :
    Path (Function.update next n (next c)) p (xs ++ n :: ys) := by
  induction xs generalizing p with
  | nil =>
    refine ⟨h.1, ?_⟩
    have hn : n ∉ ys := fun hm => (List.nodup_cons.mp nd).1 (List.mem_cons_of_mem _ hm)
    simpa using h.2.2.update hn
  | cons x xs ih =>
    have hx : x ≠ n := by rintro rfl; simp at nd
    refine ⟨h.1, ?_⟩
    rw [Function.update_of_ne hx]
    exact ih h.2 (List.nodup_cons.mp nd).2

end Chain
