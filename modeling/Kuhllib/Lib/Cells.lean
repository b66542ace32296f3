import Mathlib.Data.List.Basic

/-!
# Arrays of cells with checked accesses

An array is a list of cells; what is read or written has to be inside of it. The rules say
what an access does to an array that is given in parts.
-/

namespace Cells

universe u

variable {γ : Type u}

/-- The cells from `i` on become `ys`. -/
def put (b : List γ) (i : ℕ) (ys : List γ) : Option (List γ) :=
  if i + ys.length ≤ b.length then some (b.take i ++ ys ++ b.drop (i + ys.length)) else none

/-- The `n` cells from `i` on. -/
def get (b : List γ) (i n : ℕ) : Option (List γ) :=
  if i + n ≤ b.length then some ((b.drop i).take n) else none

/-- `n` cells go from `src` to `dest`. The two ranges may overlap. -/
def move (b : List γ) (dest src n : ℕ) : Option (List γ) := do put b dest (← get b src n)

variable {b p o ys q : List γ} {i j n : ℕ}

/-- A list in three parts. -/
theorem exists_append {xs : List γ} (hij : i ≤ j) (hj : j ≤ xs.length) :
    ∃ l x r : List γ, xs = l ++ (x ++ r) ∧ i = l.length ∧ j = l.length + x.length := by
  refine ⟨xs.take i, (xs.drop i).take (j - i), (xs.drop i).drop (j - i), ?_, ?_, ?_⟩
  · rw [List.take_append_drop, List.take_append_drop]
  · rw [List.length_take]
    omega
  · rw [List.length_take, List.length_take, List.length_drop]
    omega

theorem put_append (hb : b = p ++ (o ++ q)) (hi : i = p.length)
    (hlength : ys.length = o.length) : put b i ys = some (p ++ (ys ++ q)) := by
  subst hb hi
  have hle : p.length + ys.length ≤ (p ++ (o ++ q)).length := by
    simp only [List.length_append]
    omega
  rw [put, if_pos hle, List.take_left, ← List.drop_drop, List.drop_left, hlength,
    List.drop_left, List.append_assoc]

theorem get_append (hb : b = p ++ (ys ++ q)) (hi : i = p.length) (hn : n = ys.length) :
    get b i n = some ys := by
  subst hb hi hn
  have hle : p.length + ys.length ≤ (p ++ (ys ++ q)).length := by
    simp only [List.length_append]
    omega
  rw [get, if_pos hle, List.drop_left, List.take_left]

theorem move_append {s t : List γ} (hget : b = s ++ (ys ++ t))
    (hput : b = p ++ (o ++ q)) (hj : j = s.length) (hi : i = p.length)
    (hn : n = ys.length) (hlength : ys.length = o.length) :
    move b i j n = some (p ++ (ys ++ q)) := by
  rw [move, get_append hget hj hn]
  exact put_append hput hi hlength

end Cells
