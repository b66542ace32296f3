import Mathlib.Tactic.Common

/-!
# Iterators

`next` takes an iterator to what it refers to and to the following iterator. It fails at the
end, and where the iterator refers to nothing. `walk` are some steps and what has been visited.
-/

namespace Iteration

variable {ι α : Type*} {next : ι → Option (α × ι)} {it it' it'' : ι} {x : α} {xs ys : List α}
  {j k : Nat}

def walk (next : ι → Option (α × ι)) : Nat → ι → Option (List α × ι)
  | 0, it => some ([], it)
  | k + 1, it => do
    let (x, it) ← next it
    let (xs, it) ← walk next k it
    some (x :: xs, it)

theorem walk_succ : walk next (k + 1) it = some (ys, it'') ↔
    ∃ x it' xs, next it = some (x, it') ∧ walk next k it' = some (xs, it'') ∧ ys = x :: xs := by
  simp only [walk, Option.bind_eq_bind, Option.bind_eq_some_iff, Option.some.injEq,
    Prod.mk.injEq, Prod.exists]
  constructor
  · rintro ⟨x, it', hx, xs, it₂, hwalk, rfl, rfl⟩
    exact ⟨x, it', xs, hx, hwalk, rfl⟩
  · rintro ⟨x, it', xs, hx, hwalk, rfl⟩
    exact ⟨x, it', hx, xs, it'', hwalk, rfl, rfl⟩

theorem walk_cons (h : next it = some (x, it')) (h' : walk next k it' = some (xs, it'')) :
    walk next (k + 1) it = some (x :: xs, it'') :=
  walk_succ.mpr ⟨x, it', xs, h, h', rfl⟩

theorem walk_add (h : walk next j it = some (xs, it')) (h' : walk next k it' = some (ys, it'')) :
    walk next (j + k) it = some (xs ++ ys, it'') := by
  induction j generalizing it xs with
  | zero =>
    cases h
    rw [Nat.zero_add]
    exact h'
  | succ j ih =>
    obtain ⟨x, it₁, xs, hx, hwalk, rfl⟩ := walk_succ.mp h
    rw [Nat.add_right_comm]
    exact walk_cons hx (ih hwalk)

theorem walk_stuck (hstuck : next it = none) (h : walk next k it = some (xs, it')) :
    k = 0 ∧ xs = [] ∧ it' = it := by
  cases k with
  | zero =>
    cases h
    exact ⟨rfl, rfl, rfl⟩
  | succ k =>
    obtain ⟨x, it₁, xs, hx, -⟩ := walk_succ.mp h
    cases hstuck.symm.trans hx

/-- There is one walk to a place where there is no step. -/
theorem walk_unique (h : walk next j it = some (xs, it')) (hstuck : next it' = none)
    (h' : walk next k it = some (ys, it'')) (hstuck' : next it'' = none) :
    j = k ∧ xs = ys ∧ it' = it'' := by
  induction j generalizing it xs k ys with
  | zero =>
    cases h
    obtain ⟨rfl, rfl, rfl⟩ := walk_stuck hstuck h'
    exact ⟨rfl, rfl, rfl⟩
  | succ j ih =>
    obtain ⟨x, it₁, xs, hx, hwalk, rfl⟩ := walk_succ.mp h
    cases k with
    | zero =>
      cases h'
      cases hstuck'.symm.trans hx
    | succ k =>
      obtain ⟨y, it₂, ys, hy, hwalk', rfl⟩ := walk_succ.mp h'
      cases hx.symm.trans hy
      obtain ⟨rfl, rfl, rfl⟩ := ih hwalk hwalk'
      exact ⟨rfl, rfl, rfl⟩

end Iteration
