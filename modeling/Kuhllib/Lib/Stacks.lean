import Mathlib.Data.List.Count
import Mathlib.Logic.Function.Basic

/-!
# Call stacks of several threads

Every thread has a stack of frames, innermost first. A thread makes a step by
replacing its innermost frame by some other frames. The lemmas say how this
changes the number of frames of a given kind and which frames there are.

`Sole P st o`: there is at most one frame of the kind `P`, and `o` is its thread.
The rules say how such a frame is kept, acquired and released.
-/

namespace Stacks

universe u v

variable {τ : Type u} {φ : Type v} [DecidableEq τ]

/-- Thread `t` now has the stack `fs`. -/
abbrev set (st : τ → List φ) (t : τ) (fs : List φ) : τ → List φ := Function.update st t fs

/-- The frames after a step are the new ones and the ones below, or belong to
another thread. -/
theorem mem_set {st : τ → List φ} {t t' : τ} {g : φ} {fs gs : List φ}
    (hg : g ∈ set st t (gs ++ fs) t') :
    (t' = t ∧ g ∈ gs) ∨ (t' = t ∧ g ∈ fs) ∨ (t' ≠ t ∧ g ∈ st t') := by
  by_cases ht : t' = t
  · subst ht
    simp only [set, Function.update_self, List.mem_append] at hg
    exact hg.imp (⟨rfl, ·⟩) fun h => .inl ⟨rfl, h⟩
  · exact .inr (.inr ⟨ht, by simpa [set, ht] using hg⟩)

/-- How many frames of a kind there are after a step. -/
theorem count_set {st : τ → List φ} {t : τ} {f : φ} {fs : List φ} (P : φ → Bool)
    (h : st t = f :: fs) (gs : List φ) (t' : τ) :
    (set st t (gs ++ fs) t').countP P + (if t' = t then [f].countP P else 0) =
      (st t').countP P + (if t' = t then gs.countP P else 0) := by
  by_cases ht : t' = t
  · subst ht
    simp only [set, Function.update_self, h, List.countP_append, if_true]
    rw [← List.singleton_append (l := fs), List.countP_append]
    omega
  · simp [set, ht]

/-- A step that removes as many frames of a kind as it adds. -/
theorem count_set_same {st : τ → List φ} {t : τ} {f : φ} {fs gs : List φ} {P : φ → Bool}
    (h : st t = f :: fs) (he : gs.countP P = [f].countP P) (t' : τ) :
    (set st t (gs ++ fs) t').countP P = (st t').countP P := by
  have := count_set P h gs t'
  split at this <;> omega

/-- Pushing frames on top of a stack. -/
theorem count_push (st : τ → List φ) (t : τ) (gs : List φ) (P : φ → Bool) (t' : τ) :
    (set st t (gs ++ st t) t').countP P =
      (st t').countP P + (if t' = t then gs.countP P else 0) := by
  by_cases ht : t' = t
  · subst ht
    simp [set, Nat.add_comm]
  · simp [set, ht]

theorem mem_push {st : τ → List φ} {t t' : τ} {g : φ} {gs : List φ} :
    g ∈ set st t (gs ++ st t) t' ↔ (t' = t ∧ g ∈ gs) ∨ g ∈ st t' := by
  by_cases ht : t' = t
  · subst ht
    simp [set]
  · simp [set, ht]

/-! ## Frames of which there is at most one -/

def Sole (P : φ → Bool) (st : τ → List φ) (o : Option τ) : Prop :=
  ∀ t, (st t).countP P = if o = some t then 1 else 0

section Sole

variable {P : φ → Bool} {st : τ → List φ} {o : Option τ} {t : τ} {f : φ} {fs gs : List φ}

theorem Sole.owner (h : Sole P st o) (hf : f ∈ st t) (hP : P f = true) : o = some t := by
  have hpos : 0 < (st t).countP P := List.countP_pos_iff.mpr ⟨f, hf, hP⟩
  rw [h t] at hpos
  split at hpos
  · next ho => exact ho
  · omega

/-- The owner has such a frame. -/
theorem Sole.exists_mem (h : Sole P st (some t)) : ∃ f ∈ st t, P f = true := by
  have hcount := h t
  rw [if_pos rfl] at hcount
  exact List.countP_pos_iff.mp (by omega)

/-- There is no other such frame below the innermost one. -/
theorem Sole.below (h : Sole P st o) (hst : st t = f :: fs) (hP : P f = true) :
    ∀ g ∈ fs, P g = false := by
  have hcount := h t
  rw [h.owner (by rw [hst]; exact List.mem_cons_self) hP, if_pos rfl, hst,
    List.countP_cons_of_pos hP] at hcount
  intro g hg
  by_contra hg'
  have : 0 < fs.countP P := List.countP_pos_iff.mpr ⟨g, hg, by simpa using hg'⟩
  omega

theorem Sole.keep (h : Sole P st o) (hst : st t = f :: fs) (he : gs.countP P = [f].countP P) :
    Sole P (set st t (gs ++ fs)) o := fun t' => by
  rw [count_set_same hst he, h t']

theorem Sole.acquire (h : Sole P st none) (hst : st t = f :: fs) (hf : P f = false)
    (hgs : gs.countP P = 1) : Sole P (set st t (gs ++ fs)) (some t) := fun t' => by
  have hcount := count_set P hst gs t'
  rw [h t', hgs, List.countP_cons_of_neg (by simp [hf]), List.countP_nil] at hcount
  rcases eq_or_ne t' t with rfl | hne
  · simpa using hcount
  · simpa [hne, hne.symm] using hcount

theorem Sole.release (h : Sole P st o) (hst : st t = f :: fs) (hf : P f = true)
    (hgs : gs.countP P = 0) : Sole P (set st t (gs ++ fs)) none := fun t' => by
  have hcount := count_set P hst gs t'
  rw [h t', hgs, h.owner (by rw [hst]; exact List.mem_cons_self) hf, List.countP_cons_of_pos hf,
    List.countP_nil] at hcount
  rcases eq_or_ne t' t with rfl | hne
  · simpa using hcount
  · simpa [hne, hne.symm] using hcount

theorem Sole.push (h : Sole P st o) (hgs : gs.countP P = 0) : Sole P (set st t (gs ++ st t)) o :=
  fun t' => by rw [count_push, h t', hgs, ite_self, Nat.add_zero]

theorem Sole.push_acquire (h : Sole P st none) (hgs : gs.countP P = 1) :
    Sole P (set st t (gs ++ st t)) (some t) := fun t' => by
  rw [count_push, h t', hgs]
  rcases eq_or_ne t' t with rfl | hne
  · simp
  · simp [hne, hne.symm]

end Sole

end Stacks
