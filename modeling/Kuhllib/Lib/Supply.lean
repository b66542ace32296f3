import Mathlib.Data.List.Basic
import Mathlib.Data.List.TakeDrop

/-!
# Elements that come in areas

A supply is the rest of the current area and what comes behind it: further areas, and single
elements that come without an area. Areas that come are not empty.

Elements are taken one by one, some of the current area at once, or the next area takes the place
of the current one. How the elements are divided makes no difference for what is taken, as long as
an area is used up before the next one takes its place.
-/

/-- What comes behind an area. -/
inductive Chunk (α : Type*)
  | area (c : α) (cs : List α)
  | single (c : α)
  deriving DecidableEq, Repr

def Chunk.elems {α : Type*} : Chunk α → List α
  | area c cs => c :: cs
  | single c => [c]

structure Supply (α : Type*) where
  current : List α
  next : List (Chunk α)
  deriving DecidableEq, Repr

namespace Supply

variable {α : Type*}

/-- All elements that are left. -/
def content (s : Supply α) : List α := s.current ++ s.next.flatMap Chunk.elems

/-- Elements of the current area are taken. -/
def skip (s : Supply α) (k : Nat) : Supply α := { s with current := s.current.drop k }

/-- The next area takes the place of the current one. -/
def fill (s : Supply α) : Supply α :=
  match s.next with
  | .area c cs :: next => ⟨c :: cs, next⟩
  | .single _ :: _ | [] => s

/-- The next element is looked at. -/
def peek (s : Supply α) : Supply α := if s.current.isEmpty then s.fill else s

/-- One element is taken. -/
def bump (s : Supply α) : Supply α :=
  match s.current, s.next with
  | _ :: cs, next => ⟨cs, next⟩
  | [], .area _ cs :: next => ⟨cs, next⟩
  | [], .single _ :: next => ⟨[], next⟩
  | [], [] => s

/-- Elements are taken one by one. -/
def drop (s : Supply α) : Nat → Supply α
  | 0 => s
  | k + 1 => s.bump.drop k

/-- The next element comes without an area. -/
def single_next (s : Supply α) : Bool :=
  match s.current, s.next with
  | [], .single _ :: _ => true
  | _, _ => false

variable {s : Supply α} {k : Nat}

/-- The current area is used up: the end, an area that comes, or a single element. -/
theorem cases_next (h : s.current = []) :
    (s = ⟨[], []⟩) ∨ (∃ c cs next, s = ⟨[], .area c cs :: next⟩) ∨
      ∃ c next, s = ⟨[], .single c :: next⟩ := by
  obtain ⟨current, next⟩ := s
  obtain rfl : current = [] := h
  cases next with
  | nil => exact .inl rfl
  | cons chunk next =>
    cases chunk with
    | area c cs => exact .inr (.inl ⟨c, cs, next, rfl⟩)
    | single c => exact .inr (.inr ⟨c, next, rfl⟩)

/-! ## The content -/

theorem content_fill (h : s.current = []) : s.fill.content = s.content := by
  rcases cases_next h with rfl | ⟨c, cs, next, rfl⟩ | ⟨c, next, rfl⟩ <;> rfl

theorem content_peek (s : Supply α) : s.peek.content = s.content := by
  unfold peek
  split
  · next h => exact content_fill (List.isEmpty_iff.mp h)
  · rfl

theorem content_bump (s : Supply α) : s.bump.content = s.content.tail := by
  obtain ⟨current, next⟩ := s
  cases current with
  | cons c cs => rfl
  | nil =>
    rcases cases_next (s := ⟨[], next⟩) rfl with h | ⟨c, cs, rest, h⟩ | ⟨c, rest, h⟩ <;>
      cases h <;> rfl

theorem content_drop (s : Supply α) (k : Nat) : (s.drop k).content = s.content.drop k := by
  induction k generalizing s with
  | zero => rfl
  | succ k ih =>
    show (s.bump.drop k).content = _
    rw [ih, content_bump, ← List.drop_one, List.drop_drop, Nat.add_comm]

theorem skip_eq_drop (h : k ≤ s.current.length) : s.skip k = s.drop k := by
  induction k generalizing s with
  | zero => rfl
  | succ k ih =>
    obtain ⟨current, next⟩ := s
    cases current with
    | nil => cases h
    | cons c cs => exact ih (s := ⟨cs, next⟩) (Nat.le_of_succ_le_succ h)

theorem current_drop (h : k ≤ s.current.length) : (s.drop k).current = s.current.drop k := by
  rw [← skip_eq_drop h]
  rfl

/-- Something is left of the current area. -/
theorem current_within (h : k < s.current.length) : (s.drop k).current ≠ [] := by
  rw [current_drop (Nat.le_of_lt h)]
  exact fun hnil => Nat.not_le_of_lt h (List.drop_eq_nil_iff.mp hnil)

/-- The current area is used up. -/
theorem current_used (s : Supply α) : (s.drop s.current.length).current = [] := by
  rw [current_drop (Nat.le_refl _), List.drop_length]

theorem content_skip (h : k ≤ s.current.length) : (s.skip k).content = s.content.drop k := by
  rw [skip_eq_drop h, content_drop]

theorem length_current_le (s : Supply α) : s.current.length ≤ s.content.length :=
  (List.prefix_append _ _).length_le

theorem take_content (h : k ≤ s.current.length) : s.content.take k = s.current.take k :=
  List.take_append_of_le_length h

/-! ## What is taken -/

theorem drop_add (s : Supply α) (j k : Nat) : s.drop (j + k) = (s.drop j).drop k := by
  induction j generalizing s with
  | zero => rw [Nat.zero_add]; rfl
  | succ j ih =>
    rw [Nat.succ_add]
    exact ih s.bump

/-- The next area is what is taken from, anyway. -/
theorem bump_fill (h : s.current = []) : s.fill.bump = s.bump := by
  rcases cases_next h with rfl | ⟨c, cs, next, rfl⟩ | ⟨c, next, rfl⟩ <;> rfl

theorem drop_fill (h : s.current = []) (hk : 0 < k) : s.fill.drop k = s.drop k := by
  cases k with
  | zero => cases hk
  | succ k => exact congrArg (drop · k) (bump_fill h)

theorem peek_of_ne (h : s.current ≠ []) : s.peek = s :=
  if_neg fun he => h (List.isEmpty_iff.mp he)

theorem peek_of_nil (h : s.current = []) : s.peek = s.fill := if_pos (List.isEmpty_iff.mpr h)

theorem peek_peek (s : Supply α) : s.peek.peek = s.peek := by
  by_cases h : s.current = []
  · rw [peek_of_nil h]
    rcases cases_next h with rfl | ⟨c, cs, next, rfl⟩ | ⟨c, next, rfl⟩ <;> rfl
  · rw [peek_of_ne h, peek_of_ne h]

theorem bump_peek (s : Supply α) : s.peek.bump = s.bump := by
  by_cases h : s.current = []
  · rw [peek_of_nil h, bump_fill h]
  · rw [peek_of_ne h]

theorem drop_peek (s : Supply α) (hk : 0 < k) : s.peek.drop k = s.drop k := by
  by_cases h : s.current = []
  · rw [peek_of_nil h, drop_fill h hk]
  · rw [peek_of_ne h]

theorem single_next_peek (s : Supply α) : s.peek.single_next = s.single_next := by
  by_cases h : s.current = []
  · rw [peek_of_nil h]
    rcases cases_next h with rfl | ⟨c, cs, next, rfl⟩ | ⟨c, next, rfl⟩ <;> rfl
  · rw [peek_of_ne h]

theorem single_next_of_ne (h : s.current ≠ []) : s.single_next = false := by
  obtain ⟨current, next⟩ := s
  cases current with
  | nil => exact absurd rfl h
  | cons c cs => rfl

/-- Behind the current area there is an area, unless there is a single element or nothing. -/
theorem single_next_of_used (h : s.current = []) (hcontent : s.content ≠ [])
    (hfill : s.peek.current = []) : s.single_next = true := by
  rw [peek_of_nil h] at hfill
  rcases cases_next h with rfl | ⟨c, cs, next, rfl⟩ | ⟨c, next, rfl⟩
  · exact absurd rfl hcontent
  · cases hfill
  · rfl

theorem single_next_of_end (h : s.content = []) : s.single_next = false := by
  rcases cases_next (List.append_eq_nil_iff.mp h).1 with rfl | ⟨c, cs, next, rfl⟩ | ⟨c, next, rfl⟩
  · rfl
  · rfl
  · cases h

/-! ## Areas one after the other -/

/-- The current area is left out, and the next element is looked at. -/
def behind (s : Supply α) : Supply α := peek ⟨[], s.next⟩

/-- No element comes without an area. -/
def AreasOnly (s : Supply α) : Prop := ∀ c, Chunk.single c ∉ s.next

theorem content_behind (s : Supply α) : s.current ++ s.behind.content = s.content := by
  rw [behind, content_peek]
  rfl

theorem areasOnly_behind (s : Supply α) : s.behind.AreasOnly ↔ s.AreasOnly := by
  obtain ⟨current, next⟩ := s
  cases next with
  | nil => exact Iff.rfl
  | cons chunk next =>
    cases chunk with
    | single c => exact Iff.rfl
    | area c cs => simp [behind, peek, fill, AreasOnly]

theorem areasOnly_peek (s : Supply α) : s.peek.AreasOnly ↔ s.AreasOnly := by
  by_cases h : s.current = []
  · have hs : s.behind = s.peek := congrArg peek (show (⟨[], s.next⟩ : Supply α) = s by rw [← h])
    rw [← hs, areasOnly_behind]
  · rw [peek_of_ne h]

theorem content_of_not_areasOnly (h : ¬s.AreasOnly) : s.content ≠ [] := by
  intro hnil
  refine h fun c hc => ?_
  have hempty := List.flatMap_eq_nil_iff.mp (List.append_eq_nil_iff.mp hnil).2 _ hc
  cases hempty

/-- If only areas come, there is one after the elements have been looked at. -/
theorem current_of_areasOnly (h : s.AreasOnly) (hpeek : s.peek = s) (hmore : s.content ≠ []) :
    s.current ≠ [] := by
  intro hcurrent
  rcases cases_next hcurrent with rfl | ⟨c, cs, next, rfl⟩ | ⟨c, next, rfl⟩
  · exact hmore rfl
  · cases congrArg current hpeek
  · exact h c List.mem_cons_self

/-- There is one area less to come, or nothing is left. -/
theorem length_behind (h : s.AreasOnly) :
    s.behind.content = [] ∨ s.behind.next.length < s.next.length := by
  obtain ⟨current, next⟩ := s
  cases next with
  | nil => exact .inl rfl
  | cons chunk next =>
    cases chunk with
    | single c => exact absurd List.mem_cons_self (h c)
    | area c cs => exact .inr (Nat.lt_succ_self _)

end Supply
