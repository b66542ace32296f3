import Mathlib.Data.List.Basic

/-!
# Searching with cursors

An algorithm gets a cursor, an end point and a function that reads the value of a key. What
a cursor does at the end of its range is left open: the key and the step may be undefined
there.

Results:
1. `find_if_finds`, `mismatch_finds`: where the two loops stop.
2. `search_finds`: the first occurrence of the second range in the first one.
-/

namespace Kuhllib.Search

/-! ## 1. Cursors and their algorithms -/

/-- The operations of a cursor `C` whose end point is an `E` and whose values are read as
`T`: `read` is `readable(key(c))`. -/
structure Cursor (C E T : Type) where
  at_same_pos : C → E → Bool
  read : C → Option T
  step : C → Option C

variable {C C₁ C₂ E E₁ E₂ T T₁ T₂ : Type}

/-- The loop of `find_if`. -/
def find_if (ops : Cursor C E T) (predicate : T → Bool) (end' : E) : Nat → C → Option C
  | 0, _ => none
  | fuel + 1, it =>
    if ops.at_same_pos it end' then some it
    else do
      if predicate (← ops.read it) then return it
      find_if ops predicate end' fuel (← ops.step it)

/-- The loop of `mismatch`. -/
def mismatch (ops₁ : Cursor C₁ E₁ T₁) (ops₂ : Cursor C₂ E₂ T₂) (predicate : T₁ → T₂ → Bool)
    (end₁ : E₁) (end₂ : E₂) : Nat → C₁ → C₂ → Option (C₁ × C₂)
  | 0, _, _ => none
  | fuel + 1, cursor₁, cursor₂ =>
    if ops₁.at_same_pos cursor₁ end₁ || ops₂.at_same_pos cursor₂ end₂ then
      some (cursor₁, cursor₂)
    else do
      if predicate (← ops₁.read cursor₁) (← ops₂.read cursor₂) then
        mismatch ops₁ ops₂ predicate end₁ end₂ fuel (← ops₁.step cursor₁) (← ops₂.step cursor₂)
      else return (cursor₁, cursor₂)

/-- The loop of `search`: `first` is the value bound in `find_predicate`, `begin₂` the cursor
after it. `limit` bounds the two inner loops. -/
def search_loop (ops₁ : Cursor C₁ E₁ T₁) (ops₂ : Cursor C₂ E₂ T₂) (predicate : T₁ → T₂ → Bool)
    (end₁ : E₁) (end₂ : E₂) (first : T₂) (begin₂ : C₂) (limit : Nat) : Nat → C₁ → Option C₁
  | 0, _ => none
  | fuel + 1, cur₁ => do
    let cur₁ ← find_if ops₁ (predicate · first) end₁ limit cur₁
    if ops₁.at_same_pos cur₁ end₁ then return cur₁
    let begin₁ := cur₁
    let cur₁ ← ops₁.step cur₁
    let p ← mismatch ops₁ ops₂ predicate end₁ end₂ limit cur₁ begin₂
    if ops₂.at_same_pos p.2 end₂ then return begin₁
    else if ops₁.at_same_pos p.1 end₁ then return p.1
    search_loop ops₁ ops₂ predicate end₁ end₂ first begin₂ limit fuel cur₁

/-- `search`, each of its loops with `fuel` rounds. -/
def search (ops₁ : Cursor C₁ E₁ T₁) (ops₂ : Cursor C₂ E₂ T₂) (predicate : T₁ → T₂ → Bool)
    (fuel : Nat) (begin₁ : C₁) (end₁ : E₁) (begin₂ : C₂) (end₂ : E₂) : Option C₁ :=
  if ops₂.at_same_pos begin₂ end₂ then some begin₁
  else do
    let first ← ops₂.read begin₂
    let begin₂ ← ops₂.step begin₂
    search_loop ops₁ ops₂ predicate end₁ end₂ first begin₂ fuel fuel begin₁

/-! ## 2. Ranges -/

/-- The values from `c` up to the end point. Nothing is said about the key and the step of
the cursor at the end. -/
inductive Range (ops : Cursor C E T) (end' : E) : C → List T → Prop
  | empty {c : C} : ops.at_same_pos c end' = true → Range ops end' c []
  | cons {c c' : C} {x : T} {xs : List T} :
      ops.at_same_pos c end' = false → ops.read c = some x → ops.step c = some c' →
      Range ops end' c' xs → Range ops end' c (x :: xs)

/-- The cursor `k` steps on. -/
def Cursor.steps (ops : Cursor C E T) : Nat → C → Option C
  | 0, c => some c
  | k + 1, c => ops.step c >>= ops.steps k

/-- Each element of `ys` is matched, in order, by the elements of `xs` from position `k`. -/
def Occurs (predicate : T₁ → T₂ → Bool) (xs : List T₁) (ys : List T₂) (k : Nat) : Prop :=
  ∀ j y, ys[j]? = some y → ∃ x, xs[k + j]? = some x ∧ predicate x y = true

/-- Position `k` is the first occurrence of `ys`, or the end where there is none. -/
def IsFirst (predicate : T₁ → T₂ → Bool) (xs : List T₁) (ys : List T₂) (k : Nat) : Prop :=
  Occurs predicate xs ys k ∧ (∀ j < k, ¬ Occurs predicate xs ys j) ∨
    k = xs.length ∧ ∀ j, ¬ Occurs predicate xs ys j

/-- The cursor with no key and no step at the end of its range: what asks for one of them
there is undefined. -/
def Cursor.within (ops : Cursor C E T) (end' : E) : Cursor C E T where
  at_same_pos := ops.at_same_pos
  read c := if ops.at_same_pos c end' then none else ops.read c
  step c := if ops.at_same_pos c end' then none else ops.step c

namespace SearchLemmas

variable {ops : Cursor C E T} {end' : E} {c c' : C} {xs : List T}

@[simp] theorem steps_zero : ops.steps 0 c = some c := rfl

theorem steps_add {k l : Nat} {c'' : C} (hk : ops.steps k c = some c')
    (hl : ops.steps l c' = some c'') : ops.steps (k + l) c = some c'' := by
  induction k generalizing c with
  | zero =>
    obtain rfl : c = c' := by simpa using hk
    simpa using hl
  | succ k ih =>
    obtain ⟨d, hd, hk⟩ := Option.bind_eq_some_iff.1 hk
    rw [Nat.succ_add]
    exact Option.bind_eq_some_iff.2 ⟨d, hd, ih hk⟩

theorem range_at_end (h : Range ops end' c xs) : ops.at_same_pos c end' = xs.isEmpty := by
  cases h with
  | empty he => simpa using he
  | cons he => simpa using he

theorem range_of_not_at_end (h : Range ops end' c xs) (he : ops.at_same_pos c end' = false) :
    ∃ x xs' c', xs = x :: xs' ∧ ops.read c = some x ∧ ops.step c = some c' ∧
      Range ops end' c' xs' := by
  cases h with
  | empty h => simp [h] at he
  | cons _ hr hs h' => exact ⟨_, _, _, rfl, hr, hs, h'⟩

section Occurrence

variable {predicate : T₁ → T₂ → Bool} {xs : List T₁} {ys : List T₂} {y : T₂} {k n : Nat}

@[simp] theorem occurs_nil : Occurs predicate xs [] k := by
  intro j y h
  simp at h

theorem occurs_drop : Occurs predicate (xs.drop n) ys k ↔ Occurs predicate xs ys (n + k) := by
  simp [Occurs, Nat.add_assoc]

theorem occurs_cons_succ {x : T₁} :
    Occurs predicate (x :: xs) ys (k + 1) ↔ Occurs predicate xs ys k := by
  simp [Occurs, Nat.add_right_comm]

theorem occurs_cons :
    Occurs predicate xs (y :: ys) k ↔
      (∃ x, xs[k]? = some x ∧ predicate x y = true) ∧ Occurs predicate xs ys (k + 1) := by
  constructor
  · intro h
    refine ⟨by simpa using h 0 y rfl, fun j z hz => ?_⟩
    rw [Nat.add_right_comm]
    exact h (j + 1) z hz
  · rintro ⟨h0, h⟩ (_ | j) z hz
    · obtain rfl : y = z := by simpa using hz
      simpa using h0
    · have := h j z hz
      rwa [Nat.add_right_comm] at this

/-- An occurrence is inside the first range. -/
theorem occurs_fits (h : Occurs predicate xs (y :: ys) k) : k + ys.length < xs.length := by
  obtain ⟨x, hx, -⟩ := h ys.length ((y :: ys).get ⟨ys.length, by simp⟩) (by simp)
  exact (List.getElem?_eq_some_iff.1 hx).1

end Occurrence

/-! ### The loops -/

/-- `find_if` stops at the first element with the predicate, or else at the end. -/
theorem find_if_finds (predicate : T → Bool) {fuel : Nat} (h : Range ops end' c xs)
    (hf : xs.length < fuel) :
    ∃ c', find_if ops predicate end' fuel c = some c' ∧
      ops.steps (xs.findIdx predicate) c = some c' ∧
      Range ops end' c' (xs.drop (xs.findIdx predicate)) := by
  induction h generalizing fuel with
  | @empty c he =>
    obtain _ | fuel := fuel
    · simp at hf
    · exact ⟨c, by simp [find_if, he], rfl, .empty he⟩
  | @cons c c' x xs he hr hs h ih =>
    obtain _ | fuel := fuel
    · simp at hf
    · by_cases hp : predicate x = true
      · refine ⟨c, by simp [find_if, he, hr, hp], ?_, ?_⟩
        · simp [List.findIdx_cons, hp]
        · simpa [List.findIdx_cons, hp] using Range.cons he hr hs h
      · obtain ⟨d, hd, hk, hd'⟩ := ih (by simpa using hf)
        refine ⟨d, by simp [find_if, he, hr, hs, hp, hd], ?_, ?_⟩
        · simp [List.findIdx_cons, hp, Cursor.steps, hs, hk]
        · simpa [List.findIdx_cons, hp] using hd'

/-- `mismatch` stops at the end of its second range when all of it is matched. When it stops
at the end of the first one before that, the first range is the shorter one. -/
theorem mismatch_finds {ops₁ : Cursor C₁ E₁ T₁} {ops₂ : Cursor C₂ E₂ T₂}
    (predicate : T₁ → T₂ → Bool) {end₁ : E₁} {end₂ : E₂} {c₁ : C₁} {c₂ : C₂} {xs : List T₁}
    {ys : List T₂} {fuel : Nat} (h₁ : Range ops₁ end₁ c₁ xs) (h₂ : Range ops₂ end₂ c₂ ys)
    (hf : xs.length < fuel) :
    ∃ p, mismatch ops₁ ops₂ predicate end₁ end₂ fuel c₁ c₂ = some p ∧
      (ops₂.at_same_pos p.2 end₂ = true ↔ Occurs predicate xs ys 0) ∧
      (ops₂.at_same_pos p.2 end₂ = false → ops₁.at_same_pos p.1 end₁ = true →
        xs.length < ys.length ∧ ops₁.steps xs.length c₁ = some p.1) := by
  induction h₁ generalizing fuel c₂ ys with
  | @empty c₁ he₁ =>
    obtain _ | fuel := fuel
    · simp at hf
    · refine ⟨(c₁, c₂), by simp [mismatch, he₁], ?_, ?_⟩
      · cases h₂ with
        | empty he₂ => simp [he₂]
        | cons he₂ => simp [he₂, occurs_cons]
      · intro he₂ _
        obtain ⟨y, ys, c₂', rfl, -⟩ := range_of_not_at_end h₂ he₂
        simp
  | @cons c₁ c₁' x xs he₁ hr₁ hs₁ h₁ ih =>
    obtain _ | fuel := fuel
    · simp at hf
    cases h₂ with
    | empty he₂ => exact ⟨(c₁, c₂), by simp [mismatch, he₂], by simp [he₂], by simp [he₂]⟩
    | @cons _ c₂' y ys he₂ hr₂ hs₂ h₂ =>
      by_cases hp : predicate x y = true
      · obtain ⟨p, hm, hocc, hend⟩ := ih h₂ (by simpa using hf)
        refine ⟨p, by simp [mismatch, he₁, he₂, hr₁, hr₂, hs₁, hs₂, hp, hm], ?_, ?_⟩
        · rw [hocc, occurs_cons, ← occurs_cons_succ (x := x)]
          simp [hp]
        · intro hp₂ hp₁
          obtain ⟨hlt, hsteps⟩ := hend hp₂ hp₁
          exact ⟨by simpa using hlt, by simp [Cursor.steps, hs₁, hsteps]⟩
      · refine ⟨(c₁, c₂), by simp [mismatch, he₁, he₂, hr₁, hr₂, hp], ?_, ?_⟩
        · simp [he₂, occurs_cons, hp]
        · simp [he₁]

/-! ### The first occurrence -/

theorem isFirst_drop {predicate : T₁ → T₂ → Bool} {xs : List T₁} {ys : List T₂} {k n : Nat}
    (hn : n ≤ xs.length) (hbefore : ∀ j < n, ¬ Occurs predicate xs ys j)
    (h : IsFirst predicate (xs.drop n) ys k) : IsFirst predicate xs ys (n + k) := by
  have hafter (j : Nat) (hj : n ≤ j) :
      Occurs predicate (xs.drop n) ys (j - n) ↔ Occurs predicate xs ys j := by
    rw [occurs_drop, Nat.add_sub_cancel' hj]
  obtain ⟨hk, hmin⟩ | ⟨rfl, hnone⟩ := h
  · refine .inl ⟨occurs_drop.1 hk, fun j hj hocc => ?_⟩
    by_cases hjn : j < n
    · exact hbefore j hjn hocc
    · exact hmin (j - n) (by omega) ((hafter j (by omega)).2 hocc)
  · refine .inr ⟨by simp; omega, fun j hocc => ?_⟩
    by_cases hjn : j < n
    · exact hbefore j hjn hocc
    · exact hnone (j - n) ((hafter j (by omega)).2 hocc)

theorem isFirst_unique {predicate : T₁ → T₂ → Bool} {xs : List T₁} {ys : List T₂} {k l : Nat}
    (hk : IsFirst predicate xs ys k) (hl : IsFirst predicate xs ys l) : k = l := by
  obtain ⟨hk, hkmin⟩ | ⟨rfl, hnone⟩ := hk <;> obtain ⟨hl, hlmin⟩ | ⟨rfl, hnone'⟩ := hl
  · by_contra hne
    obtain h | h := Nat.lt_or_gt_of_ne hne
    · exact hlmin k h hk
    · exact hkmin l h hl
  · exact absurd hk (hnone' k)
  · exact absurd hl (hnone l)
  · rfl

variable {ops₁ : Cursor C₁ E₁ T₁} {ops₂ : Cursor C₂ E₂ T₂} {predicate : T₁ → T₂ → Bool}
  {end₁ : E₁} {end₂ : E₂} {ys : List T₂}

theorem search_loop_finds {first : T₂} {begin₂ : C₂} {limit fuel : Nat} {cur₁ : C₁}
    {xs : List T₁} (h₁ : Range ops₁ end₁ cur₁ xs) (h₂ : Range ops₂ end₂ begin₂ ys)
    (hl : xs.length < limit) (hf : xs.length < fuel) :
    ∃ k c, search_loop ops₁ ops₂ predicate end₁ end₂ first begin₂ limit fuel cur₁ = some c ∧
      ops₁.steps k cur₁ = some c ∧ IsFirst predicate xs (first :: ys) k := by
  induction fuel generalizing cur₁ xs with
  | zero => simp at hf
  | succ fuel ih =>
    obtain ⟨c, hfind, hsteps, hc⟩ := find_if_finds (predicate · first) h₁ hl
    set i := xs.findIdx (predicate · first) with hi
    have hle : i ≤ xs.length := List.findIdx_le_length
    have hbefore (j : Nat) (hj : j < i) : ¬ Occurs predicate xs (first :: ys) j := by
      rw [occurs_cons]
      rintro ⟨⟨x, hx, hp⟩, -⟩
      obtain ⟨hlt, rfl⟩ := List.getElem?_eq_some_iff.1 hx
      simp [List.not_of_lt_findIdx hj] at hp
    by_cases hend : ops₁.at_same_pos c end₁ = true
    · -- no element is matched by the first one of the second range
      have hlen : i = xs.length := by
        have := range_at_end hc
        rw [hend] at this
        simp at this
        omega
      refine ⟨i, c, by simp [search_loop, hfind, hend], hsteps, .inr ⟨hlen, fun j hocc => ?_⟩⟩
      have hfits := occurs_fits hocc
      exact hbefore j (by omega) hocc
    · obtain ⟨x, xs', c', hxs, hr, hs, hc'⟩ := range_of_not_at_end hc (by simpa using hend)
      have hlt : i < xs.length := by
        by_contra hge
        rw [List.drop_eq_nil_of_le (by omega)] at hxs
        simp at hxs
      have hp : ∃ x, xs[i]? = some x ∧ predicate x first = true :=
        ⟨xs[i], List.getElem?_eq_getElem hlt,
          List.findIdx_getElem (p := (predicate · first)) (w := hlt)⟩
      have hxs' : xs' = xs.drop (i + 1) := by
        rw [← List.drop_drop, hxs, List.drop_one, List.tail_cons]
      subst hxs'
      have hsteps' : ops₁.steps (i + 1) cur₁ = some c' :=
        steps_add hsteps (by simp [Cursor.steps, hs])
      obtain ⟨p, hm, hocc, hp₁⟩ := mismatch_finds predicate hc' h₂
        (show (xs.drop (i + 1)).length < limit by simp; omega)
      have hocc' : Occurs predicate xs (first :: ys) i ↔ ops₂.at_same_pos p.2 end₂ = true := by
        rw [hocc, occurs_drop, occurs_cons, and_iff_right hp, Nat.add_zero]
      by_cases hp₂ : ops₂.at_same_pos p.2 end₂ = true
      · exact ⟨i, c, by simp [search_loop, hfind, hend, hs, hm, hp₂], hsteps,
          .inl ⟨hocc'.2 hp₂, hbefore⟩⟩
      have hno (j : Nat) (hj : j < i + 1) : ¬ Occurs predicate xs (first :: ys) j := by
        obtain hj | rfl : j < i ∨ j = i := by omega
        · exact hbefore j hj
        · exact fun h => hp₂ (hocc'.1 h)
      by_cases hp₁' : ops₁.at_same_pos p.1 end₁ = true
      · -- the rest of the first range is too short for every later position
        obtain ⟨hshort, hlast⟩ := hp₁ (by simpa using hp₂) hp₁'
        refine ⟨i + 1 + (xs.drop (i + 1)).length, p.1,
          by simp [search_loop, hfind, hend, hs, hm, hp₂, hp₁'], steps_add hsteps' hlast,
          isFirst_drop (by omega) hno (.inr ⟨rfl, fun j hj => ?_⟩)⟩
        have := occurs_fits hj
        omega
      · obtain ⟨k, d, hloop, hk, hfirst⟩ := ih hc' (by simp; omega) (by simp; omega)
        exact ⟨i + 1 + k, d, by simp [search_loop, hfind, hend, hs, hm, hp₂, hp₁', hloop],
          steps_add hsteps' hk, isFirst_drop (by omega) hno hfirst⟩

theorem search_isFirst (predicate : T₁ → T₂ → Bool) {fuel : Nat} {begin₁ : C₁} {begin₂ : C₂}
    {xs : List T₁}
    (h₁ : Range ops₁ end₁ begin₁ xs) (h₂ : Range ops₂ end₂ begin₂ ys) (hf : xs.length < fuel) :
    ∃ k c, search ops₁ ops₂ predicate fuel begin₁ end₁ begin₂ end₂ = some c ∧
      ops₁.steps k begin₁ = some c ∧ IsFirst predicate xs ys k := by
  cases h₂ with
  | empty he => exact ⟨0, begin₁, by simp [search, he], rfl, .inl ⟨occurs_nil, by simp⟩⟩
  | @cons _ begin₂' y ys he hr hs h₂ =>
    obtain ⟨k, c, hloop, hk⟩ := search_loop_finds h₁ h₂ hf hf
    exact ⟨k, c, by simp [search, he, hr, hs, hloop], hk⟩

theorem range_within {ops : Cursor C E T} {end' : E} {c : C} {xs : List T}
    (h : Range ops end' c xs) : Range (ops.within end') end' c xs := by
  induction h with
  | empty he => exact .empty he
  | cons he hr hs _ ih =>
    exact .cons he (by simp [Cursor.within, he, hr]) (by simp [Cursor.within, he, hs]) ih

theorem steps_within {ops : Cursor C E T} {end' : E} {c c' : C} {k : Nat}
    (h : (ops.within end').steps k c = some c') : ops.steps k c = some c' := by
  induction k generalizing c with
  | zero => exact h
  | succ k ih =>
    obtain ⟨d, hd, hk⟩ := Option.bind_eq_some_iff.1 h
    have hd' : ops.step c = some d := by
      simp only [Cursor.within, Option.ite_none_left_eq_some] at hd
      exact hd.2
    exact Option.bind_eq_some_iff.2 ⟨d, hd', ih hk⟩

end SearchLemmas

open SearchLemmas

/-! ## 3. The result of a search -/

variable {ops₁ : Cursor C₁ E₁ T₁} {ops₂ : Cursor C₂ E₂ T₂} {end₁ : E₁} {end₂ : E₂}
  {begin₁ : C₁} {begin₂ : C₂} {xs : List T₁} {ys : List T₂}

/-- A search returns the cursor at the first position where the second range occurs, the one
at the end where there is none, and `begin₁` for an empty second range. It needs no more
rounds than the first range has positions, and does the same where the ranges cannot be read
or passed at their ends. -/
theorem search_finds (predicate : T₁ → T₂ → Bool) (h₁ : Range ops₁ end₁ begin₁ xs)
    (h₂ : Range ops₂ end₂ begin₂ ys) {fuel : Nat} (hf : xs.length < fuel) :
    ∃ k c, ops₁.steps k begin₁ = some c ∧ IsFirst predicate xs ys k ∧ (ys = [] → k = 0) ∧
      search ops₁ ops₂ predicate fuel begin₁ end₁ begin₂ end₂ = some c ∧
      search (ops₁.within end₁) (ops₂.within end₂) predicate fuel begin₁ end₁ begin₂ end₂ =
        some c := by
  obtain ⟨k, c, hsearch, hsteps, hfirst⟩ := search_isFirst predicate h₁ h₂ hf
  obtain ⟨k', c', hsearch', hsteps', hfirst'⟩ :=
    search_isFirst predicate (range_within h₁) (range_within h₂) hf
  obtain rfl := isFirst_unique hfirst hfirst'
  obtain rfl : c = c' := Option.some.inj (hsteps.symm.trans (steps_within hsteps'))
  refine ⟨k, c, hsteps, hfirst, fun hys => ?_, hsearch, hsearch'⟩
  subst hys
  exact isFirst_unique hfirst (.inl ⟨occurs_nil, by simp⟩)

/-- An index into an array, with the index after the last element as end point. -/
def array_cursor (values : List T) : Cursor Nat Nat T where
  at_same_pos i j := i == j
  read i := values[i]?
  step i := if i < values.length then some (i + 1) else none

/-- A partial match overlaps the occurrence. -/
theorem search_finds_overlap : ∃ k c,
    (array_cursor [1, 1, 2]).steps k 0 = some c ∧
      IsFirst (· == ·) [1, 1, 2] [1, 2] k ∧ ([1, 2] = [] → k = 0) ∧
      search (array_cursor [1, 1, 2]) (array_cursor [1, 2]) (· == ·) 4 0 3 0 2 = some c ∧
      search ((array_cursor [1, 1, 2]).within 3) ((array_cursor [1, 2]).within 2) (· == ·) 4
        0 3 0 2 = some c :=
  search_finds (· == ·)
    (.cons rfl rfl rfl (.cons rfl rfl rfl (.cons rfl rfl rfl (.empty rfl))))
    (.cons rfl rfl rfl (.cons rfl rfl rfl (.empty rfl))) (by decide)

end Kuhllib.Search
