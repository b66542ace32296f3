import Mathlib.Data.List.Basic
import Mathlib.Logic.Equiv.Defs

/-!
# Reading with one character of lookahead

A lexer reads a value off the beginning of its input and leaves the rest. How a value is spelled
determines it, and the lexer goes on as long as the next character may follow what it has read.
That makes what is read the longest beginning of the input that is spelled by any value.
-/

/-- Characters that stand for values. -/
structure Token (σ α : Type*) where
  of : σ → Option α
  char : α → σ
  of_eq : ∀ c a, of c = some a ↔ char a = c

structure Lexer (σ α : Type*) where
  spell : α → List σ
  read : List σ → α × List σ
  /-- The character may follow the value. -/
  next : α → σ → Prop
  split : ∀ xs, spell (read xs).1 ++ (read xs).2 = xs
  stops : ∀ xs, ∀ c ∈ (read xs).2.head?, ¬ next (read xs).1 c
  read_spell : ∀ a xs, (∀ c ∈ xs.head?, ¬ next a c) → read (spell a ++ xs) = (a, xs)

namespace Lexer

variable {σ α β : Type*}

/-! ## What is read -/

section

variable (r : Lexer σ α)

theorem read_spelled (a : α) : r.read (r.spell a) = (a, []) := by
  have h := r.read_spell a [] fun c hc => nomatch hc
  rwa [List.append_nil] at h

/-- What is read depends on the next character only. -/
theorem read_congr {xs cs : List σ} {c : σ} (h : (r.read xs).2 = c :: cs) (ds : List σ) :
    r.read (r.spell (r.read xs).1 ++ c :: ds) = ((r.read xs).1, c :: ds) := by
  refine r.read_spell _ _ fun d hd => ?_
  obtain rfl : c = d := by simpa using hd
  exact r.stops xs c (by rw [h]; rfl)

/-- A beginning of what is spelled is spelled itself. -/
theorem spelled_of_append {a : α} {p q : List σ} (h : r.spell a = p ++ q) :
    r.read p = ((r.read p).1, []) ∧ r.spell (r.read p).1 = p := by
  have hsplit := r.split p
  cases hrest : (r.read p).2 with
  | nil =>
    rw [hrest, List.append_nil] at hsplit
    exact ⟨by rw [← hrest], hsplit⟩
  | cons c cs =>
    have hcongr := r.read_congr hrest (cs ++ q)
    rw [hrest] at hsplit
    have hwhole : r.spell (r.read p).1 ++ c :: (cs ++ q) = r.spell a :=
      calc r.spell (r.read p).1 ++ c :: (cs ++ q)
          = (r.spell (r.read p).1 ++ c :: cs) ++ q := by rw [List.append_assoc, List.cons_append]
        _ = r.spell a := by rw [hsplit, h]
    rw [hwhole, r.read_spelled] at hcongr
    cases (Prod.mk.inj hcongr).2

/-- Nothing longer is the beginning of anything that is spelled. -/
theorem longest {a : α} {xs p q : List σ} (hp : p <+: xs) (h : r.spell a = p ++ q) :
    p.length ≤ (r.spell (r.read xs).1).length := by
  by_contra hlt
  have hsplit := r.split xs
  obtain ⟨t, rfl⟩ := List.prefix_of_prefix_length_le ⟨_, hsplit⟩ hp (by omega)
  obtain ⟨u, hu⟩ := hp
  cases t with
  | nil => simp at hlt
  | cons c t =>
    have hrest : (r.read xs).2 = c :: (t ++ u) := by
      have hboth := hsplit.trans hu.symm
      rw [List.append_assoc] at hboth
      exact List.append_cancel_left hboth
    have hcongr := r.read_congr hrest (t ++ q)
    have hwhole : r.spell (r.read xs).1 ++ c :: (t ++ q) = r.spell a := by
      rw [h]
      simp
    rw [hwhole, r.read_spelled] at hcongr
    cases (Prod.mk.inj hcongr).2

end

/-! ## Tokens -/

section

variable (t : Token σ α)

def readMany : List σ → List α × List σ
  | [] => ([], [])
  | c :: cs =>
    match t.of c with
    | some a => (a :: (readMany cs).1, (readMany cs).2)
    | none => ([], c :: cs)

theorem readMany_split (xs : List σ) : (readMany t xs).1.map t.char ++ (readMany t xs).2 = xs := by
  induction xs with
  | nil => rfl
  | cons c cs ih =>
    cases h : t.of c with
    | none => simp [readMany, h]
    | some a => simp [readMany, h, ih, (t.of_eq c a).mp h]

theorem readMany_stops (xs : List σ) : ∀ c ∈ (readMany t xs).2.head?, t.of c = none := by
  induction xs with
  | nil => exact fun c hc => nomatch hc
  | cons d cs ih =>
    cases h : t.of d with
    | none => simp [readMany, h]
    | some a => simpa [readMany, h] using ih

theorem readMany_spell (as : List α) (xs : List σ) (h : ∀ c ∈ xs.head?, t.of c = none) :
    readMany t (as.map t.char ++ xs) = (as, xs) := by
  induction as with
  | nil =>
    cases xs with
    | nil => rfl
    | cons c cs => simp [readMany, h c rfl]
  | cons a as ih => simp [readMany, (t.of_eq _ a).mpr rfl, ih]

/-- As many tokens as there are. -/
def many : Lexer σ (List α) where
  spell as := as.map t.char
  read := readMany t
  next _ c := t.of c ≠ none
  split := readMany_split t
  stops xs c hc h := h (readMany_stops t xs c hc)
  read_spell as xs h := readMany_spell t as xs fun c hc => not_not.mp (h c hc)

def readOne : List σ → Option α × List σ
  | [] => (none, [])
  | c :: cs =>
    match t.of c with
    | some a => (some a, cs)
    | none => (none, c :: cs)

/-- At most one token. -/
def atMostOne : Lexer σ (Option α) where
  spell a := (a.map t.char).toList
  read := readOne t
  next a c := a = none ∧ t.of c ≠ none
  split xs := by
    cases xs with
    | nil => rfl
    | cons c cs =>
      cases h : t.of c with
      | none => simp [readOne, h]
      | some a => simp [readOne, h, (t.of_eq c a).mp h]
  stops xs c hc := by
    cases xs with
    | nil => cases hc
    | cons d cs =>
      cases h : t.of d with
      | none =>
        obtain rfl : d = c := by simpa [readOne, h] using hc
        simp [readOne, h]
      | some a => simp [readOne, h]
  read_spell a xs h := by
    cases a with
    | none =>
      cases xs with
      | nil => rfl
      | cons c cs =>
        have hc : t.of c = none := by simpa using h c
        simp [readOne, hc]
    | some a => simp [readOne, (t.of_eq _ a).mpr rfl]

end

/-! ## Composition -/

/-- What a mark introduces, if there is one. -/
def optional [DecidableEq σ] (mark : σ) (r : Lexer σ α) : Lexer σ (Option α) where
  spell a := a.elim [] fun a => mark :: r.spell a
  read
    | [] => (none, [])
    | c :: cs => if c = mark then (some (r.read cs).1, (r.read cs).2) else (none, c :: cs)
  next a c := a.elim (c = mark) fun a => r.next a c
  split xs := by
    cases xs with
    | nil => rfl
    | cons c cs =>
      by_cases h : c = mark
      · simp [h, r.split]
      · simp [h]
  stops xs c hc := by
    cases xs with
    | nil => cases hc
    | cons d cs =>
      by_cases h : d = mark
      · simp only [h, if_true] at hc ⊢
        exact r.stops cs c hc
      · simp only [h, if_false, List.head?_cons, Option.mem_some_iff] at hc ⊢
        exact hc ▸ h
  read_spell a xs h := by
    cases a with
    | none =>
      cases xs with
      | nil => rfl
      | cons c cs =>
        have hc : c ≠ mark := h c rfl
        simp [hc]
    | some a => simp [r.read_spell a xs h]

/-- One behind the other. What the second one spells must not begin with what may follow what the
first one has read. -/
def seq (r : Lexer σ α) (s : Lexer σ β)
    (disjoint : ∀ a b, ∀ c ∈ (s.spell b).head?, ¬ r.next a c) : Lexer σ (α × β) where
  spell p := r.spell p.1 ++ s.spell p.2
  read xs := (((r.read xs).1, (s.read (r.read xs).2).1), (s.read (r.read xs).2).2)
  next p c := s.next p.2 c ∨ s.spell p.2 = [] ∧ r.next p.1 c
  split xs := by rw [List.append_assoc, s.split, r.split]
  stops xs c hc h := by
    rcases h with h | ⟨hnil, h⟩
    · exact s.stops _ c hc h
    · have hsplit := s.split (r.read xs).2
      rw [hnil, List.nil_append] at hsplit
      refine r.stops xs c ?_ h
      rwa [← hsplit]
  read_spell p xs h := by
    obtain ⟨a, b⟩ := p
    have hfirst : r.read (r.spell a ++ (s.spell b ++ xs)) = (a, s.spell b ++ xs) := by
      refine r.read_spell a _ fun c hc hnext => ?_
      cases hb : s.spell b with
      | nil =>
        rw [hb, List.nil_append] at hc
        exact h c hc (.inr ⟨hb, hnext⟩)
      | cons d ds =>
        rw [hb, List.cons_append, List.head?_cons] at hc
        exact disjoint a b c (by rwa [hb]) hnext
    have hsecond := s.read_spell b xs fun c hc hnext => h c hc (.inl hnext)
    rw [List.append_assoc, hfirst]
    simp only [hsecond]

/-- The same values in another form. -/
def ofEquiv (e : α ≃ β) (r : Lexer σ α) : Lexer σ β where
  spell b := r.spell (e.symm b)
  read xs := (e (r.read xs).1, (r.read xs).2)
  next b c := r.next (e.symm b) c
  split xs := by rw [e.symm_apply_apply, r.split]
  stops xs c hc := by
    rw [e.symm_apply_apply]
    exact r.stops xs c hc
  read_spell b xs h := by rw [r.read_spell _ xs h, e.apply_symm_apply]

end Lexer
