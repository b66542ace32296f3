import Kuhllib.Cxxrt.Cache
import Kuhllib.Lib.Decimal
import Kuhllib.Lib.Lexer
import Mathlib.Computability.Language

/-!
# What a floating point number looks like

A character is what the cache finds for it: a digit below 10, a sign, the decimal point, or an `e`,
which is the digit 14 of base 16. The grammar is
`sign? (digits point? digits? | point digits) (e sign? digits)?`.

Results:
1. `mem_grammar`: a number is a literal with digits in the mantissa, and in the exponent if there is
   one.
2. `longest_read`: which beginning of the input is the longest one that can be continued.
-/

namespace Kuhllib.Cxxrt.FloatInput

/-! ## The grammar -/

def exponent_index : Nat := 14

def signs : Language Nat := {[CacheBase.plus], [CacheBase.minus]}

def digits : Language Nat := {s | s ≠ [] ∧ ∀ c ∈ s, c < 10}

def point : Language Nat := {[CacheBase.point]}

def mark : Language Nat := {[exponent_index]}

/-- `l?` -/
def maybe (l : Language Nat) : Language Nat := 1 + l

def grammar : Language Nat :=
  maybe signs * (digits * maybe point * maybe digits + point * digits) *
    maybe (mark * maybe signs * digits)

/-- `p` can be continued to a number. -/
def Viable (p : List Nat) : Prop := ∃ q, p ++ q ∈ grammar

structure Longest (input p : List Nat) : Prop where
  initial : p <+: input
  viable : Viable p
  longest : ∀ p', p' <+: input → Viable p' → p'.length ≤ p.length

/-! ## Literals -/

inductive Sign
  | plus
  | minus
  deriving DecidableEq, Repr

def signToken : Token Nat Sign where
  of c := if c = CacheBase.plus then some .plus else if c = CacheBase.minus then some .minus else none
  char
    | .plus => CacheBase.plus
    | .minus => CacheBase.minus
  of_eq c s := by
    cases s <;> grind [CacheBase.plus, CacheBase.minus]

def digitToken : Token Nat (Fin 10) where
  of c := if h : c < 10 then some ⟨c, h⟩ else none
  char := Fin.val
  of_eq c d := by
    by_cases h : c < 10
    · simp only [h, dif_pos, Option.some.injEq, Fin.ext_iff]
      exact eq_comm
    · simp only [h, dif_neg, not_false_iff, reduceCtorEq, false_iff]
      omega

structure Mantissa where
  sign : Option Sign
  whole : List (Fin 10)
  /-- The digits behind the point, if there is one. -/
  fraction : Option (List (Fin 10))
  deriving DecidableEq, Repr

structure Exponent where
  sign : Option Sign
  digits : List (Fin 10)
  deriving DecidableEq, Repr

/-- Digits may be missing everywhere. -/
structure Literal extends Mantissa where
  exponent : Option Exponent
  deriving DecidableEq, Repr

def Mantissa.digits (m : Mantissa) : List (Fin 10) := m.whole ++ m.fraction.getD []

def Literal.Complete (l : Literal) : Prop :=
  l.digits ≠ [] ∧ ∀ x ∈ l.exponent, x.digits ≠ []

instance (l : Literal) : Decidable l.Complete := inferInstanceAs (Decidable (_ ∧ _))

/-! ### Their values -/

def signed (s : Option Sign) (x : ℚ) : ℚ := if s = some .minus then -x else x

def Exponent.value (x : Exponent) : ℤ :=
  let n : ℤ := Numeral.value 10 (x.digits.map Fin.val)
  if x.sign = some .minus then -n else n

/-- The place of the last digit of the mantissa. -/
def Literal.place (l : Literal) : ℤ :=
  l.exponent.elim 0 Exponent.value - (l.fraction.getD []).length

def Literal.value (l : Literal) : ℚ :=
  signed l.sign (Decimal.value (l.digits.map Fin.val) l.place)

/-! ### How they are spelled and read -/

namespace FloatLiteralLemmas

theorem digitToken_of {c : Nat} : digitToken.of c ≠ none ↔ c < 10 := by
  simp [digitToken]

theorem signToken_of {c : Nat} :
    signToken.of c ≠ none ↔ c = CacheBase.plus ∨ c = CacheBase.minus := by
  simp only [signToken]
  split_ifs <;> simp_all

theorem head_digits {ds : List (Fin 10)} {c : Nat}
    (h : c ∈ ((Lexer.many digitToken).spell ds).head?) : c < 10 := by
  cases ds with
  | nil => cases h
  | cons d ds =>
    obtain rfl : d.val = c := by simpa [Lexer.many, digitToken] using h
    exact d.isLt

theorem head_optional {α : Type} {mark c : Nat} {r : Lexer Nat α} {a : Option α}
    (h : c ∈ ((Lexer.optional mark r).spell a).head?) : c = mark := by
  cases a with
  | none => cases h
  | some a =>
    obtain rfl : mark = c := by simpa [Lexer.optional] using h
    rfl

end FloatLiteralLemmas

open FloatLiteralLemmas

/-- `sign? digits?` -/
def signedDigits : Lexer Nat (Option Sign × List (Fin 10)) :=
  (Lexer.atMostOne signToken).seq (Lexer.many digitToken) fun _ _ c hc hnext => by
    have hdigit := head_digits hc
    rcases signToken_of.mp hnext.2 with rfl | rfl <;> exact absurd hdigit (by decide)

/-- Neither a sign nor a digit. -/
theorem signedDigits_next {p : Option Sign × List (Fin 10)} {c : Nat} (h : signedDigits.next p c) :
    c < CacheBase.hex ∧ c ≠ exponent_index := by
  rcases h with h | ⟨-, -, h⟩
  · have := digitToken_of.mp h
    unfold CacheBase.hex exponent_index
    omega
  · rcases signToken_of.mp h with rfl | rfl <;> decide

def mantissa : Lexer Nat Mantissa :=
  .ofEquiv ⟨fun p => ⟨p.1.1, p.1.2, p.2⟩, fun m => ((m.sign, m.whole), m.fraction),
      fun _ => rfl, fun _ => rfl⟩
    (signedDigits.seq (.optional CacheBase.point (.many digitToken)) fun _ _ c hc hnext => by
      have h := (signedDigits_next hnext).1
      rw [head_optional hc] at h
      exact absurd h (by decide))

def exponent : Lexer Nat Exponent :=
  .ofEquiv ⟨fun p => ⟨p.1, p.2⟩, fun x => (x.sign, x.digits), fun _ => rfl, fun _ => rfl⟩
    signedDigits

theorem mantissa_next {m : Mantissa} {c : Nat} (h : mantissa.next m c) : c ≠ exponent_index := by
  rcases h with h | ⟨-, h⟩
  · obtain ⟨s, w, fraction⟩ := m
    cases fraction with
    | none =>
      obtain rfl : c = CacheBase.point := h
      decide
    | some ds =>
      have := digitToken_of.mp h
      unfold exponent_index
      omega
  · exact (signedDigits_next h).2

def literal : Lexer Nat Literal :=
  .ofEquiv ⟨fun p => ⟨p.1, p.2⟩, fun l => (l.toMantissa, l.exponent), fun _ => rfl, fun _ => rfl⟩
    (mantissa.seq (.optional exponent_index exponent) fun _ _ _ hc hnext =>
      mantissa_next hnext (head_optional hc))

/-- The value of the number at the beginning. -/
def valueOf (s : List Nat) : ℚ := (literal.read s).1.value

/-- The characters of the classic locale. The signs are those of integers. -/
theorem classic_tokens (c : Int) :
    (classic.find c < 10 ↔ widen '0' ≤ c ∧ c ≤ widen '9') ∧
      (classic.find c = exponent_index ↔ c = widen 'e' ∨ c = widen 'E') ∧
      (classic.find c = CacheBase.point ↔ c = widen '.') := by
  rw [find_classic]
  by_cases h : 0 ≤ c ∧ c < 128
  · have hall : ∀ c : Fin 128, (value (c : Nat) < 10 ↔ widen '0' ≤ (c : Nat) ∧ (c : Nat) ≤ widen '9') ∧
        (value (c : Nat) = exponent_index ↔
          ((c : Nat) : Int) = widen 'e' ∨ ((c : Nat) : Int) = widen 'E') ∧
        (value (c : Nat) = CacheBase.point ↔ ((c : Nat) : Int) = widen '.') := by
      decide +kernel
    have hc := hall ⟨c.toNat, by omega⟩
    rwa [Int.toNat_of_nonneg h.1] at hc
  · rw [value_none (by omega)]
    have hne : ∀ d : Char, d.toNat < 128 → c ≠ widen d := by
      intro d hd
      unfold widen
      omega
    refine ⟨iff_of_false (by decide) fun hrange => ?_, iff_of_false (by decide) ?_,
      iff_of_false (by decide) (hne '.' (by decide))⟩
    · have h0 : widen '0' = 48 := by decide
      have h9 : widen '9' = 57 := by decide
      omega
    · rintro (he | he)
      · exact hne 'e' (by decide) he
      · exact hne 'E' (by decide) he

/-! ## 1. The literals of the grammar -/

namespace FloatLiteralLemmas

variable {s : List Nat}

def spellSign (g : Option Sign) : List Nat := (Lexer.atMostOne signToken).spell g

def spellDigits (ds : List (Fin 10)) : List Nat := (Lexer.many digitToken).spell ds

theorem spellDigits_append (ds es : List (Fin 10)) :
    spellDigits (ds ++ es) = spellDigits ds ++ spellDigits es := List.map_append

theorem mem_maybe {l : Language Nat} : s ∈ maybe l ↔ s = [] ∨ s ∈ l := by
  rw [maybe, Language.mem_add, Language.mem_one]

theorem mem_signs : s ∈ maybe signs ↔ ∃ g, spellSign g = s := by
  rw [mem_maybe]
  constructor
  · rintro (rfl | rfl | rfl)
    · exact ⟨none, rfl⟩
    · exact ⟨some .plus, rfl⟩
    · exact ⟨some .minus, rfl⟩
  · rintro ⟨_ | _ | _, rfl⟩
    · exact .inl rfl
    · exact .inr (.inl rfl)
    · exact .inr (.inr rfl)

theorem mem_digits : s ∈ digits ↔ ∃ ds, ds ≠ [] ∧ spellDigits ds = s := by
  constructor
  · rintro ⟨hne, hlt⟩
    have hread := (Lexer.many digitToken).split s
    cases hrest : ((Lexer.many digitToken).read s).2 with
    | nil =>
      rw [hrest, List.append_nil] at hread
      refine ⟨_, fun hnil => hne ?_, hread⟩
      rw [← hread, hnil]
      rfl
    | cons c cs =>
      have hstop := (Lexer.many digitToken).stops s c (by rw [hrest]; rfl)
      refine absurd (digitToken_of.mpr (hlt c ?_)) hstop
      rw [← hread, hrest]
      simp
  · rintro ⟨ds, hne, rfl⟩
    refine ⟨fun hnil => hne (List.map_eq_nil_iff.mp hnil), fun c hc => ?_⟩
    obtain ⟨d, -, rfl⟩ := List.mem_map.mp hc
    exact d.isLt

theorem mem_maybe_digits : s ∈ maybe digits ↔ ∃ ds, spellDigits ds = s := by
  rw [mem_maybe, mem_digits]
  constructor
  · rintro (rfl | ⟨ds, -, rfl⟩)
    · exact ⟨[], rfl⟩
    · exact ⟨ds, rfl⟩
  · rintro ⟨ds, rfl⟩
    cases ds with
    | nil => exact .inl rfl
    | cons d ds => exact .inr ⟨d :: ds, List.cons_ne_nil d ds, rfl⟩

/-- The mantissa behind its sign. -/
def spellBody (w : List (Fin 10)) (f : Option (List (Fin 10))) : List Nat :=
  spellDigits w ++ f.elim [] fun ds => CacheBase.point :: spellDigits ds

theorem mem_body : s ∈ digits * maybe point * maybe digits + point * digits ↔
    ∃ w f, w ++ Option.getD f [] ≠ [] ∧ spellBody w f = s := by
  rw [Language.mem_add]
  simp only [Language.mem_mul]
  constructor
  · rintro (⟨_, ⟨a, ha, b, hb, rfl⟩, c, hc, rfl⟩ | ⟨a, rfl, b, hb, rfl⟩)
    · obtain ⟨ds, hne, rfl⟩ := mem_digits.mp ha
      obtain ⟨es, rfl⟩ := mem_maybe_digits.mp hc
      rcases mem_maybe.mp hb with rfl | rfl
      · refine ⟨ds ++ es, none, by simp [hne], ?_⟩
        simp [spellBody, spellDigits_append]
      · exact ⟨ds, some es, by simp [hne], by simp [spellBody]⟩
    · obtain ⟨ds, hne, rfl⟩ := mem_digits.mp hb
      exact ⟨[], some ds, hne, rfl⟩
  · rintro ⟨w, f, hne, rfl⟩
    cases w with
    | cons d w =>
      refine .inl ?_
      have hw : spellDigits (d :: w) ∈ digits := mem_digits.mpr ⟨_, List.cons_ne_nil d w, rfl⟩
      cases f with
      | none => exact ⟨_, ⟨_, hw, [], .inl rfl, rfl⟩, [], .inl rfl, by simp [spellBody]⟩
      | some ds =>
        exact ⟨_, ⟨_, hw, _, .inr rfl, rfl⟩, _, mem_maybe_digits.mpr ⟨ds, rfl⟩, by simp [spellBody]⟩
    | nil =>
      refine .inr ?_
      cases f with
      | none => exact absurd rfl hne
      | some ds => exact ⟨_, rfl, _, mem_digits.mpr ⟨ds, hne, rfl⟩, rfl⟩

def spellExponent (x : Option Exponent) : List Nat :=
  (Lexer.optional exponent_index exponent).spell x

theorem spellExponent_none : spellExponent none = [] := rfl

theorem spellExponent_some (g : Option Sign) (ds : List (Fin 10)) :
    spellExponent (some ⟨g, ds⟩) = exponent_index :: (spellSign g ++ spellDigits ds) := rfl

theorem mem_exponent : s ∈ maybe (mark * maybe signs * digits) ↔
    ∃ x : Option Exponent, (∀ e ∈ x, e.digits ≠ []) ∧ spellExponent x = s := by
  rw [mem_maybe]
  simp only [Language.mem_mul]
  constructor
  · rintro (rfl | ⟨_, ⟨a, rfl, b, hb, rfl⟩, c, hc, rfl⟩)
    · exact ⟨none, (fun e he => nomatch he), rfl⟩
    · obtain ⟨g, rfl⟩ := mem_signs.mp hb
      obtain ⟨ds, hne, rfl⟩ := mem_digits.mp hc
      refine ⟨some ⟨g, ds⟩, fun e he => ?_, rfl⟩
      obtain rfl : (⟨g, ds⟩ : Exponent) = e := Option.some.inj he
      exact hne
  · rintro ⟨_ | ⟨g, ds⟩, hne, rfl⟩
    · exact .inl rfl
    · exact .inr ⟨_, ⟨_, rfl, _, mem_signs.mpr ⟨g, rfl⟩, rfl⟩, _,
        mem_digits.mpr ⟨ds, hne _ rfl, rfl⟩, rfl⟩

theorem spell_mantissa (m : Mantissa) :
    mantissa.spell m = spellSign m.sign ++ spellBody m.whole m.fraction := by
  rw [spellBody, ← List.append_assoc]
  rfl

theorem spell_literal (l : Literal) :
    literal.spell l = mantissa.spell l.toMantissa ++ spellExponent l.exponent := rfl

end FloatLiteralLemmas

/-- The numbers are the literals that lack no digits. -/
theorem mem_grammar {s : List Nat} :
    s ∈ grammar ↔ ∃ l : Literal, l.Complete ∧ literal.spell l = s := by
  unfold grammar
  simp only [Language.mem_mul (m := _ + _), Language.mem_mul]
  constructor
  · rintro ⟨_, ⟨a, ha, b, hb, rfl⟩, c, hc, rfl⟩
    obtain ⟨g, rfl⟩ := mem_signs.mp ha
    obtain ⟨w, f, hne, rfl⟩ := mem_body.mp hb
    obtain ⟨x, hx, rfl⟩ := mem_exponent.mp hc
    exact ⟨⟨⟨g, w, f⟩, x⟩, ⟨hne, hx⟩, by rw [spell_literal, spell_mantissa]⟩
  · rintro ⟨l, ⟨hne, hx⟩, rfl⟩
    refine ⟨_, ⟨_, mem_signs.mpr ⟨l.sign, rfl⟩, _, mem_body.mpr ⟨l.whole, l.fraction, hne, rfl⟩,
      rfl⟩, _, mem_exponent.mpr ⟨l.exponent, hx, rfl⟩, ?_⟩
    rw [spell_literal, spell_mantissa]

/-! ## 2. Beginnings -/

/-- The beginning of a number: an exponent needs digits in front of it. -/
def Literal.start (l : Literal) : List Nat :=
  if l.digits = [] then mantissa.spell l.toMantissa else literal.spell l

namespace FloatLiteralLemmas

/-- The mantissa ends where the exponent begins. -/
theorem read_mantissa (m : Mantissa) (s : List Nat) :
    mantissa.read (mantissa.spell m ++ exponent_index :: s) = (m, exponent_index :: s) :=
  mantissa.read_spell m _ fun c hc hnext => by
    obtain rfl : exponent_index = c := by simpa using hc
    exact mantissa_next hnext rfl

theorem read_mantissa_literal (l : Literal) :
    (mantissa.read (literal.spell l)).1 = l.toMantissa := by
  rw [spell_literal]
  cases l.exponent with
  | none => rw [spellExponent_none, List.append_nil, mantissa.read_spelled]
  | some x => rw [spellExponent_some, read_mantissa]

theorem start_of_none {l : Literal} (h : l.exponent = none) : l.start = literal.spell l := by
  rw [Literal.start, spell_literal, h, spellExponent_none, List.append_nil, ite_self]

/-- One more digit makes it a number. -/
theorem viable_start (l : Literal) : Viable l.start := by
  have hdigit : ∀ ds, spellDigits (ds ++ [0]) = spellDigits ds ++ [0] := fun ds =>
    spellDigits_append ds [0]
  have hmantissa : ∀ m : Mantissa, Viable (mantissa.spell m) := by
    rintro ⟨g, w, f⟩
    refine ⟨[0], mem_grammar.mpr ?_⟩
    cases f with
    | none =>
      refine ⟨⟨⟨g, w ++ [0], none⟩, none⟩, ⟨by simp [Mantissa.digits], by simp⟩, ?_⟩
      rw [spell_literal, spell_mantissa, spell_mantissa]
      simp [spellBody, spellExponent, Lexer.optional, hdigit]
    | some ds =>
      refine ⟨⟨⟨g, w, some (ds ++ [0])⟩, none⟩, ⟨by simp [Mantissa.digits], by simp⟩, ?_⟩
      rw [spell_literal, spell_mantissa, spell_mantissa]
      simp [spellBody, spellExponent, Lexer.optional, hdigit]
  unfold Literal.start
  split
  · exact hmantissa l.toMantissa
  · next hne =>
    obtain ⟨m, x⟩ := l
    cases x with
    | none =>
      rw [spell_literal]
      simpa [spellExponent_none] using hmantissa m
    | some x =>
      obtain ⟨g, ds⟩ := x
      refine ⟨[0], mem_grammar.mpr ⟨⟨m, some ⟨g, ds ++ [0]⟩⟩, ⟨hne, ?_⟩, ?_⟩⟩
      · intro e he
        obtain rfl : (⟨g, ds ++ [0]⟩ : Exponent) = e := Option.some.inj he
        simp
      · simp [spell_literal, spellExponent_some, hdigit]

/-- A beginning has digits in front of its exponent. -/
theorem start_of_viable {p : List Nat} (h : Viable p) :
    (literal.read p).1.start = p := by
  obtain ⟨q, hq⟩ := h
  obtain ⟨l, hl, hspell⟩ := mem_grammar.mp hq
  obtain ⟨-, hread⟩ := literal.spelled_of_append hspell
  generalize (literal.read p).1 = l₀ at hread
  cases hx : l₀.exponent with
  | none => rw [start_of_none hx, hread]
  | some x =>
    have hm := read_mantissa_literal l
    rw [hspell, ← hread, spell_literal, hx] at hm
    rw [spellExponent_some, List.append_assoc, List.cons_append, read_mantissa] at hm
    have hne : l₀.digits ≠ [] := by
      intro hnil
      refine hl.1 ?_
      rw [← hm]
      exact hnil
    rw [Literal.start, if_neg hne, hread]

end FloatLiteralLemmas

theorem viable_iff {p : List Nat} : Viable p ↔ (literal.read p).1.start = p :=
  ⟨start_of_viable, fun h => h ▸ viable_start _⟩

theorem longest_read (input : List Nat) : Longest input (literal.read input).1.start := by
  have hsplit := literal.split input
  generalize hl : (literal.read input).1 = l at hsplit
  have hspell := spell_literal l
  have hmantissa : mantissa.spell l.toMantissa <+: input :=
    ⟨spellExponent l.exponent ++ (literal.read input).2, by
      rw [← List.append_assoc, ← hspell, hsplit]⟩
  refine ⟨?_, viable_start l, fun p hp hv => ?_⟩
  · unfold Literal.start
    split
    · exact hmantissa
    · exact ⟨_, hsplit⟩
  · obtain ⟨q, hq⟩ := hv
    obtain ⟨l', hl', hspell'⟩ := mem_grammar.mp hq
    have hlong := literal.longest hp hspell'
    rw [hl] at hlong
    unfold Literal.start
    split
    · next hnil =>
      by_contra hlt
      -- the beginning goes on into the exponent
      obtain ⟨t, rfl⟩ := List.prefix_of_prefix_length_le hmantissa hp (by omega)
      cases t with
      | nil => simp at hlt
      | cons c t =>
        obtain ⟨u, hu⟩ := hp
        have hboth := hu.trans hsplit.symm
        rw [hspell, List.append_assoc, List.append_assoc, List.append_cancel_left_eq] at hboth
        cases hx : l.exponent with
        | none =>
          rw [hspell, hx, spellExponent_none] at hlong
          simp at hlong
        | some x =>
          rw [hx, spellExponent_some] at hboth
          obtain rfl : c = exponent_index := (List.cons.inj hboth).1
          have hm := read_mantissa_literal l'
          rw [hspell', List.append_assoc, List.cons_append, read_mantissa] at hm
          refine hl'.1 ?_
          rw [← hm]
          exact hnil
    · exact hlong

end Kuhllib.Cxxrt.FloatInput
