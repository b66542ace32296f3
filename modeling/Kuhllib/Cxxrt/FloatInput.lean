import Kuhllib.Cxxrt.FloatLiteral
import Kuhllib.Cxxrt.NumGet

/-!
# `num_get`: floating point numbers

`_CS_get_float` copies what it reads to a buffer for `strtod`. Integer digits that are left out
multiply a factor by ten, which is exact here. `digits10` is that of `long double` on the platform.

The count of the digits is shared by the integer and the fraction, and the point between them is
counted too. Where the integer digits use up the count, it passes zero at the point, and no digit
of the fraction is left out any more.

Results:
1. `get_float_spec`: what is read, what stands in the buffer, and the factor.
2. `writes_inside_iff`: when all of the text fits into the buffer.
-/

namespace Kuhllib.Cxxrt.FloatInput

/-- `_CS_chars` -/
def chars : String := "0123456789    e +-   . "

def char_at (cval : Nat) : Char := chars.toList.getD cval ' '

/-- What `_CS_get_float` returns and sets, with the text in front of the null in the buffer. The
pointer `_CS_cur` is always behind the text. -/
structure Extracted where
  ok : Bool
  begin : List Int
  failbit : Bool
  eofbit : Bool
  text : List Char
  factor : Nat
  deriving DecidableEq, Repr

structure Counted where
  count : Int
  text : List Char
  begin : List Int
  deriving DecidableEq, Repr

section

variable (t : Cache)

/-- `while (get_next_counted(cval) && cval < 10) *cur++ = chars[cval];` from the current character
`c` on. -/
def counted_digits (count : Int) (text : List Char) (c : Int) : List Int → Counted
  | [] => if count - 1 = 0 then ⟨count - 1, text, [c]⟩ else ⟨count - 1, text, []⟩
  | c' :: cs =>
    if count - 1 = 0 then ⟨count - 1, text, c :: c' :: cs⟩
    else if t.find c' < 10 then counted_digits (count - 1) (text ++ [char_at (t.find c')]) c' cs
    else ⟨count - 1, text, c' :: cs⟩

/-- `while (get_next(cval) && cval < 10) factor *= 10;` behind the current character. -/
def skip_scaled (factor : Nat) : List Int → Nat × List Int
  | [] => (factor, [])
  | c :: cs => if t.find c < 10 then skip_scaled (factor * 10) cs else (factor, c :: cs)

/-- `_CS_done`, where `eofbit` has been set if there is no current character. -/
def finish (text : List Char) (factor : Nat) (begin : List Int) : Extracted :=
  ⟨true, begin, false, begin.isEmpty, text, factor⟩

/-- "if the next character is an 'e' read the exponent" -/
def get_exponent (text : List Char) (factor : Nat) : List Int → Extracted
  | [] => finish text factor []
  | c :: cs =>
    if char_at (t.find c) = 'e' then
      match cs with
      | [] => finish (text ++ ['e']) factor []
      | c' :: cs' =>
        let ch := char_at (t.find c')
        if ch = ' ' ∨ ch = '.' ∨ ch = 'e' then finish (text ++ ['e']) factor (c' :: cs')
        else
          let r := counted_digits t 60 (text ++ ['e', ch]) c' cs'
          finish r.text factor (if r.count = 0 then skip_digits t 10 r.begin.tail else r.begin)
    else finish text factor (c :: cs)

/-- "if the next character is a '.' read the fractional part (if there wasn't one yet)" -/
def get_fraction (has_point : Bool) (count : Int) (text : List Char) (factor : Nat) :
    List Int → Extracted
  | [] => finish text factor []
  | c :: cs =>
    if char_at (t.find c) = '.' then
      if has_point then finish text factor (c :: cs)
      else
        let r := counted_digits t count (text ++ ['.']) c cs
        get_exponent t r.text factor
          (if r.count = 0 then skip_digits t 10 r.begin.tail else r.begin)
    else get_exponent t text factor (c :: cs)

def get_float (digits10 : Nat) : List Int → Extracted
  | [] => ⟨false, [], true, true, [], 1⟩
  | c :: cs =>
    let ch := char_at (t.find c)
    if ch = ' ' ∨ ch = 'e' then ⟨false, c :: cs, true, false, [], 1⟩
    else
      let r := counted_digits t digits10 [ch] c cs
      let s := if r.count = 0 then skip_scaled t 1 r.begin.tail else (1, r.begin)
      get_fraction t (ch = '.') r.count r.text s.1 s.2

/-- `_CS_bufsize` -/
def bufsize (digits10 : Nat) : Nat := digits10 + 64

/-- The places that are written to: one for each character of the text, and one for the null. -/
def Extracted.writes (e : Extracted) : List Nat :=
  if e.ok then List.range (e.text.length + 1) else []

/-! ## What is read -/

/-- The literal at the beginning, complete or not. -/
def layout (cs : List Int) : Literal := (literal.read (cs.map t.find)).1

end

def signCount (g : Option Sign) : Nat := if g.isSome then 1 else 0

/-- 60 characters are counted. -/
def Exponent.shorten (x : Exponent) : Exponent :=
  { x with digits := x.digits.take (60 - signCount x.sign) }

/-- The point comes first. -/
def Mantissa.pointed (m : Mantissa) : Bool := m.sign.isNone && m.whole.isEmpty

/-- How many integer digits are counted. -/
def Mantissa.room (digits10 : Nat) (m : Mantissa) : Nat := digits10 - signCount m.sign

/-- The digits of the fraction that are kept. -/
def Mantissa.keep (digits10 : Nat) (m : Mantissa) (ds : List (Fin 10)) : List (Fin 10) :=
  if m.pointed then ds.take (digits10 - 1)
  else if m.room digits10 ≤ m.whole.length then ds
  else ds.take (m.room digits10 - m.whole.length - 1)

/-- The literal without the digits that are left out. -/
def Literal.shorten (digits10 : Nat) (l : Literal) : Literal where
  sign := l.sign
  whole := l.whole.take (l.room digits10)
  fraction := l.fraction.map (l.keep digits10)
  exponent := l.exponent.map Exponent.shorten

/-- How many digits have multiplied the factor. -/
def Literal.scale (digits10 : Nat) (l : Literal) : Nat :=
  if l.pointed then (l.fraction.getD []).length - (digits10 - 1)
  else l.whole.length - l.room digits10

def spelled (s : List Nat) : List Char := s.map char_at

/-! ## 1. The steps -/

namespace FloatInputLemmas

open FloatLiteralLemmas

/-- What the characters of `chars` stand for. -/
theorem char_at_iff (v : Nat) :
    (char_at v = 'e' ↔ v = exponent_index) ∧ (char_at v = '.' ↔ v = CacheBase.point) ∧
      (char_at v = ' ' ↔ ¬ v < 10 ∧ v ≠ exponent_index ∧ v ≠ CacheBase.point ∧
        v ≠ CacheBase.plus ∧ v ≠ CacheBase.minus) := by
  by_cases h : v < 23
  · have hall : ∀ v : Fin 23, (char_at v = 'e' ↔ v.val = exponent_index) ∧
        (char_at v = '.' ↔ v.val = CacheBase.point) ∧
        (char_at v = ' ' ↔ ¬ v.val < 10 ∧ v.val ≠ exponent_index ∧ v.val ≠ CacheBase.point ∧
          v.val ≠ CacheBase.plus ∧ v.val ≠ CacheBase.minus) := by decide
    exact hall ⟨v, h⟩
  · have hblank : char_at v = ' ' := by
      have hlen : chars.toList.length = 23 := by decide
      rw [char_at, List.getD_eq_getElem?_getD, List.getElem?_eq_none (by omega)]
      rfl
    rw [hblank]
    refine ⟨iff_of_false (by decide) ?_, iff_of_false (by decide) ?_, iff_of_true rfl ?_⟩
    · unfold exponent_index
      omega
    · unfold CacheBase.point
      omega
    · unfold exponent_index CacheBase.point CacheBase.plus CacheBase.minus
      omega

section

variable {t : Cache} {cs : List Int} {c : Int}

/-- What a lexer leaves of the characters. -/
theorem rest_eq {α : Type} (r : Lexer Nat α) (cs : List Int) :
    (r.read (cs.map t.find)).2 =
      (cs.drop (r.spell (r.read (cs.map t.find)).1).length).map t.find := by
  have hsplit := congrArg (List.drop (r.spell (r.read (cs.map t.find)).1).length)
    (r.split (cs.map t.find))
  rwa [List.drop_left, ← List.map_drop] at hsplit

variable (t) in
/-- The digits at the beginning. -/
def front (cs : List Int) : List (Fin 10) := ((Lexer.many digitToken).read (cs.map t.find)).1

theorem front_digit (h : t.find c < 10) (cs : List Int) :
    front t (c :: cs) = ⟨t.find c, h⟩ :: front t cs := by
  have hof : digitToken.of (t.find c) = some ⟨t.find c, h⟩ := dif_pos h
  rw [front, List.map_cons]
  change (Lexer.readMany digitToken (t.find c :: _)).1 = _
  rw [Lexer.readMany, hof]
  rfl

theorem front_stop (h : ¬ t.find c < 10) (cs : List Int) : front t (c :: cs) = [] := by
  have hof : digitToken.of (t.find c) = none := dif_neg h
  rw [front, List.map_cons]
  change (Lexer.readMany digitToken (t.find c :: _)).1 = _
  rw [Lexer.readMany, hof]

theorem skip_spec (factor : Nat) (cs : List Int) :
    skip_digits t 10 cs = cs.drop (front t cs).length ∧
      skip_scaled t factor cs =
        (factor * 10 ^ (front t cs).length, cs.drop (front t cs).length) := by
  induction cs generalizing factor with
  | nil => exact ⟨rfl, by rw [skip_scaled]; simp [front, Lexer.many, Lexer.readMany]⟩
  | cons c cs ih =>
    by_cases h : t.find c < 10
    · obtain ⟨hskip, hscaled⟩ := ih (factor * 10)
      rw [skip_digits, skip_scaled, if_pos h, if_pos h, front_digit h, hskip, hscaled]
      refine ⟨rfl, ?_⟩
      rw [List.length_cons, List.drop_succ_cons, pow_succ, Nat.mul_assoc, Nat.mul_comm 10]
    · rw [skip_digits, skip_scaled, if_neg h, if_neg h, front_stop h]
      exact ⟨rfl, by simp⟩

/-- The characters of digits. -/
def digitChars (ds : List (Fin 10)) : List Char := spelled (spellDigits ds)

theorem digitChars_nil : digitChars [] = [] := rfl

theorem digitChars_cons (d : Fin 10) (ds : List (Fin 10)) :
    digitChars (d :: ds) = char_at d :: digitChars ds := rfl

/-- The loop keeps `k` digits if `k + 1` characters are counted, and the loop behind it skips the
others. -/
theorem counted_spec (k : Nat) (text : List Char) (c : Int) (cs : List Int) :
    let r := counted_digits t (k + 1) text c cs
    let ds := front t cs
    r.text = text ++ digitChars (ds.take k) ∧ r.count = (k - ds.length : Nat) ∧
      (if r.count = 0 then skip_digits t 10 r.begin.tail else r.begin) = cs.drop ds.length ∧
      ∀ f, (if r.count = 0 then skip_scaled t f r.begin.tail else (f, r.begin)) =
        (f * 10 ^ (ds.length - k), cs.drop ds.length) := by
  induction cs generalizing k text c with
  | nil =>
    have hfront : front t [] = [] := rfl
    cases k with
    | zero => simp [counted_digits, hfront, digitChars_nil, skip_digits, skip_scaled]
    | succ k =>
      have hne : ((k + 1 : Nat) : Int) + 1 - 1 ≠ 0 := by omega
      simp only [counted_digits, if_neg hne, hfront]
      exact ⟨by simp [digitChars_nil], by simp, by simp, by simp⟩
  | cons c' cs ih =>
    cases k with
    | zero =>
      have hskip := fun f => skip_spec (t := t) f (c' :: cs)
      simp only [counted_digits, Nat.cast_zero, zero_add, sub_self, if_true, List.take_zero,
        digitChars_nil, List.append_nil, Nat.zero_sub, List.tail_cons, Nat.sub_zero, true_and]
      exact ⟨(hskip 1).1, fun f => (hskip f).2⟩
    | succ k =>
      have hne : ((k + 1 : Nat) : Int) + 1 - 1 ≠ 0 := by omega
      have hcount : ((k + 1 : Nat) : Int) + 1 - 1 = k + 1 := by omega
      simp only [counted_digits, if_neg hne]
      by_cases h : t.find c' < 10
      · obtain ⟨htext, hk, hskip, hscaled⟩ := ih k (text ++ [char_at (t.find c')]) c'
        rw [if_pos h, front_digit h, hcount, List.length_cons, List.drop_succ_cons]
        refine ⟨?_, ?_, hskip, fun f => ?_⟩
        · rw [htext, List.take_succ_cons, digitChars_cons, List.append_assoc]
          rfl
        · rw [hk, Nat.add_sub_add_right]
        · rw [hscaled f, Nat.add_sub_add_right]
      · rw [if_neg h, front_stop h]
        exact ⟨by simp [digitChars_nil], by simp, if_neg hne, fun f => (if_neg hne).trans (by simp)⟩

/-- The loop keeps all digits once the count is used up. -/
theorem exhausted_spec {count : Int} (hcount : count ≤ 0) (text : List Char) (c : Int)
    (cs : List Int) :
    let r := counted_digits t count text c cs
    r.text = text ++ digitChars (front t cs) ∧ r.count ≠ 0 ∧
      r.begin = cs.drop (front t cs).length := by
  have hne : count - 1 ≠ 0 := by omega
  induction cs generalizing count text c with
  | nil =>
    have hfront : front t [] = [] := rfl
    simp [counted_digits, hne, hfront, digitChars_nil]
  | cons c' cs ih =>
    simp only [counted_digits, if_neg hne]
    by_cases h : t.find c' < 10
    · have hle : count - 1 ≤ 0 := by omega
      obtain ⟨htext, hk, hbegin⟩ := ih hle (text ++ [char_at (t.find c')]) c' (by omega)
      rw [if_pos h, front_digit h]
      refine ⟨?_, hk, ?_⟩
      · rw [htext, digitChars_cons, List.append_assoc]
        rfl
      · rw [hbegin, List.length_cons, List.drop_succ_cons]
    · rw [if_neg h, front_stop h]
      simp [digitChars_nil, hne]

/-! ### The exponent -/

variable (t) in
/-- The exponent at the beginning. -/
def tail (cs : List Int) : Option Exponent :=
  ((Lexer.optional exponent_index exponent).read (cs.map t.find)).1

theorem tail_stop (h : t.find c ≠ exponent_index) (cs : List Int) : tail t (c :: cs) = none := by
  simp [tail, Lexer.optional, h]

theorem tail_mark (h : t.find c = exponent_index) (cs : List Int) :
    tail t (c :: cs) = some (exponent.read (cs.map t.find)).1 := by
  simp [tail, Lexer.optional, h]

theorem signToken_digit {v : Nat} (h : v < 10) : signToken.of v = none := by
  by_contra hne
  rcases signToken_of.mp hne with he | he <;> exact absurd (he ▸ h) (by decide)

/-- An exponent is a sign and the digits behind it. -/
theorem read_exponent {cs cs' : List Int} {g : Option Sign}
    (h : Lexer.readOne signToken (cs.map t.find) = (g, cs'.map t.find)) :
    (exponent.read (cs.map t.find)).1 = ⟨g, front t cs'⟩ := by
  change Exponent.mk (Lexer.readOne signToken _).1
    (Lexer.readMany digitToken (Lexer.readOne signToken _).2).1 = _
  rw [h]
  rfl

theorem read_exponent_unsigned (h : signToken.of (t.find c) = none) (cs : List Int) :
    (exponent.read ((c :: cs).map t.find)).1 = ⟨none, front t (c :: cs)⟩ := by
  refine read_exponent ?_
  rw [List.map_cons, Lexer.readOne, h]

theorem read_exponent_sign {g : Sign} (h : t.find c = signToken.char g) (cs : List Int) :
    (exponent.read ((c :: cs).map t.find)).1 = ⟨some g, front t cs⟩ := by
  have hof : signToken.of (t.find c) = some g := (signToken.of_eq _ _).mpr h.symm
  refine read_exponent ?_
  rw [List.map_cons, Lexer.readOne, hof]

/-- The exponent that is kept, as it is copied. -/
def exponentChars (x : Option Exponent) : List Char := spelled (spellExponent x)

theorem exponentChars_some (g : Option Sign) (ds : List (Fin 10)) :
    exponentChars (some ⟨g, ds⟩) = 'e' :: (spelled (spellSign g) ++ digitChars ds) := by
  rw [exponentChars, spellExponent_some, spelled, List.map_cons, List.map_append,
    (char_at_iff exponent_index).1.mpr rfl]
  rfl

theorem length_spellExponent (g : Option Sign) (ds : List (Fin 10)) :
    (spellExponent (some ⟨g, ds⟩)).length = signCount g + ds.length + 1 := by
  rw [spellExponent_some, List.length_cons, List.length_append, spellDigits, Lexer.many,
    List.length_map]
  cases g <;> rfl

/-- A character that is neither a digit nor a sign. -/
theorem char_at_stop {v : Nat} (h : ¬ v < 10) (hsign : signToken.of v = none) :
    char_at v = ' ' ∨ char_at v = '.' ∨ char_at v = 'e' := by
  obtain ⟨he, hpoint, hblank⟩ := char_at_iff v
  have hno : ¬ (v = CacheBase.plus ∨ v = CacheBase.minus) := fun hv =>
    signToken_of.mpr hv hsign
  rw [he, hpoint, hblank]
  grind

theorem char_at_digit {v : Nat} (h : v < 10) :
    ¬ (char_at v = ' ' ∨ char_at v = '.' ∨ char_at v = 'e') := by
  obtain ⟨he, hpoint, hblank⟩ := char_at_iff v
  rw [he, hpoint, hblank]
  unfold CacheBase.point exponent_index
  omega

theorem char_at_sign (g : Sign) :
    ¬ (char_at (signToken.char g) = ' ' ∨ char_at (signToken.char g) = '.' ∨
      char_at (signToken.char g) = 'e') := by
  cases g <;> decide

/-- The digits of the exponent are counted anew. -/
theorem get_exponent_spec (text : List Char) (factor : Nat) (cs : List Int) :
    get_exponent t text factor cs =
      finish (text ++ exponentChars ((tail t cs).map Exponent.shorten)) factor
        (cs.drop (spellExponent (tail t cs)).length) := by
  have hnone : exponentChars none = [] := rfl
  cases cs with
  | nil =>
    have htail : tail t [] = none := rfl
    rw [get_exponent, htail, Option.map_none, hnone, List.append_nil, List.drop_nil]
  | cons c cs =>
    unfold get_exponent
    dsimp only
    by_cases hc : t.find c = exponent_index
    · rw [if_pos ((char_at_iff _).1.mpr hc), tail_mark hc]
      cases cs with
      | nil =>
        have hread : (exponent.read (([] : List Int).map t.find)).1 = ⟨none, []⟩ := rfl
        rw [hread, Option.map_some, Exponent.shorten, List.take_nil, exponentChars_some]
        rfl
      | cons c' cs =>
        dsimp only
        obtain ⟨htext, -, hskip, -⟩ := counted_spec (t := t) 59
          (text ++ ['e', char_at (t.find c')]) c' cs
        have h60 : ((59 : Nat) : Int) + 1 = 60 := rfl
        rw [h60] at htext hskip
        by_cases hdigit : t.find c' < 10
        · rw [if_neg (char_at_digit hdigit), read_exponent_unsigned (signToken_digit hdigit),
            front_digit hdigit]
          rw [htext, hskip, Option.map_some, Exponent.shorten, exponentChars_some,
            length_spellExponent]
          simp [signCount, spellSign, Lexer.atMostOne, spelled, digitChars_cons]
        · cases hsign : signToken.of (t.find c') with
          | some g =>
            have hg := ((signToken.of_eq _ _).mp hsign).symm
            rw [if_neg (by rw [hg]; exact char_at_sign g), read_exponent_sign hg, htext, hskip,
              Option.map_some, Exponent.shorten, exponentChars_some, length_spellExponent, hg]
            simp [signCount, spellSign, Lexer.atMostOne, spelled, Nat.add_comm 1]
          | none =>
            rw [if_pos (char_at_stop hdigit hsign), read_exponent_unsigned hsign,
              front_stop hdigit, Option.map_some, Exponent.shorten, List.take_nil, exponentChars_some,
              length_spellExponent]
            rfl
    · rw [if_neg fun h => hc ((char_at_iff _).1.mp h), tail_stop hc, Option.map_none, hnone,
        List.append_nil, spellExponent_none, List.length_nil, List.drop_zero]

/-! ### The fraction -/

def spellFraction (f : Option (List (Fin 10))) : List Nat :=
  (Lexer.optional CacheBase.point (Lexer.many digitToken)).spell f

variable (t) in
/-- The point and the fraction at the beginning. -/
def behindPoint (cs : List Int) : Option (List (Fin 10)) :=
  ((Lexer.optional CacheBase.point (Lexer.many digitToken)).read (cs.map t.find)).1

theorem behindPoint_stop (h : t.find c ≠ CacheBase.point) (cs : List Int) :
    behindPoint t (c :: cs) = none := by
  simp [behindPoint, Lexer.optional, h]

theorem behindPoint_point (h : t.find c = CacheBase.point) (cs : List Int) :
    behindPoint t (c :: cs) = some (front t cs) := by
  simp [behindPoint, Lexer.optional, h, front]

theorem spelled_fraction (ds : List (Fin 10)) :
    spelled (spellFraction (some ds)) = '.' :: digitChars ds := by
  have hspell : spellFraction (some ds) = CacheBase.point :: spellDigits ds := rfl
  rw [hspell, spelled, List.map_cons, (char_at_iff CacheBase.point).2.1.mpr rfl]
  rfl

theorem length_spellFraction (ds : List (Fin 10)) :
    (spellFraction (some ds)).length = ds.length + 1 := by
  have hspell : spellFraction (some ds) = CacheBase.point :: spellDigits ds := rfl
  rw [hspell, List.length_cons, spellDigits, Lexer.many, List.length_map]

/-- The point is counted, unless the count has been used up. -/
theorem get_fraction_spec (j : Nat) (text : List Char) (factor : Nat) (cs : List Int) :
    get_fraction t false j text factor cs =
      get_exponent t
        (text ++ spelled (spellFraction ((behindPoint t cs).map fun ds =>
          if j = 0 then ds else ds.take (j - 1)))) factor
        (cs.drop (spellFraction (behindPoint t cs)).length) := by
  have hnone : spelled (spellFraction none) = [] := rfl
  have hempty : (spellFraction none).length = 0 := rfl
  cases cs with
  | nil =>
    have hread : behindPoint t [] = none := rfl
    rw [get_fraction, hread, Option.map_none, hnone, List.append_nil, List.drop_nil, get_exponent]
  | cons c cs =>
    unfold get_fraction
    dsimp only
    by_cases hc : t.find c = CacheBase.point
    · rw [if_pos ((char_at_iff _).2.1.mpr hc), if_neg (by decide), behindPoint_point hc,
        Option.map_some, spelled_fraction, length_spellFraction, List.drop_succ_cons]
      cases j with
      | zero =>
        have hused : ((0 : Nat) : Int) ≤ 0 := Int.le_refl 0
        obtain ⟨htext, hne, hbegin⟩ := exhausted_spec (t := t) hused (text ++ ['.']) c cs
        rw [if_neg hne, htext, hbegin, if_pos rfl, List.append_assoc]
        rfl
      | succ j =>
        obtain ⟨htext, -, hskip, -⟩ := counted_spec (t := t) j (text ++ ['.']) c cs
        have hcast : ((j + 1 : Nat) : Int) = j + 1 := by omega
        rw [hcast, hskip, htext, if_neg (Nat.succ_ne_zero j), Nat.add_sub_cancel, List.append_assoc]
        rfl
    · rw [if_neg fun h => hc ((char_at_iff _).2.1.mp h), behindPoint_stop hc, Option.map_none,
        hnone, List.append_nil, hempty, List.drop_zero]

theorem get_fraction_point (count : Int) (text : List Char) (factor : Nat) (cs : List Int) :
    get_fraction t true count text factor cs = get_exponent t text factor cs := by
  cases cs with
  | nil => rfl
  | cons c cs =>
    unfold get_fraction
    dsimp only
    by_cases hc : char_at (t.find c) = '.'
    · have he : char_at (t.find c) ≠ 'e' := by
        rw [hc]
        decide
      unfold get_exponent
      dsimp only
      rw [if_pos hc, if_pos rfl, if_neg he]
    · rw [if_neg hc]

/-! ### All of it -/

/-- The parts of the literal behind its sign. -/
theorem layout_eq {g : Option Sign} {cs cs' : List Int}
    (h : Lexer.readOne signToken (cs.map t.find) = (g, cs'.map t.find)) :
    layout t cs =
      ⟨⟨g, front t cs', behindPoint t (cs'.drop (front t cs').length)⟩,
        tail t ((cs'.drop (front t cs').length).drop
          (spellFraction (behindPoint t (cs'.drop (front t cs').length))).length)⟩ := by
  have hwhole : (Lexer.readMany digitToken (cs'.map t.find)).2 =
      (cs'.drop (front t cs').length).map t.find := by
    have hrest := rest_eq (t := t) (Lexer.many digitToken) cs'
    rwa [Lexer.many, List.length_map] at hrest
  have hfraction := rest_eq (t := t)
    (Lexer.optional CacheBase.point (Lexer.many digitToken)) (cs'.drop (front t cs').length)
  have hparts : layout t cs =
      let p := Lexer.readOne signToken (cs.map t.find)
      let q := Lexer.readMany digitToken p.2
      let r := (Lexer.optional CacheBase.point (Lexer.many digitToken)).read q.2
      ⟨⟨p.1, q.1, r.1⟩, ((Lexer.optional exponent_index exponent).read r.2).1⟩ := rfl
  rw [hparts, h]
  dsimp only
  rw [hwhole, hfraction]
  rfl

theorem spelled_append (s s' : List Nat) : spelled (s ++ s') = spelled s ++ spelled s' :=
  List.map_append

theorem spell_parts (l : Literal) :
    literal.spell l = spellSign l.sign ++ spellDigits l.whole ++ spellFraction l.fraction ++
      spellExponent l.exponent := by
  rw [spell_literal, spell_mantissa, spellBody, ← List.append_assoc]
  rfl

theorem length_spellSign (g : Option Sign) : (spellSign g).length = signCount g := by
  cases g <;> rfl

theorem length_spellDigits (ds : List (Fin 10)) : (spellDigits ds).length = ds.length :=
  List.length_map ..

/-- From the fraction on, behind a sign or an integer digit. -/
theorem behind_whole (digits10 : Nat) {factor : Nat} {text : List Char} {g : Option Sign}
    {cs cs' : List Int} (h : Lexer.readOne signToken (cs.map t.find) = (g, cs'.map t.find))
    (hcs : cs' = cs.drop (signCount g)) (hpoint : (layout t cs).pointed = false)
    (htext : text = spelled (spellSign g) ++
      digitChars ((front t cs').take (digits10 - signCount g)))
    (hfactor : factor = 10 ^ ((front t cs').length - (digits10 - signCount g))) :
    get_fraction t false ((digits10 - signCount g - (front t cs').length : Nat) : Int) text factor
        (cs'.drop (front t cs').length) =
      finish (spelled (literal.spell ((layout t cs).shorten digits10)))
        (10 ^ (layout t cs).scale digits10) (cs.drop (literal.spell (layout t cs)).length) := by
  have hlayout := layout_eq h
  have hat : (layout t cs).room digits10 = digits10 - signCount g := by
    rw [hlayout]
    rfl
  have hwhole : (layout t cs).whole = front t cs' := by rw [hlayout]
  have hscale : (layout t cs).scale digits10 =
      (front t cs').length - (digits10 - signCount g) := by
    rw [Literal.scale, hpoint, if_neg (by decide), hat, hwhole]
  have hkeep : (layout t cs).keep digits10 = fun ds =>
      if digits10 - signCount g - (front t cs').length = 0 then ds
      else ds.take (digits10 - signCount g - (front t cs').length - 1) := by
    funext ds
    rw [Mantissa.keep, hpoint, if_neg (by decide), hat, hwhole]
    by_cases hroom : digits10 - signCount g ≤ (front t cs').length
    · rw [if_pos hroom, if_pos (Nat.sub_eq_zero_of_le hroom)]
    · rw [if_neg hroom, if_neg (Nat.sub_ne_zero_of_lt (Nat.not_le.mp hroom))]
  have hspell : spelled (literal.spell ((layout t cs).shorten digits10)) =
      text ++ spelled (spellFraction ((layout t cs).fraction.map ((layout t cs).keep digits10))) ++
        exponentChars ((layout t cs).exponent.map Exponent.shorten) := by
    rw [spell_parts, htext, digitChars, ← spelled_append, ← spelled_append, exponentChars,
      ← spelled_append, hlayout]
    rfl
  have hlength : (literal.spell (layout t cs)).length = signCount g + (front t cs').length +
      (spellFraction (layout t cs).fraction).length +
      (spellExponent (layout t cs).exponent).length := by
    rw [spell_parts, List.length_append, List.length_append, List.length_append, length_spellDigits,
      hlayout, length_spellSign]
  rw [get_fraction_spec, get_exponent_spec, hspell, hscale, hfactor, hlength, hkeep]
  simp only [hlayout, hcs, List.drop_drop]

end

end FloatInputLemmas

open FloatInputLemmas FloatLiteralLemmas

/-- What is read is the literal at the beginning, and what is copied is the shortened one. -/
theorem get_float_spec (t : Cache) {digits10 : Nat} (hpos : 0 < digits10) (cs : List Int) :
    get_float t digits10 cs =
      if mantissa.spell (layout t cs).toMantissa = [] then
        ⟨false, cs, true, cs.isEmpty, [], 1⟩
      else finish (spelled (literal.spell ((layout t cs).shorten digits10)))
        (10 ^ (layout t cs).scale digits10) (cs.drop (literal.spell (layout t cs)).length) := by
  obtain ⟨k, rfl⟩ := Nat.exists_eq_succ_of_ne_zero (Nat.pos_iff_ne_zero.mp hpos)
  cases cs with
  | nil => rfl
  | cons c cs =>
    have hsucc : ((k.succ : Nat) : Int) = k + 1 := rfl
    obtain ⟨htext, hcount, -, hscaled⟩ := counted_spec (t := t) k [char_at (t.find c)] c cs
    obtain ⟨he, hpoint, hblank⟩ := char_at_iff (t.find c)
    unfold get_float
    dsimp only
    rw [hsucc, hscaled 1, htext, hcount]
    by_cases hdigit : t.find c < 10
    · have hof : signToken.of (t.find c) = none := signToken_digit hdigit
      have hread : Lexer.readOne signToken ((c :: cs).map t.find) = (none, (c :: cs).map t.find) := by
        rw [List.map_cons, Lexer.readOne, hof]
      have hfront := front_digit hdigit cs
      have hlayout := layout_eq hread
      have hpointed : (layout t (c :: cs)).pointed = false := by
        rw [hlayout, hfront]
        rfl
      have hne : mantissa.spell (layout t (c :: cs)).toMantissa ≠ [] := by
        rw [spell_mantissa, hlayout, hfront]
        exact List.cons_ne_nil _ _
      have hdone := behind_whole k.succ hread rfl hpointed rfl rfl
      have hzero : signCount none = 0 := rfl
      rw [hfront, hzero, Nat.sub_zero, List.length_cons, Nat.succ_eq_add_one,
        Nat.add_sub_add_right, Nat.add_sub_add_right, List.drop_succ_cons, List.take_succ_cons,
        digitChars_cons] at hdone
      have hnot := char_at_digit hdigit
      rw [if_neg fun h => hnot (h.imp_right .inr), if_neg hne,
        decide_eq_false fun h => hnot (.inr (.inl h)), Nat.one_mul]
      exact hdone
    · cases hsign : signToken.of (t.find c) with
      | some g =>
        have hg := (signToken.of_eq _ _).mp hsign
        have hread : Lexer.readOne signToken ((c :: cs).map t.find) = (some g, cs.map t.find) := by
          rw [List.map_cons, Lexer.readOne, hsign]
        have hlayout := layout_eq hread
        have hpointed : (layout t (c :: cs)).pointed = false := by
          rw [hlayout]
          rfl
        have hne : mantissa.spell (layout t (c :: cs)).toMantissa ≠ [] := by
          rw [spell_mantissa, hlayout]
          exact List.cons_ne_nil _ _
        have hdone := behind_whole k.succ hread rfl hpointed rfl rfl
        have hone : signCount (some g) = 1 := rfl
        have hspell : spelled (spellSign (some g)) = [char_at (t.find c)] := by
          rw [← hg]
          rfl
        rw [hone, Nat.succ_sub_one, hspell] at hdone
        have hnot := char_at_sign g
        rw [hg] at hnot
        rw [if_neg fun h => hnot (h.imp_right .inr), if_neg hne,
          decide_eq_false fun h => hnot (.inr (.inl h)), Nat.one_mul]
        exact hdone
      | none =>
        have hread : Lexer.readOne signToken ((c :: cs).map t.find) =
            (none, (c :: cs).map t.find) := by
          rw [List.map_cons, Lexer.readOne, hsign]
        have hfront := front_stop hdigit cs
        have hlayout := layout_eq hread
        rw [hfront, List.length_nil, List.drop_zero] at hlayout
        by_cases hp : t.find c = CacheBase.point
        · rw [behindPoint_point hp, length_spellFraction, List.drop_succ_cons] at hlayout
          have hne : mantissa.spell (layout t (c :: cs)).toMantissa ≠ [] := by
            rw [spell_mantissa, hlayout]
            exact List.cons_ne_nil _ _
          have hdot := hpoint.mpr hp
          have hdecide : (decide (char_at (t.find c) = '.')) = true := decide_eq_true hdot
          rw [if_neg (by rw [hdot]; decide), if_neg hne, hdecide, get_fraction_point,
            get_exponent_spec, hdot, Nat.one_mul]
          have hscale : (layout t (c :: cs)).scale k.succ = (front t cs).length - k := by
            rw [hlayout]
            rfl
          have hspell : spelled (literal.spell ((layout t (c :: cs)).shorten k.succ)) =
              ['.'] ++ digitChars ((front t cs).take k) ++
                exponentChars ((layout t (c :: cs)).exponent.map Exponent.shorten) := by
            rw [spell_parts, spelled_append, hlayout, ← exponentChars]
            exact congrArg (· ++ _) (spelled_fraction ((front t cs).take k))
          have hlength : (literal.spell (layout t (c :: cs))).length =
              (front t cs).length + 1 + (spellExponent (layout t (c :: cs)).exponent).length := by
            rw [spell_parts, List.length_append, hlayout]
            exact congrArg (· + _) (length_spellFraction (front t cs))
          rw [hscale, hspell, hlength, ← List.drop_drop, List.drop_succ_cons, hlayout]
        · rw [behindPoint_stop hp] at hlayout
          have hnil : mantissa.spell (layout t (c :: cs)).toMantissa = [] := by
            rw [spell_mantissa, hlayout]
            rfl
          rw [if_pos hnil, if_pos]
          · rfl
          · rcases char_at_stop hdigit hsign with h | h | h
            · exact .inl h
            · exact absurd (hpoint.mp h) hp
            · exact .inr h

/-- A failure is reported twice, and the end if nothing is left. -/
theorem get_float_bits (t : Cache) {digits10 : Nat} (hpos : 0 < digits10) (cs : List Int) :
    (get_float t digits10 cs).ok = !(get_float t digits10 cs).failbit ∧
      (get_float t digits10 cs).eofbit = (get_float t digits10 cs).begin.isEmpty := by
  rw [get_float_spec t hpos]
  split
  · exact ⟨rfl, rfl⟩
  · exact ⟨rfl, rfl⟩

/-! ## 2. The buffer -/

/-- How many characters the exponent has, with its `e`. -/
def Exponent.size (x : Exponent) : Nat := signCount x.sign + x.digits.length + 1

/-- The integer digits leave some of the count, or there is no point, or the fraction and the 61
characters of the exponent that are kept are short. -/
def Fits (digits10 : Nat) (l : Literal) : Prop :=
  l.whole.length < l.room digits10 ∨
    ∀ ds ∈ l.fraction, ds.length + min (l.exponent.elim 0 Exponent.size) 61 ≤ 62

instance (digits10 : Nat) (l : Literal) : Decidable (Fits digits10 l) :=
  inferInstanceAs (Decidable (_ ∨ _))

namespace FloatInputLemmas

theorem signCount_le (g : Option Sign) : signCount g ≤ 1 := by
  cases g with
  | none => exact Nat.zero_le 1
  | some g => exact Nat.le_refl 1

theorem length_exponent (x : Option Exponent) :
    (spellExponent x).length = x.elim 0 Exponent.size := by
  cases x with
  | none => rfl
  | some x => exact length_spellExponent x.sign x.digits

theorem length_shortened (x : Option Exponent) :
    (spellExponent (x.map Exponent.shorten)).length = min (x.elim 0 Exponent.size) 61 := by
  rw [length_exponent]
  cases x with
  | none => rfl
  | some x =>
    have hsign := signCount_le x.sign
    simp only [Option.map_some, Option.elim_some, Exponent.size, Exponent.shorten,
      List.length_take]
    omega

theorem length_text (digits10 : Nat) (l : Literal) :
    (literal.spell (l.shorten digits10)).length =
      signCount l.sign + min (l.room digits10) l.whole.length +
        l.fraction.elim 0 (fun ds => (l.keep digits10 ds).length + 1) +
        min (l.exponent.elim 0 Exponent.size) 61 := by
  rw [spell_parts, List.length_append, List.length_append, List.length_append, length_spellDigits,
    length_spellSign]
  have hexponent : (spellExponent (l.shorten digits10).exponent).length =
      min (l.exponent.elim 0 Exponent.size) 61 := length_shortened l.exponent
  have hfraction : (spellFraction (l.shorten digits10).fraction).length =
      l.fraction.elim 0 fun ds => (l.keep digits10 ds).length + 1 := by
    cases h : l.fraction with
    | none =>
      have hnone : (l.shorten digits10).fraction = none := by simp [Literal.shorten, h]
      rw [hnone]
      rfl
    | some ds =>
      have hsome : (l.shorten digits10).fraction = some (l.keep digits10 ds) := by
        simp [Literal.shorten, h]
      rw [hsome, length_spellFraction]
      rfl
  rw [hexponent, hfraction, Literal.shorten, List.length_take]

/-- The text has at most `digits10` characters in front of the exponent as long as the count is not
used up by the integer digits. -/
theorem text_fits_iff {digits10 : Nat} (hpos : 0 < digits10) (l : Literal) :
    (literal.spell (l.shorten digits10)).length < bufsize digits10 ↔ Fits digits10 l := by
  have hsign := signCount_le l.sign
  have hroom : l.room digits10 = digits10 - signCount l.sign := rfl
  rw [length_text, bufsize, Fits]
  cases hf : l.fraction with
  | none =>
    refine iff_of_true ?_ (.inr fun ds hds => nomatch hds)
    rw [Option.elim_none]
    omega
  | some ds =>
    simp only [Option.elim_some, Option.mem_some_iff, forall_eq']
    by_cases hp : l.pointed = true
    · have hnone : l.sign = none ∧ l.whole = [] := by
        simpa [Mantissa.pointed] using hp
      have hkeep : l.keep digits10 ds = ds.take (digits10 - 1) := by rw [Mantissa.keep, if_pos hp]
      rw [hkeep, List.length_take, hroom, hnone.1, hnone.2]
      have hzero : signCount none = 0 := rfl
      rw [hzero, List.length_nil]
      omega
    · by_cases hle : l.room digits10 ≤ l.whole.length
      · have hkeep : l.keep digits10 ds = ds := by
          rw [Mantissa.keep, if_neg hp, if_pos hle]
        rw [hkeep]
        omega
      · have hkeep : l.keep digits10 ds = ds.take (l.room digits10 - l.whole.length - 1) := by
          rw [Mantissa.keep, if_neg hp, if_neg hle]
        rw [hkeep, List.length_take]
        omega

end FloatInputLemmas

/-- Where all writes stay inside of the buffer. -/
theorem writes_inside_iff (t : Cache) {digits10 : Nat} (hpos : 0 < digits10) (cs : List Int) :
    (∀ i ∈ (get_float t digits10 cs).writes, i < bufsize digits10) ↔
      Fits digits10 (layout t cs) := by
  rw [get_float_spec t hpos, ← text_fits_iff hpos]
  split
  · next hnil =>
    refine iff_of_true (fun i hi => nomatch hi) ((text_fits_iff hpos _).mpr (.inl ?_))
    have hlength := congrArg List.length hnil
    rw [spell_mantissa, spellBody, List.length_append, List.length_append, length_spellSign,
      length_spellDigits, List.length_nil] at hlength
    rw [Mantissa.room]
    omega
  · have hwrites : ∀ i, i ∈ (finish (spelled (literal.spell ((layout t cs).shorten digits10)))
        (10 ^ (layout t cs).scale digits10) (cs.drop (literal.spell (layout t cs)).length)).writes ↔
          i ≤ (literal.spell ((layout t cs).shorten digits10)).length := fun i => by
      rw [Extracted.writes, finish, if_pos rfl, List.mem_range, spelled, List.length_map,
        Nat.lt_succ_iff]
    constructor
    · exact fun h => h _ ((hwrites _).mpr (Nat.le_refl _))
    · exact fun h i hi => Nat.lt_of_le_of_lt ((hwrites i).mp hi) h

/-- The 18 digits of `long double` on x86. -/
theorem writes_inside_iff_example :
    (∀ i ∈ (get_float classic 18 ("-12.5e3".toList.map widen)).writes, i < bufsize 18) ↔
      Fits 18 (layout classic ("-12.5e3".toList.map widen)) :=
  writes_inside_iff classic (by decide) _

/-- As many integer digits as are counted, and 63 digits behind the point: the null is written
behind the end of the buffer. -/
theorem not_writes_inside :
    ¬ ∀ cs : List Int, ∀ i ∈ (get_float classic 18 cs).writes, i < bufsize 18 := by
  intro h
  have hlast := h (List.replicate 18 (widen '1') ++ widen '.' :: List.replicate 63 (widen '5')) 82
  revert hlast
  decide +kernel

end Kuhllib.Cxxrt.FloatInput
