import Kuhllib.Cxxrt.NumGet
import Kuhllib.Cxxrt.Streambuf
import Mathlib.Data.Nat.Digits.Lemmas

/-!
# `num_put`: integers

The buffer is filled from its end, so a pointer into it is the list of the characters
from there on.
-/

namespace Kuhllib.Cxxrt

inductive Adjustfield
  | left
  | internal
  | right
  | none
  deriving DecidableEq, Repr

structure Fmtflags where
  basefield : Basefield
  adjustfield : Adjustfield
  showbase : Bool
  showpos : Bool
  uppercase : Bool
  deriving DecidableEq, Repr

/-- `(fmt & basefield) + 1`, or 10 without a base. -/
def Basefield.put_base : Basefield → Nat
  | .oct => 8
  | .dec => 10
  | .hex => 16
  | .none => 10

def char_max : Int := 127

section

variable (cvt : List Int) (base : Nat)

/-- `for (; value > 0; value /= base) *--begin = cvt[value % base];` -/
def digit_loop (value : Nat) (begin : List Int) : List Int :=
  if 0 < value ∧ 1 < base then
    digit_loop (value / base) (cvt.getD (value % base) 0 :: begin)
  else begin
termination_by value
decreasing_by exact Nat.div_lt_self (by omega) (by omega)

/-- The loop with the separators between the groups. -/
def group_loop (grouping : List Int) (value group_index : Nat) (next_separator : Int)
    (begin : List Int) : List Int :=
  if 0 < value ∧ 1 < base then
    let put := cvt.getD (value % base) 0
    if next_separator = 1 then
      let begin := put :: cvt.getD separator_index 0 :: begin
      if group_index < grouping.length then
        group_loop grouping (value / base) (group_index + 1) (grouping.getD group_index 0) begin
      else
        group_loop grouping (value / base) group_index (grouping.getD (group_index - 1) 0) begin
    else group_loop grouping (value / base) group_index (next_separator - 1) (put :: begin)
  else begin
termination_by value
decreasing_by all_goals exact Nat.div_lt_self (by omega) (by omega)

def put_digits (grouping : List Int) (value : Nat) (begin : List Int) : List Int :=
  if value = 0 then cvt.getD 0 0 :: begin
  else if grouping.length = 0 ∨ grouping.getD 0 0 = char_max then digit_loop cvt base value begin
  else group_loop cvt base grouping value 1 (grouping.getD 0 0 + 1) begin

def put_sign (negative : Bool) (fmt : Fmtflags) (begin : List Int) : List Int :=
  if negative then cvt.getD negative_index 0 :: begin
  else if fmt.showpos then cvt.getD positive_index 0 :: begin
  else begin

def put_prefix (fmt : Fmtflags) (begin : List Int) (value : Int) (negative : Bool) : List Int :=
  if fmt.showbase then
    if base = 2 then cvt.getD 0 0 :: cvt.getD binary_index 0 :: begin
    else if base = 8 then if value ≠ 0 then cvt.getD 0 0 :: begin else begin
    else if base = 16 then cvt.getD 0 0 :: cvt.getD hexadecimal_index 0 :: begin
    else if base = 10 then put_sign cvt negative fmt begin
    else begin
  else if base = 10 then put_sign cvt negative fmt begin
  else begin

/-- `begin` and `fillpos`. The type of the value is signed or not. -/
def format (signed : Bool) (fmt : Fmtflags) (grouping : List Int) (val : Int) :
    List Int × List Int :=
  let base := fmt.basefield.put_base
  let negative := signed && decide (val < 0) && decide (base = 10)
  let p_val := ((if negative then -val else val) % 2 ^ 64).toNat
  let digits := put_digits cvt base grouping p_val []
  let begin := put_prefix cvt base fmt digits val negative
  match fmt.adjustfield with
  | .left => (begin, [])
  | .internal => (begin, if base ≠ 8 then digits else [])
  | .right | .none => (begin, begin)

end

/-- The characters written, and the width afterwards. The number of fill characters is an
`int`. -/
def do_put (t : Cache) (signed : Bool) (fmt : Fmtflags) (width : Int) (fill val : Int) :
    List Int × Int :=
  let cvt := if fmt.uppercase then t.upper_table else t.lower_table
  let (begin, fillpos) := format cvt signed fmt t.grouping val
  if width ≠ 0 then
    let f := to_int (width - begin.length)
    if f > 0 then
      (begin.take (begin.length - fillpos.length) ++ List.replicate f.toNat fill ++ fillpos, 0)
    else (begin, 0)
  else (begin, width)

/-- The characters written. -/
def new_num_put (t : Cache) (signed : Bool) (fmt : Fmtflags) (width : Int) (fill val : Int) :
    List Int :=
  (do_put t signed fmt width fill val).1

/-! ## What is written -/

namespace NumPutLemmas

variable {cvt : List Int} {base value : Nat}

theorem digit_loop_eq (hb : 1 < base) (value : Nat) (begin : List Int) :
    digit_loop cvt base value begin =
      (Nat.digits base value).reverse.map (cvt.getD · 0) ++ begin := by
  induction value, begin using digit_loop.induct cvt base with
  | case1 value begin h ih =>
    rw [digit_loop, if_pos h, ih, Nat.digits_def' hb h.1, List.reverse_cons, List.map_append,
      List.append_assoc]
    rfl
  | case2 value begin h =>
    obtain rfl : value = 0 := by omega
    rw [digit_loop, if_neg h, Nat.digits_zero]
    rfl

/-- The digits of a value, a zero for zero. -/
def numeral (base value : Nat) : List Nat :=
  if value = 0 then [0] else (Nat.digits base value).reverse

theorem put_digits_eq (hb : 1 < base) (value : Nat) (begin : List Int) :
    put_digits cvt base [] value begin =
      (numeral base value).map (cvt.getD · 0) ++ begin := by
  unfold put_digits numeral
  split
  · rfl
  · rw [if_pos (.inl rfl), digit_loop_eq hb]

theorem numeral_ne_nil (base value : Nat) : numeral base value ≠ [] := by
  unfold numeral
  split
  next => simp
  next h => simp [Nat.digits_ne_nil_iff_ne_zero.mpr h]

theorem numeral_lt (hb : 1 < base) : ∀ d ∈ numeral base value, d < base := by
  unfold numeral
  split
  · simp only [List.mem_singleton]
    omega
  · intro d hd
    exact Nat.digits_lt_base hb (List.mem_reverse.mp hd)

theorem value_numeral (base value : Nat) : Numeral.value base (numeral base value) = value := by
  unfold numeral
  split
  next h => simp [h]
  next => exact Numeral.value_digits base value

/-- Only zero begins with a zero. -/
theorem numeral_head (h : (numeral base value).head? = some 0) : value = 0 := by
  by_contra hne
  have hdigits : Nat.digits base value ≠ [] := Nat.digits_ne_nil_iff_ne_zero.mpr hne
  rw [numeral, if_neg hne, List.head?_reverse, List.getLast?_eq_some_getLast hdigits] at h
  exact Nat.getLast_digit_ne_zero base hne (Option.some.inj h)

end NumPutLemmas

end Kuhllib.Cxxrt
