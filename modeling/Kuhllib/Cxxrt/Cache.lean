import Mathlib.Order.Lattice
import Mathlib.Data.Int.Order.Basic

/-!
# `_CS_cache`

The facet that keeps the widened digits, signs and punctuation of a locale: a table
for output in the order of the values, and a sorted one for input with the values
beside it. A character is its code, for `char` and `wchar_t` alike.
-/

namespace Kuhllib.Cxxrt

namespace CacheBase

def plus : Nat := 16
def minus : Nat := 17
def hex : Nat := 18
def space : Nat := 19
def sep : Nat := 20
def point : Nat := 21
def none : Nat := 22

end CacheBase

def positive_index : Nat := 16
def negative_index : Nat := 17
def binary_index : Nat := 18
def hexadecimal_index : Nat := 19
def separator_index : Nat := 20

/-! ## Sorting the table -/

structure SortVal (α : Type) where
  wide : α
  val : Nat
  deriving DecidableEq, Repr

section

variable {α : Type} [LinearOrder α]

/-- `while (*b < *e) --e;` -/
def while_down (a : List (SortVal α)) (b : Nat) : Nat → Option Nat
  | 0 => do if (← a[b]?).wide < (← a[0]?).wide then none else some 0
  | e + 1 => do
    if (← a[b]?).wide < (← a[e + 1]?).wide then while_down a b e else some (e + 1)

/-- `while (*b < *e) ++b;`, for at most the given number of turns. -/
def while_up (a : List (SortVal α)) (e : Nat) : Nat → Nat → Option Nat
  | 0, _ => none
  | n + 1, b => do
    if (← a[b]?).wide < (← a[e]?).wide then while_up a e n (b + 1) else some b

def partition_loop : Nat → List (SortVal α) → Nat → Nat → Option (List (SortVal α) × Nat)
  | 0, _, _, _ => none
  | n + 1, a, b, e =>
    if b < e then do
      let e ← while_down a b e
      let x ← a[b]?
      let y ← a[e]?
      let (a, b) :=
        if b ≠ e then if x.wide = y.wide then (a, b + 1) else ((a.set b y).set e x, b) else (a, b)
      let b ← while_up a e a.length b
      let x ← a[b]?
      let y ← a[e]?
      let (a, e) :=
        if b ≠ e then if x.wide = y.wide then (a, e - 1) else ((a.set b y).set e x, e) else (a, e)
      partition_loop n a b e
    else some (a, b)

def partition (a : List (SortVal α)) (b e : Nat) : Option (List (SortVal α) × Nat) :=
  partition_loop (a.length + 1) a b (e - 1)

def quicksort : Nat → List (SortVal α) → Nat → Nat → Option (List (SortVal α))
  | 0, _, _, _ => none
  | n + 1, a, b, e =>
    if b ≠ e then do
      let (a, mid) ← partition a b e
      let a ← quicksort n a b mid
      quicksort n a (mid + 1) e
    else some a

end

/-! ## The tables -/

def lt : String := "0123456789abcdef+-bx,."
def ut : String := "0123456789ABCDEF+-BX,."
def st : String := "0123456789abcdefABCDEF+-xX \t\n,."

def ivals : List Nat :=
  [0, 1, 2, 3, 4, 5, 6, 7, 8, 9, 10, 11, 12, 13, 14, 15, 10, 11, 12, 13, 14, 15,
    CacheBase.plus, CacheBase.minus, CacheBase.hex, CacheBase.hex, CacheBase.space,
    CacheBase.space, CacheBase.space, CacheBase.sep, CacheBase.point]

structure Cache where
  grouping : List Int
  scan_table : List Int
  vals_table : List Nat
  lower_table : List Int
  upper_table : List Int
  deriving DecidableEq, Repr

def widen (c : Char) : Int := c.toNat

/-- `_CS_init` for the classic `ctype` and a `numpunct` with the given members. -/
def init (grouping : List Int) (thousands_sep decimal_point : Int) : Option Cache := do
  let scan_table := (st.toList.take 29).map widen ++ [thousands_sep, decimal_point]
  let array := scan_table.zipWith SortVal.mk ivals
  let array ← quicksort 32 array 0 31
  pure {
    grouping := grouping
    scan_table := array.map SortVal.wide
    vals_table := array.map SortVal.val
    lower_table := (lt.toList.take 20).map widen ++ [thousands_sep, decimal_point]
    upper_table := (ut.toList.take 20).map widen ++ [thousands_sep, decimal_point] }

/-- The binary search in the table of 31 characters. -/
def Cache.find (t : Cache) (c : Int) : Nat :=
  let scan (i : Nat) : Int := t.scan_table.getD i 0
  let move (i k : Nat) : Nat := if scan i < c then i + k else i - k
  let fnd :=
    if scan 15 ≠ c then
      let fnd := move 15 8
      if scan fnd ≠ c then
        let fnd := move fnd 4
        if scan fnd ≠ c then
          let fnd := move fnd 2
          if scan fnd ≠ c then move fnd 1 else fnd
        else fnd
      else fnd
    else 15
  if scan fnd = c then t.vals_table.getD fnd 0 else CacheBase.none

/-! ## The classic locale -/

def classic : Cache where
  grouping := []
  scan_table :=
    ("\t\n +,-.0123456789ABCDEFXabcdefx".toList).map widen
  vals_table :=
    [19, 19, 19, 16, 20, 17, 21, 0, 1, 2, 3, 4, 5, 6, 7, 8, 9, 10, 11, 12, 13, 14, 15, 18,
      10, 11, 12, 13, 14, 15, 18]
  lower_table := lt.toList.map widen
  upper_table := ut.toList.map widen

theorem init_classic : init [] (widen ',') (widen '.') = some classic := by
  decide +kernel

/-- The value of a digit. -/
def digit (c : Int) : Option Nat :=
  if 48 ≤ c ∧ c ≤ 57 then some (c - 48).toNat
  else if 65 ≤ c ∧ c ≤ 70 then some (c - 55).toNat
  else if 97 ≤ c ∧ c ≤ 102 then some (c - 87).toNat
  else none

def isHex (c : Int) : Prop := c = widen 'x' ∨ c = widen 'X'

instance (c : Int) : Decidable (isHex c) := inferInstanceAs (Decidable (_ ∨ _))

/-- The values of the characters of the table, and `none` for all others. -/
def value (c : Int) : Nat :=
  match digit c with
  | some d => d
  | none =>
    if c = widen '+' then CacheBase.plus
    else if c = widen '-' then CacheBase.minus
    else if isHex c then CacheBase.hex
    else if c = widen ' ' ∨ c = widen '\t' ∨ c = widen '\n' then CacheBase.space
    else if c = widen ',' then CacheBase.sep
    else if c = widen '.' then CacheBase.point
    else CacheBase.none

theorem find_ascii : ∀ c : Fin 128, classic.find (c : Nat) = value (c : Nat) := by
  decide +kernel

/-- What is not in the table is not found. -/
theorem find_none {t : Cache} {c : Int} (h : ∀ i, t.scan_table.getD i 0 ≠ c) :
    t.find c = CacheBase.none := by
  unfold Cache.find
  exact if_neg (h _)

theorem value_none {c : Int} (h : c < 0 ∨ 128 ≤ c) : value c = CacheBase.none := by
  have hdigit : digit c = none := by
    unfold digit
    rw [if_neg (by omega), if_neg (by omega), if_neg (by omega)]
  have hne : ∀ d : Char, d.toNat < 128 → c ≠ widen d := by
    intro d hd
    unfold widen
    omega
  unfold value isHex
  rw [hdigit]
  simp only [hne '+' (by decide), hne '-' (by decide), hne 'x' (by decide), hne 'X' (by decide),
    hne ' ' (by decide), hne '\t' (by decide), hne '\n' (by decide), hne ',' (by decide),
    hne '.' (by decide), or_self, if_false]

theorem find_classic (c : Int) : classic.find c = value c := by
  by_cases h : 0 ≤ c ∧ c < 128
  · have hascii := find_ascii ⟨c.toNat, by omega⟩
    rwa [Int.toNat_of_nonneg h.1] at hascii
  · rw [value_none (by omega)]
    refine find_none fun i hi => ?_
    have hrange : ∀ x ∈ classic.scan_table, 0 ≤ x ∧ x < 128 := by decide +kernel
    rw [List.getD_eq_getElem?_getD] at hi
    cases hx : classic.scan_table[i]? with
    | none =>
      rw [hx] at hi
      simp only [Option.getD_none] at hi
      omega
    | some x =>
      have hmem := hrange x (List.mem_of_getElem? hx)
      rw [hx] at hi
      simp only [Option.getD_some] at hi
      omega

/-! ### What the values mean -/

section

variable {c : Int} {d b : Nat}

theorem digit_lt (h : digit c = some d) : d < 16 := by
  unfold digit at h
  split at h
  · simp only [Option.some.injEq] at h
    omega
  · split at h
    · simp only [Option.some.injEq] at h
      omega
    · split at h
      · simp only [Option.some.injEq] at h
        omega
      · cases h

theorem value_digit (h : digit c = some d) : value c = d := by
  unfold value
  rw [h]

/-- A character is a digit, a sign, an `x` or nothing that an integer contains. -/
theorem value_cases (c : Int) :
    (∃ d, digit c = some d ∧ value c = d) ∨
      digit c = none ∧
        (c = widen '+' ∧ value c = CacheBase.plus ∨ c = widen '-' ∧ value c = CacheBase.minus ∨
          isHex c ∧ value c = CacheBase.hex ∨
          c ≠ widen '+' ∧ c ≠ widen '-' ∧ ¬ isHex c ∧ CacheBase.space ≤ value c) := by
  cases h : digit c with
  | some d => exact .inl ⟨d, rfl, value_digit h⟩
  | none =>
    refine .inr ⟨rfl, ?_⟩
    unfold value
    rw [h]
    dsimp only
    by_cases hplus : c = widen '+'
    · exact .inl ⟨hplus, if_pos hplus⟩
    · by_cases hminus : c = widen '-'
      · exact .inr (.inl ⟨hminus, by rw [if_neg hplus, if_pos hminus]⟩)
      · by_cases hhex : isHex c
        · exact .inr (.inr (.inl ⟨hhex, by rw [if_neg hplus, if_neg hminus, if_pos hhex]⟩))
        · refine .inr (.inr (.inr ⟨hplus, hminus, hhex, ?_⟩))
          rw [if_neg hplus, if_neg hminus, if_neg hhex]
          repeat' split
          all_goals decide

/-- The value of what is no digit is not below a base. -/
theorem le_value (h : digit c = none) : 16 ≤ value c := by
  rcases value_cases c with ⟨d, hd, -⟩ | ⟨-, ⟨-, hv⟩ | ⟨-, hv⟩ | ⟨-, hv⟩ | ⟨-, -, -, hv⟩⟩
  · rw [h] at hd
    cases hd
  · rw [hv]
    decide
  · rw [hv]
    decide
  · rw [hv]
    decide
  · exact Nat.le_trans (by decide) hv

/-- Below a base there are its digits only. -/
theorem value_lt_iff (hb : b ≤ 16) : value c < b ↔ ∃ d, digit c = some d ∧ d < b := by
  cases h : digit c with
  | none =>
    have := le_value h
    simp only [reduceCtorEq, false_and, exists_false, iff_false]
    omega
  | some d =>
    rw [value_digit h]
    simp

theorem digit_hex (h : isHex c) : digit c = none := by
  rcases h with rfl | rfl <;> decide

theorem value_eq_zero : value c = 0 ↔ c = widen '0' := by
  constructor
  · intro h
    obtain ⟨d, hd, -⟩ := (value_lt_iff (by decide : 1 ≤ 16)).mp (by omega : value c < 1)
    rw [value_digit hd] at h
    subst h
    have hrange : 48 ≤ c ∧ c ≤ 57 ∨ 65 ≤ c ∧ c ≤ 70 ∨ 97 ≤ c ∧ c ≤ 102 := by
      by_contra hno
      rw [digit, if_neg (by omega), if_neg (by omega), if_neg (by omega)] at hd
      cases hd
    unfold digit at hd
    simp only [widen]
    rcases hrange with h | h | h
    · rw [if_pos h, Option.some.injEq] at hd
      show c = 48
      omega
    · rw [if_neg (by omega), if_pos h, Option.some.injEq] at hd
      omega
    · rw [if_neg (by omega), if_neg (by omega), if_pos h, Option.some.injEq] at hd
      omega
  · rintro rfl
    decide

/-- Which characters the marks of the table stand for. The plus sign is the only one
besides the digits that is not above 16. -/
theorem value_marks (c : Int) :
    (value c = CacheBase.plus ↔ c = widen '+') ∧ (value c = CacheBase.minus ↔ c = widen '-') ∧
      (value c = CacheBase.hex ↔ isHex c) ∧ (16 < value c ↔ digit c = none ∧ c ≠ widen '+') := by
  rcases value_cases c with
    ⟨d, hd, hv⟩ | ⟨hd, ⟨rfl, -⟩ | ⟨rfl, -⟩ | ⟨rfl | rfl, -⟩ | ⟨hplus, hminus, hhex, hv⟩⟩
  · have hlt := digit_lt hd
    have hne : ∀ x, digit x = none → c ≠ x := by
      rintro x hx rfl
      rw [hd] at hx
      cases hx
    rw [hv]
    refine ⟨iff_of_false (Nat.ne_of_lt hlt) (hne _ (by decide)),
      iff_of_false (Nat.ne_of_lt (Nat.lt_succ_of_lt hlt)) (hne _ (by decide)),
      iff_of_false (Nat.ne_of_lt (Nat.lt_of_lt_of_le hlt (by decide))) fun hc => ?_,
      iff_of_false (Nat.not_lt.mpr (Nat.le_of_lt hlt)) fun hc => ?_⟩
    · rw [digit_hex hc] at hd
      cases hd
    · rw [hd] at hc
      cases hc.1
  · decide
  · decide
  · decide
  · decide
  · have hgt : ∀ n, n < CacheBase.space → value c ≠ n := fun n hn =>
      Nat.ne_of_gt (Nat.lt_of_lt_of_le hn hv)
    exact ⟨iff_of_false (hgt _ (by decide)) hplus, iff_of_false (hgt _ (by decide)) hminus,
      iff_of_false (hgt _ (by decide)) hhex,
      iff_of_true (Nat.lt_of_lt_of_le (by decide) hv) ⟨hd, hplus⟩⟩

end

end Kuhllib.Cxxrt
