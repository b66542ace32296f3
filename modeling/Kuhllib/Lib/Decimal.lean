import Kuhllib.Lib.Numeral
import Mathlib.Data.Int.Log
import Mathlib.Data.List.TakeWhile
import Mathlib.Data.Rat.Floor
import Mathlib.Data.Sign.Basic
import Mathlib.Algebra.Order.Field.Power
import Mathlib.Tactic.FieldSimp
import Mathlib.Tactic.Positivity

/-!
# Decimal numbers and their significant digits

A number is given by digits and the place of the last one. Two numbers agree in their first `n`
significant digits if they are the same when all that is behind these digits is cut off.

Results:
1. `cut_value`: what is left of digits when they are cut.
2. `cut_eq_iff`: agreement can be read off the digits.
-/

namespace Decimal

/-- The last digit counts `10 ^ e`. -/
def value (ds : List Nat) (e : ℤ) : ℚ := Numeral.value 10 ds * 10 ^ e

/-- The place of the last one of the first `n` significant digits. -/
def place (n : Nat) (x : ℚ) : ℤ := Int.log 10 |x| + 1 - n

/-- `x` without what is behind its first `n` significant digits. -/
def cut (n : Nat) (x : ℚ) : ℚ := SignType.sign x * (⌊|x| / 10 ^ place n x⌋ * 10 ^ place n x)

def significant (ds : List Nat) : List Nat := ds.dropWhile (· = 0)

/-- The first `n` significant digits, and the place in front of them. -/
def leading (n : Nat) (ds : List Nat) (e : ℤ) : Option (List Nat × ℤ) :=
  if significant ds = [] then none
  else some ((significant ds ++ List.replicate n 0).take n, e + (significant ds).length)

variable {n : Nat} {ds es : List Nat} {e e' : ℤ} {x y : ℚ}

theorem leading_zeros (h : ∀ d ∈ ds, d = 0) : leading n ds e = none := by
  refine if_pos ?_
  rw [significant, List.dropWhile_eq_nil_iff]
  exact fun d hd => decide_eq_true (h d hd)

/-! ## Values -/

theorem value_nonneg : 0 ≤ value ds e := by
  unfold value
  positivity

theorem value_ne_zero {d : Nat} (hd : d ≠ 0) : value (d :: ds) e ≠ 0 := by
  have h : Numeral.value 10 (d :: ds) ≠ 0 :=
    Nat.ne_of_gt (Nat.lt_of_lt_of_le (by positivity) (Numeral.le_value hd))
  unfold value
  positivity

theorem value_significant : value (significant ds) e = value ds e := by
  have h : Numeral.value 10 (significant ds) = Numeral.value 10 ds := by
    induction ds with
    | nil => rfl
    | cons d ds ih =>
      by_cases hd : d = 0
      · rw [significant, List.dropWhile_cons_of_pos (by simpa using hd), hd,
          Numeral.value_zero_cons]
        exact ih
      · rw [significant, List.dropWhile_cons_of_neg (by simpa using hd)]
  rw [value, value, h]

theorem value_pad (n : Nat) : value (ds ++ List.replicate n 0) (e - n) = value ds e := by
  have hzero : Numeral.value 10 (List.replicate n 0) = 0 := by
    induction n with
    | zero => rfl
    | succ n ih => rw [List.replicate_succ, Numeral.value_zero_cons, ih]
  rw [value, value, Numeral.value_append, hzero, List.length_replicate, Nat.add_zero,
    zpow_sub₀ (by norm_num), zpow_natCast]
  push_cast
  field_simp

theorem significant_head {d : Nat} {ds' : List Nat} (h : significant ds = d :: ds') : d ≠ 0 := by
  have hhead := List.head?_dropWhile_not (· = 0) ds
  unfold significant at h
  rw [h] at hhead
  simpa using hhead

theorem significant_subset : significant ds ⊆ ds := fun _ hd =>
  (List.dropWhile_sublist _).subset hd

/-- The size of digits that begin with a significant one. -/
theorem log_value {d : Nat} (hd : d ≠ 0) (hds : ∀ x ∈ d :: ds, x < 10) :
    Int.log 10 (value (d :: ds) e) = e + ds.length := by
  have hlow : (10 : ℚ) ^ (e + ds.length) ≤ value (d :: ds) e := by
    have h : ((10 ^ ds.length : Nat) : ℚ) ≤ Numeral.value 10 (d :: ds) :=
      Nat.cast_le.mpr (Numeral.le_value hd)
    rw [add_comm, zpow_add₀ (by norm_num), zpow_natCast, value]
    push_cast at h
    gcongr
  have hhigh : value (d :: ds) e < (10 : ℚ) ^ (e + ds.length + 1) := by
    have h : ((Numeral.value 10 (d :: ds) : Nat) : ℚ) < ((10 ^ (ds.length + 1) : Nat) : ℚ) :=
      Nat.cast_lt.mpr (Numeral.value_lt hds)
    rw [add_assoc, add_comm, zpow_add₀ (by norm_num), value]
    push_cast at h
    have hpow : (10 : ℚ) ^ ((ds.length : ℤ) + 1) = 10 ^ (ds.length + 1) := by
      exact_mod_cast zpow_natCast (10 : ℚ) (ds.length + 1)
    rw [hpow]
    gcongr
  have hpos : 0 < value (d :: ds) e := lt_of_lt_of_le (by positivity) hlow
  have hle := (Int.zpow_le_iff_le_log (by norm_num : 1 < 10) hpos).mp hlow
  have hlt := (Int.lt_zpow_iff_log_lt (by norm_num : 1 < 10) hpos).mp hhigh
  omega

/-! ## 1. Cutting -/

@[simp]
theorem cut_neg : cut n (-x) = -cut n x := by
  simp [cut, place, Left.sign_neg]

@[simp]
theorem cut_zero : cut n 0 = 0 := by
  simp [cut]

theorem cut_digits {d : Nat} (hd : d ≠ 0) (hds : ∀ x ∈ d :: ds, x < 10)
    (hn : n ≤ (d :: ds).length) :
    cut n (value (d :: ds) e) = value ((d :: ds).take n) (e + ds.length + 1 - n) := by
  have hsplit : Numeral.value 10 (d :: ds) =
      Numeral.value 10 ((d :: ds).take n) * 10 ^ ((d :: ds).drop n).length +
        Numeral.value 10 ((d :: ds).drop n) := by
    rw [← Numeral.value_append, List.take_append_drop]
  have hrest : Numeral.value 10 ((d :: ds).drop n) < 10 ^ ((d :: ds).drop n).length :=
    Numeral.value_lt fun x hx => hds x (List.mem_of_mem_drop hx)
  have hplace : e + ds.length + 1 - n = e + ((d :: ds).drop n).length := by
    rw [List.length_drop, Nat.cast_sub hn, List.length_cons]
    push_cast
    ring
  have hpos : 0 < value (d :: ds) e := lt_of_le_of_ne value_nonneg (value_ne_zero hd).symm
  have hat : place n (value (d :: ds) e) = e + ds.length + 1 - n := by
    rw [place, abs_of_pos hpos, log_value hd hds]
  have hfloor : ⌊value (d :: ds) e / 10 ^ (e + ((d :: ds).drop n).length : ℤ)⌋ =
      (Numeral.value 10 ((d :: ds).take n) : ℤ) := by
    have hquot : value (d :: ds) e / 10 ^ (e + ((d :: ds).drop n).length : ℤ) =
        Numeral.value 10 ((d :: ds).take n) +
          Numeral.value 10 ((d :: ds).drop n) / 10 ^ ((d :: ds).drop n).length := by
      rw [value, hsplit, zpow_add₀ (by norm_num), zpow_natCast]
      push_cast
      field_simp
    have hlt : (Numeral.value 10 ((d :: ds).drop n) : ℚ) / 10 ^ ((d :: ds).drop n).length < 1 := by
      rw [div_lt_one (by positivity)]
      exact_mod_cast hrest
    rw [hquot, Int.floor_eq_iff]
    refine ⟨?_, ?_⟩
    · push_cast
      have : (0 : ℚ) ≤
          Numeral.value 10 ((d :: ds).drop n) / 10 ^ ((d :: ds).drop n).length := by positivity
      linarith
    · push_cast
      linarith
  rw [cut, hat, hplace, abs_of_pos hpos, sign_pos hpos, hfloor, value, SignType.coe_one, one_mul,
    Int.cast_natCast]

/-- The value that the first significant digits have alone. -/
def leadingValue (n : Nat) : Option (List Nat × ℤ) → ℚ
  | none => 0
  | some (s, p) => value s (p - n)

theorem significant_lt (hds : ∀ d ∈ ds, d < 10) (n : Nat) :
    ∀ d ∈ significant ds ++ List.replicate n 0, d < 10 := by
  intro d hd
  rcases List.mem_append.mp hd with hd | hd
  · exact hds d (significant_subset hd)
  · rw [List.eq_of_mem_replicate hd]
    decide

theorem cut_value (hds : ∀ d ∈ ds, d < 10) :
    cut n (value ds e) = leadingValue n (leading n ds e) := by
  cases hs : significant ds with
  | nil =>
    rw [leading, if_pos hs, ← value_significant, hs]
    simp [value, leadingValue]
  | cons d ds' =>
    have hlt := significant_lt hds n
    rw [leading, if_neg (by rw [hs]; exact List.cons_ne_nil d ds'), ← value_significant,
      ← value_pad n]
    rw [hs, List.cons_append] at hlt ⊢
    rw [cut_digits (significant_head hs) hlt (by simp; omega)]
    dsimp only [leadingValue]
    congr 1
    simp only [List.length_append, List.length_replicate, List.length_cons]
    push_cast
    ring

/-! ## 2. Agreement -/

/-- The first significant digits are the padded ones that begin with a significant digit. -/
theorem leading_cases (hn : 0 < n) (hds : ∀ d ∈ ds, d < 10) (e : ℤ) :
    leading n ds e = none ∨ ∃ d s p, leading n ds e = some (d :: s, p) ∧ d ≠ 0 ∧
      s.length + 1 = n ∧ ∀ x ∈ d :: s, x < 10 := by
  cases hs : significant ds with
  | nil => exact .inl (by rw [leading, if_pos hs])
  | cons d ds' =>
    obtain ⟨m, rfl⟩ := Nat.exists_eq_succ_of_ne_zero (Nat.pos_iff_ne_zero.mp hn)
    have hlt := significant_lt hds (m + 1)
    rw [hs, List.cons_append] at hlt
    refine .inr ⟨d, (ds' ++ List.replicate (m + 1) 0).take m, e + (d :: ds').length, ?_,
      significant_head hs, ?_, fun x hx => hlt x ?_⟩
    · rw [leading, if_neg (by rw [hs]; exact List.cons_ne_nil d ds'), hs, List.cons_append,
        List.take_succ_cons]
    · simp only [List.length_take, List.length_append, List.length_replicate]
      omega
    · rcases List.mem_cons.mp hx with rfl | hx
      · exact List.mem_cons_self
      · exact List.mem_cons_of_mem _ (List.mem_of_mem_take hx)

/-- The first significant digits can be read off their value. -/
theorem leadingValue_injective (hn : 0 < n) (hds : ∀ d ∈ ds, d < 10) (hes : ∀ d ∈ es, d < 10)
    (h : leadingValue n (leading n ds e) = leadingValue n (leading n es e')) :
    leading n ds e = leading n es e' := by
  rcases leading_cases hn hds e with hl | ⟨d, s, p, hl, hd, hlen, hlt⟩ <;>
    rcases leading_cases hn hes e' with hr | ⟨d', s', p', hr, hd', hlen', hlt'⟩
  · rw [hl, hr]
  · rw [hl, hr] at h
    exact absurd h.symm (value_ne_zero hd')
  · rw [hl, hr] at h
    exact absurd h (value_ne_zero hd)
  · rw [hl, hr] at h
    dsimp only [leadingValue] at h
    have hlog := congrArg (Int.log 10) h
    rw [log_value hd hlt, log_value hd' hlt'] at hlog
    obtain rfl : p = p' := by omega
    have hdigits : Numeral.value 10 (d :: s) = Numeral.value 10 (d' :: s') := by
      have hcancel := mul_right_cancel₀ (zpow_ne_zero (p - n) (by norm_num)) h
      exact_mod_cast hcancel
    rw [hl, hr, Numeral.value_injective (by simp; omega) hlt hlt' hdigits]

theorem cut_eq_iff (hn : 0 < n) (hds : ∀ d ∈ ds, d < 10) (hes : ∀ d ∈ es, d < 10) :
    cut n (value ds e) = cut n (value es e') ↔ leading n ds e = leading n es e' := by
  rw [cut_value hds, cut_value hes]
  exact ⟨leadingValue_injective hn hds hes, fun h => by rw [h]⟩

end Decimal
