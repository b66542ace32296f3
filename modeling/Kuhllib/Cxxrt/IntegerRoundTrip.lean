import Kuhllib.Cxxrt.IntegerInput
import Kuhllib.Cxxrt.NumPut

/-!
# Reading what was written

Results:
1. `written`: what `num_put` writes to each base.
2. `get_put`: reading it back.
-/

namespace Kuhllib.Cxxrt

open NumPutLemmas IntegerGrammarLemmas IntegerInputLemmas

/-! ## 1. What is written -/

/-- The digits of `n` with their prefix. -/
structure Written (bf : Basefield) (n : Nat) (u : List Int) : Prop where
  start : Start bf u
  digits : digitsOf u ≠ []
  radix_le : radix bf u ≤ bf.put_base
  value : Numeral.value (radix bf u) (digitsOf u) = n

theorem Written.ne_nil {bf : Basefield} {n : Nat} {u : List Int} (h : Written bf n u) : u ≠ [] := by
  rintro rfl
  exact h.digits rfl

namespace IntegerRoundTripLemmas

variable {bf : Basefield} {n base : Nat} {u : List Int} {fmt : Fmtflags}

/-- The table for output. -/
def table (fmt : Fmtflags) : List Int :=
  if fmt.uppercase then classic.upper_table else classic.lower_table

theorem table_digit (fmt : Fmtflags) : ∀ d < 16, digit ((table fmt).getD d 0) = some d := by
  unfold table
  split <;> decide +kernel

theorem table_marks (fmt : Fmtflags) :
    (table fmt).getD 0 0 = widen '0' ∧ (table fmt).getD positive_index 0 = widen '+' ∧
      (table fmt).getD negative_index 0 = widen '-' ∧
      isHex ((table fmt).getD hexadecimal_index 0) := by
  unfold table
  split <;> decide +kernel

/-- The characters of a numeral. -/
def body (fmt : Fmtflags) (base n : Nat) : List Int :=
  (numeral base n).map ((table fmt).getD · 0)

theorem digits_body (fmt : Fmtflags) (hb : 1 < base) (hb16 : base ≤ 16) (n : Nat) :
    Digits base (body fmt base n) ∧ digitsOf (body fmt base n) = numeral base n := by
  have hlt : ∀ d ∈ numeral base n, d < base := numeral_lt hb
  have hdigit : ∀ d ∈ numeral base n, digit ((table fmt).getD d 0) = some d := fun d hd =>
    table_digit fmt d (Nat.lt_of_lt_of_le (hlt d hd) hb16)
  constructor
  · intro c hc
    obtain ⟨d, hd, rfl⟩ := List.mem_map.mp hc
    exact ⟨d, hdigit d hd, hlt d hd⟩
  · rw [digitsOf, body, List.filterMap_map]
    calc (numeral base n).filterMap (digit ∘ ((table fmt).getD · 0))
        = (numeral base n).filterMap some := List.filterMap_congr hdigit
      _ = numeral base n := List.filterMap_some

/-- Digits to the base, behind a character without a value. -/
theorem written_of {q : List Int} (hb : 1 < base) (hb16 : base ≤ 16) (hbase : base = bf.put_base)
    (hq : digitsOf q = [] ∨ digitsOf q = [0]) (hstart : Start bf (q ++ body fmt base n))
    (hradix : radix bf (q ++ body fmt base n) = base) :
    Written bf n (q ++ body fmt base n) := by
  obtain ⟨-, hdigits⟩ := digits_body fmt hb hb16 n
  have hsplit : digitsOf (q ++ body fmt base n) = digitsOf q ++ numeral base n := by
    rw [digitsOf, List.filterMap_append, ← digitsOf, ← digitsOf, hdigits]
  refine ⟨hstart, ?_, by rw [hradix, hbase], ?_⟩
  · rw [hsplit]
    exact List.append_ne_nil_of_right_ne_nil _ (numeral_ne_nil base n)
  · rw [hradix, hsplit]
    rcases hq with hq | hq <;> simp [hq, value_numeral]

theorem body_zero : body fmt base 0 = [widen '0'] := by
  show [(table fmt).getD 0 0] = _
  rw [(table_marks fmt).1]

/-- A numeral that does not stand for zero begins with another digit. -/
theorem body_head (fmt : Fmtflags) (hb : 1 < base) (hb16 : base ≤ 16) (hn : n ≠ 0) :
    ∃ c cs, body fmt base n = c :: cs ∧ c ≠ widen '0' := by
  cases hnum : numeral base n with
  | nil => exact absurd hnum (numeral_ne_nil base n)
  | cons d ds =>
    refine ⟨(table fmt).getD d 0, ds.map ((table fmt).getD · 0), by rw [body, hnum]; rfl, ?_⟩
    intro hc
    have hd : d < base := numeral_lt hb d (by rw [hnum]; exact List.mem_cons_self)
    have hdigit := table_digit fmt d (Nat.lt_of_lt_of_le hd hb16)
    rw [hc, show digit (widen '0') = some 0 by decide, Option.some.injEq] at hdigit
    exact hn (numeral_head (by rw [hnum, ← hdigit]; rfl))

end IntegerRoundTripLemmas

open IntegerRoundTripLemmas

theorem written_dec (fmt : Fmtflags) (n : Nat) : Written .dec n (body fmt 10 n) := by
  have hdigits := (digits_body fmt (by decide : 1 < 10) (by decide) n).1
  exact written_of (q := []) (by decide) (by decide) rfl (.inl rfl) hdigits rfl

theorem written_oct (fmt : Fmtflags) (n : Nat) :
    Written .oct n (body fmt 8 n) ∧ Written .oct n (widen '0' :: body fmt 8 n) := by
  have hdigits := (digits_body fmt (by decide : 1 < 8) (by decide) n).1
  constructor
  · exact written_of (q := []) (by decide) (by decide) rfl (.inl rfl) hdigits rfl
  · refine written_of (q := [widen '0']) (by decide) (by decide) rfl (.inr (by decide)) ?_ rfl
    exact digits_append.mpr ⟨digits_zero (by decide), hdigits⟩

theorem written_hex (fmt : Fmtflags) (n : Nat) {x : Int} (hx : isHex x) :
    Written .hex n (body fmt 16 n) ∧ Written .hex n (widen '0' :: x :: body fmt 16 n) := by
  have hdigits := (digits_body fmt (by decide : 1 < 16) (by decide) n).1
  constructor
  · exact written_of (q := []) (by decide) (by decide) rfl (.inl rfl) (.inl hdigits) rfl
  · refine written_of (q := [widen '0', x]) (by decide) (by decide) rfl (.inr ?_)
      (.inr ⟨x, _, hx, hdigits, rfl⟩) rfl
    rw [digitsOf, List.filterMap_cons_some (b := 0) (by decide),
      List.filterMap_cons_none (digit_hex hx), List.filterMap_nil]

/-- A zero is read to base 8. -/
theorem written_none (fmt : Fmtflags) (n : Nat) : Written .none n (body fmt 10 n) := by
  have hdigits := (digits_body fmt (by decide : 1 < 10) (by decide) n).1
  by_cases hn : n = 0
  · subst hn
    rw [body_zero]
    exact ⟨.inl ⟨rfl, digits_zero (by decide)⟩, by decide, by decide, by decide⟩
  · obtain ⟨c, cs, hbody, hc⟩ := body_head fmt (by decide : 1 < 10) (by decide) hn
    refine written_of (q := []) (by decide) (by decide) rfl (.inl rfl) (.inr (.inl ⟨?_, hdigits⟩)) ?_
    · rw [List.nil_append, hbody]
      exact fun he => hc (Option.some.inj he)
    · rw [List.nil_append, hbody, radix, if_neg hc]

/-- The sign of a value, if there is one. -/
inductive Signed (v : Int) : List Int → Prop
  | nothing : 0 ≤ v → Signed v []
  | plus : 0 ≤ v → Signed v [widen '+']
  | minus : v < 0 → Signed v [widen '-']

namespace IntegerRoundTripLemmas

theorem put_sign_eq (fmt : Fmtflags) (v : Int) (begin : List Int) :
    ∃ q, put_sign (table fmt) (decide (v < 0)) fmt begin = q ++ begin ∧ Signed v q := by
  obtain ⟨-, hplus, hminus, -⟩ := table_marks fmt
  unfold put_sign
  rw [hplus, hminus]
  by_cases hv : v < 0
  · rw [if_pos (decide_eq_true hv)]
    exact ⟨_, rfl, .minus hv⟩
  · rw [if_neg (by simpa using hv)]
    split
    next => exact ⟨_, rfl, .plus (by omega)⟩
    next => exact ⟨[], rfl, .nothing (by omega)⟩

/-- Without a width the fill position does not matter. -/
theorem new_num_put_eq (signed : Bool) (fmt : Fmtflags) (fill v : Int) :
    new_num_put classic signed fmt 0 fill v =
      let base := fmt.basefield.put_base
      let negative := signed && decide (v < 0) && decide (base = 10)
      put_prefix (table fmt) base fmt
        (put_digits (table fmt) base [] ((if negative then -v else v) % 2 ^ 64).toNat []) v
        negative := by
  unfold new_num_put do_put format
  simp only [ne_eq, not_true, if_false]
  cases fmt.adjustfield <;> rfl

theorem natAbs_of_range {v : Int} (h : long_min ≤ v ∧ v ≤ long_max) :
    ((if decide (v < 0) = true then -v else v) % 2 ^ 64).toNat = v.natAbs ∧
      (0 ≤ v → (v % 2 ^ 64).toNat = v.natAbs) := by
  have hlmin : long_min = -2 ^ 63 := by decide
  have hlmax : long_max = 2 ^ 63 - 1 := by decide
  constructor
  · by_cases hv : v < 0
    · rw [if_pos (decide_eq_true hv)]
      omega
    · rw [if_neg (by simpa using hv)]
      omega
  · omega

end IntegerRoundTripLemmas

/-- A sign and the digits are written, where only decimal numbers have a sign. -/
theorem written (fmt : Fmtflags) (fill : Int) {v : Int} (hrange : long_min ≤ v ∧ v ≤ long_max)
    (hsign : fmt.basefield = .oct ∨ fmt.basefield = .hex → 0 ≤ v) :
    ∃ q u, new_num_put classic true fmt 0 fill v = q ++ u ∧ Signed v q ∧
      Written fmt.basefield v.natAbs u := by
  obtain ⟨hzero, -, -, hhex⟩ := table_marks fmt
  obtain ⟨habs, hpos⟩ := natAbs_of_range hrange
  -- to base 10 only the sign precedes the digits
  have hdec : fmt.basefield.put_base = 10 →
      ∃ q, new_num_put classic true fmt 0 fill v = q ++ body fmt 10 v.natAbs ∧ Signed v q := by
    intro hbase
    obtain ⟨q, hq, hs⟩ := put_sign_eq fmt v (body fmt 10 v.natAbs)
    refine ⟨q, ?_, hs⟩
    rw [new_num_put_eq, hbase]
    simp only [ put_prefix, put_digits_eq, decide_true, Bool.true_and, Bool.and_true, habs, List.append_nil,
      Nat.reduceEqDiff, if_false, if_true, ite_self, Nat.reduceLT]
    exact hq
  cases hbf : fmt.basefield with
  | dec =>
    obtain ⟨q, hq, hs⟩ := hdec (by rw [hbf]; rfl)
    exact ⟨q, _, hq, hs, written_dec fmt _⟩
  | none =>
    obtain ⟨q, hq, hs⟩ := hdec (by rw [hbf]; rfl)
    exact ⟨q, _, hq, hs, written_none fmt _⟩
  | oct =>
    have hv := hsign (.inl hbf)
    obtain ⟨hw, hwzero⟩ := written_oct fmt v.natAbs
    rw [new_num_put_eq, hbf]
    simp only [Basefield.put_base, Nat.reduceEqDiff, decide_false, Bool.and_false,
      Bool.false_eq_true, if_false, if_true, hpos hv, put_digits_eq, List.append_nil, put_prefix,
      Nat.reduceLT, hzero]
    split
    · split
      · exact ⟨[], _, rfl, .nothing hv, hwzero⟩
      · exact ⟨[], _, rfl, .nothing hv, hw⟩
    · exact ⟨[], _, rfl, .nothing hv, hw⟩
  | hex =>
    have hv := hsign (.inr hbf)
    obtain ⟨hw, hwhex⟩ := written_hex fmt v.natAbs hhex
    rw [new_num_put_eq, hbf]
    simp only [Basefield.put_base, Nat.reduceEqDiff, decide_false, Bool.and_false,
      Bool.false_eq_true, if_false, if_true, hpos hv, put_digits_eq, List.append_nil, put_prefix,
      Nat.reduceLT, hzero]
    split
    · exact ⟨[], _, rfl, .nothing hv, hwhex⟩
    · exact ⟨[], _, rfl, .nothing hv, hw⟩

/-! ## 2. Reading it -/

namespace IntegerRoundTripLemmas

variable {bf : Basefield} {n : Nat} {v : Int} {q u rest : List Int}

theorem unsignedPart_append (hq : Signed v q) (hu : Start bf u) (hne : u ≠ []) (t : List Int) :
    unsignedPart (q ++ u ++ t) = u ++ t := by
  cases hq with
  | nothing =>
    cases u with
    | nil => exact absurd rfl hne
    | cons c u => exact unsignedPart_other (not_sign_of_start hu)
  | plus => exact unsignedPart_sign (.inl rfl)
  | minus => exact unsignedPart_sign (.inr rfl)

theorem viable_append (hq : Signed v q) (hu : Start bf u) : Viable bf (q ++ u) := by
  rw [viable_iff]
  cases hq with
  | nothing => exact .inl hu
  | plus => exact .inr ⟨_, u, .inl rfl, hu, rfl⟩
  | minus => exact .inr ⟨_, u, .inr rfl, hu, rfl⟩

theorem digitsOf_append (hq : Signed v q) : digitsOf (q ++ u) = digitsOf u := by
  cases hq with
  | nothing => rfl
  | plus => exact List.filterMap_cons_none (by decide)
  | minus => exact List.filterMap_cons_none (by decide)

theorem isNegative_append (hq : Signed v q) (hu : Start bf u) :
    isNegative (q ++ u) = decide (v < 0) := by
  cases hq with
  | nothing hv =>
    rw [decide_eq_false (Int.not_lt.mpr hv)]
    cases u with
    | nil => rfl
    | cons c u =>
      exact decide_eq_false fun he => not_sign_of_start hu (.inr (Option.some.inj he))
  | plus hv =>
    rw [decide_eq_false (Int.not_lt.mpr hv)]
    rfl
  | minus hv =>
    rw [decide_eq_true hv]
    rfl

/-- What follows cannot continue the digits. -/
theorem longest_written (hq : Signed v q) (hw : Written bf n u)
    (hrest : ∀ c cs, rest = c :: cs →
      (∀ d, digit c = some d → bf.put_base ≤ d) ∧ (u = [widen '0'] → ¬ isHex c)) :
    Longest bf (q ++ u ++ rest) (q ++ u) := by
  refine longest_of_stop (viable_append hq hw.start) fun c cs he hv => ?_
  obtain ⟨hdigit, hhex⟩ := hrest c cs he
  have hstart := start_unsignedPart hv
  rw [unsignedPart_append hq hw.start hw.ne_nil] at hstart
  refine not_start hw.ne_nil ?_ (fun hu _ => hhex hu) hstart
  rintro ⟨d, hd, hlt⟩
  have hle := hw.radix_le
  have hbase := hdigit d hd
  omega

end IntegerRoundTripLemmas

/-- What is written is read back, if what follows it is no digit to its base, and no
`x` behind a single zero. -/
theorem get_put (fmt : Fmtflags) (fill v val : Int) (rest : List Int)
    (hrange : long_min ≤ v ∧ v ≤ long_max)
    (hsign : fmt.basefield = .oct ∨ fmt.basefield = .hex → 0 ≤ v)
    (hrest : ∀ c cs, rest = c :: cs →
      (∀ d, digit c = some d → fmt.basefield.put_base ≤ d) ∧
        (unsignedPart (new_num_put classic true fmt 0 fill v) = [widen '0'] → ¬ isHex c)) :
    let g := get_signed_integer classic fmt.basefield
      (new_num_put classic true fmt 0 fill v ++ rest) val
    g.begin = rest ∧ g.failbit = false ∧ g.val = v := by
  obtain ⟨q, u, hput, hq, hw⟩ := written fmt fill hrange hsign
  have hun := unsignedPart_append hq hw.start hw.ne_nil
  have hu : unsignedPart (q ++ u) = u := by simpa using hun []
  rw [hput] at hrest ⊢
  rw [hu] at hrest
  obtain ⟨p, h⟩ := get_integer_spec fmt.basefield (q ++ u ++ rest)
  obtain rfl : p = q ++ u := longest_unique h.longest (longest_written hq hw hrest)
  have hdigits : digitsOf (q ++ u) ≠ [] := by
    rw [digitsOf_append hq]
    exact hw.digits
  have hvalue : signedValue fmt.basefield (q ++ u) = v := by
    rw [signedValue, isNegative_append hq hw.start, magnitude, hu, digitsOf_append hq, hw.value]
    by_cases hv : v < 0
    · rw [if_pos (decide_eq_true hv)]
      omega
    · rw [if_neg (by simpa using hv)]
      omega
  refine ⟨(List.append_cancel_left h.split).symm, ?_, ?_⟩
  · exact Bool.eq_false_iff.mpr fun hfail => hdigits (h.failbit.mp hfail)
  · rw [signed_read val h hdigits, hvalue, limited, if_neg (by omega), if_neg (by omega)]

/-- The least value in front of other characters. -/
theorem get_put_long_min :
    let fmt : Fmtflags := ⟨.none, .right, false, true, false⟩
    let rest := [widen ' ', widen '7']
    let g := get_signed_integer classic .none (new_num_put classic true fmt 0 32 long_min ++ rest) 0
    g.begin = rest ∧ g.failbit = false ∧ g.val = long_min := by
  refine get_put ⟨.none, .right, false, true, false⟩ 32 long_min 0 _ (by decide) (by decide) ?_
  intro c cs he
  obtain ⟨rfl, -⟩ := List.cons.inj he
  have hdigit : digit (widen ' ') = none := by decide
  refine ⟨fun d hd => ?_, fun _ => by decide⟩
  rw [hdigit] at hd
  cases hd

end Kuhllib.Cxxrt
