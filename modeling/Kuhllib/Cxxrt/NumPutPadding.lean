import Kuhllib.Cxxrt.NumPut

/-!
# `num_put`: padding

A number is written as a mark, which is its sign or `0x`, and its figures. A leading zero to base
8 is one of the figures. `_CS_format` sets the fill position of `internal` behind the figures
first, and moves it in front of them for the other bases only.

Results:
1. `do_put_eq`: what is written, with the fill characters where `_CS_format` puts them.
2. `padded_iff`: when that is the right number of them at the right place.
-/

namespace Kuhllib.Cxxrt

open NumPutLemmas

section

variable (cvt : List Int) (signed : Bool) (fmt : Fmtflags) (val : Int)

/-- The sign of a decimal number, or the prefix `0x`. -/
def mark : List Int :=
  match fmt.basefield with
  | .dec | .none =>
    if signed ∧ val < 0 then [cvt.getD negative_index 0]
    else if fmt.showpos then [cvt.getD positive_index 0]
    else []
  | .hex => if fmt.showbase then [cvt.getD 0 0, cvt.getD hexadecimal_index 0] else []
  | .oct => []

/-- The digits of the value, or of its absolute value if it has a sign. -/
def figures : List Int :=
  match fmt.basefield with
  | .dec | .none =>
    (numeral 10 ((if signed ∧ val < 0 then -val else val) % 2 ^ 64).toNat).map (cvt.getD · 0)
  | .hex => (numeral 16 (val % 2 ^ 64).toNat).map (cvt.getD · 0)
  | .oct =>
    (if fmt.showbase ∧ val ≠ 0 then [cvt.getD 0 0] else []) ++
      (numeral 8 (val % 2 ^ 64).toNat).map (cvt.getD · 0)

/-- What stands before the fill characters, and what behind them. -/
def split_at_fill : List Int × List Int :=
  let m := mark cvt signed fmt val
  let ds := figures cvt signed fmt val
  match fmt.adjustfield with
  | .left => (m ++ ds, [])
  | .internal => (m, ds)
  | .right | .none => ([], m ++ ds)

end

def Cache.cvt (t : Cache) (fmt : Fmtflags) : List Int :=
  if fmt.uppercase then t.upper_table else t.lower_table

/-- `width` or more characters are written, without the fill characters those that are written
for width 0, and the width is reset. -/
structure Padded (t : Cache) (signed : Bool) (fmt : Fmtflags) (width fill val : Int) : Prop where
  count : ((do_put t signed fmt width fill val).1.length : Int) =
    max width (do_put t signed fmt 0 fill val).1.length
  run : ∃ k, (do_put t signed fmt width fill val).1 =
    (split_at_fill (t.cvt fmt) signed fmt val).1 ++ List.replicate k fill ++
      (split_at_fill (t.cvt fmt) signed fmt val).2
  rest : (split_at_fill (t.cvt fmt) signed fmt val).1 ++
    (split_at_fill (t.cvt fmt) signed fmt val).2 = (do_put t signed fmt 0 fill val).1
  width : (do_put t signed fmt width fill val).2 = 0

/-! ## 1. What is written -/

namespace NumPutPaddingLemmas

variable {cvt : List Int} {signed : Bool} {fmt : Fmtflags} {val : Int}

/-- The digits without a leading zero, and what is put in front of them. -/
theorem put_prefix_eq (cvt : List Int) (signed : Bool) (fmt : Fmtflags) (val : Int) :
    let base := fmt.basefield.put_base
    let negative := signed && decide (val < 0) && decide (base = 10)
    let digits := put_digits cvt base [] ((if negative then -val else val) % 2 ^ 64).toNat []
    put_prefix cvt base fmt digits val negative =
      mark cvt signed fmt val ++ figures cvt signed fmt val ∧
    (fmt.basefield ≠ .oct → digits = figures cvt signed fmt val) := by
  have hten : ∀ n, put_digits cvt 10 [] n [] = (numeral 10 n).map (cvt.getD · 0) := fun n =>
    (put_digits_eq (by decide) n []).trans (List.append_nil _)
  have hsign : ∀ ds : List Int, put_sign cvt (signed && decide (val < 0)) fmt ds =
      (if signed ∧ val < 0 then [cvt.getD negative_index 0]
        else if fmt.showpos then [cvt.getD positive_index 0] else []) ++ ds := by
    intro ds
    simp only [put_sign, Bool.and_eq_true, decide_eq_true_iff]
    split
    · rfl
    · split <;> rfl
  unfold mark figures put_prefix
  cases fmt.basefield with
  | dec | none =>
    simp only [Basefield.put_base, decide_true, Bool.and_true, Bool.and_eq_true,
      decide_eq_true_iff, hten, hsign, Nat.reduceEqDiff, if_false, if_true, ite_self]
    exact ⟨trivial, fun _ => trivial⟩
  | hex =>
    simp only [Basefield.put_base, Nat.reduceEqDiff, decide_false, Bool.and_false,
      Bool.false_eq_true, if_false, if_true, put_digits_eq (show 1 < 16 from by decide),
      List.append_nil]
    refine ⟨?_, fun _ => trivial⟩
    split <;> rfl
  | oct =>
    simp only [Basefield.put_base, Nat.reduceEqDiff, decide_false, Bool.and_false,
      Bool.false_eq_true, if_false, if_true, put_digits_eq (show 1 < 8 from by decide),
      List.append_nil, List.nil_append]
    refine ⟨?_, fun hne => absurd rfl hne⟩
    by_cases hbase : fmt.showbase = true
    · by_cases hval : val = 0
      · simp [hbase, hval]
      · simp [hbase, hval]
    · simp [hbase]

/-- To base 8 all characters stand before the fill position of `internal`. -/
theorem format_eq : format cvt signed fmt [] val =
    (mark cvt signed fmt val ++ figures cvt signed fmt val,
      if fmt.adjustfield = .internal ∧ fmt.basefield = .oct then []
      else (split_at_fill cvt signed fmt val).2) := by
  obtain ⟨hall, hdigits⟩ := put_prefix_eq cvt signed fmt val
  unfold format split_at_fill
  dsimp only at hall hdigits ⊢
  rw [hall]
  cases fmt.adjustfield with
  | left | right | none => rfl
  | internal =>
    refine Prod.ext rfl ?_
    dsimp only
    by_cases hoct : fmt.basefield = .oct
    · have hbase : ¬ fmt.basefield.put_base ≠ 8 := by
        rw [hoct]
        decide
      have hboth : Adjustfield.internal = .internal ∧ fmt.basefield = .oct := ⟨rfl, hoct⟩
      rw [if_neg hbase, if_pos hboth]
    · have hbase : fmt.basefield.put_base ≠ 8 := by
        revert hoct
        cases fmt.basefield <;> decide
      have hboth : ¬ (Adjustfield.internal = .internal ∧ fmt.basefield = .oct) :=
        fun h => hoct h.2
      rw [if_pos hbase, if_neg hboth]
      exact hdigits hoct

/-- The same characters before a text as behind it. -/
theorem replicate_append_comm {k : Nat} {c : Int} {l : List Int} :
    List.replicate k c ++ l = l ++ List.replicate k c ↔ k = 0 ∨ ∀ x ∈ l, x = c := by
  constructor
  · intro h
    induction l with
    | nil => exact .inr nofun
    | cons x l ih =>
      cases k with
      | zero => exact .inl rfl
      | succ k =>
        rw [List.replicate_succ, List.cons_append, List.cons_append] at h
        obtain ⟨rfl, htail⟩ := List.cons.inj h
        have hcons : List.replicate (k + 1) c ++ l = List.replicate k c ++ c :: l := by
          rw [List.replicate_succ', List.append_assoc]
          rfl
        obtain h0 | hall := ih (hcons.trans (htail.trans (by rw [List.replicate_succ])))
        · exact absurd h0 (Nat.succ_ne_zero k)
        · exact .inr fun y hy => (List.mem_cons.mp hy).elim id (hall y)
  · rintro (rfl | hall)
    · rw [List.replicate_zero, List.append_nil, List.nil_append]
    · rw [List.eq_replicate_of_mem hall, List.replicate_append_replicate,
        List.replicate_append_replicate, Nat.add_comm]

theorem split_append (cvt : List Int) (signed : Bool) (fmt : Fmtflags) (val : Int) :
    (split_at_fill cvt signed fmt val).1 ++ (split_at_fill cvt signed fmt val).2 =
      mark cvt signed fmt val ++ figures cvt signed fmt val := by
  unfold split_at_fill
  cases fmt.adjustfield
  all_goals simp

theorem length_split : (split_at_fill cvt signed fmt val).1.length =
    (mark cvt signed fmt val ++ figures cvt signed fmt val).length -
      (split_at_fill cvt signed fmt val).2.length := by
  rw [← split_append, List.length_append, Nat.add_sub_cancel]

end NumPutPaddingLemmas

open NumPutPaddingLemmas

/-- How many fill characters are written in addition to `n` others. -/
def fill_count (width : Int) (n : Nat) : Nat :=
  if width = 0 then 0 else (to_int (width - n)).toNat

section

variable {t : Cache} {signed : Bool} {fmt : Fmtflags} {width fill val : Int}

/-- To base 8 the fill characters of `internal` stand behind all others. -/
theorem do_put_eq (hg : t.grouping = []) (signed : Bool) (fmt : Fmtflags)
    (width fill val : Int) :
    let m := mark (t.cvt fmt) signed fmt val
    let ds := figures (t.cvt fmt) signed fmt val
    let s := split_at_fill (t.cvt fmt) signed fmt val
    let run := List.replicate (fill_count width (m ++ ds).length) fill
    do_put t signed fmt width fill val =
      (if fmt.adjustfield = .internal ∧ fmt.basefield = .oct then m ++ ds ++ run
        else s.1 ++ run ++ s.2, 0) := by
  have hcvt : (if fmt.uppercase then t.upper_table else t.lower_table) = t.cvt fmt := rfl
  have hsplit := split_append (t.cvt fmt) signed fmt val
  have hnone : ∀ k, k = 0 → (if fmt.adjustfield = .internal ∧ fmt.basefield = .oct then
      mark (t.cvt fmt) signed fmt val ++ figures (t.cvt fmt) signed fmt val ++
        List.replicate k fill
      else (split_at_fill (t.cvt fmt) signed fmt val).1 ++ List.replicate k fill ++
        (split_at_fill (t.cvt fmt) signed fmt val).2) =
      mark (t.cvt fmt) signed fmt val ++ figures (t.cvt fmt) signed fmt val := by
    rintro k rfl
    rw [List.replicate_zero, List.append_nil, List.append_nil, hsplit, ite_self]
  unfold do_put fill_count
  simp only [hcvt, hg, format_eq]
  by_cases hwidth : width = 0
  · rw [if_neg (not_not.mpr hwidth), if_pos hwidth, hnone 0 rfl, hwidth]
  · rw [if_pos hwidth, if_neg hwidth]
    split
    · next hpos =>
      refine Prod.ext ?_ rfl
      dsimp only
      split
      · rw [List.length_nil, Nat.sub_zero, List.take_length, List.append_nil]
      · rw [← length_split, ← hsplit, List.take_left]
    · next hpos => rw [hnone _ (Int.toNat_of_nonpos (Int.not_lt.mp hpos))]

theorem fill_count_iff {n : Nat} : fill_count width n = (width - n).toNat ↔
    width = 0 ∨ (to_int (width - n)).toNat = (width - n).toNat := by
  unfold fill_count
  split
  · next hwidth =>
    refine iff_of_true ?_ (.inl hwidth)
    rw [hwidth, Int.zero_sub, Int.toNat_of_nonpos (Int.neg_nonpos_of_nonneg (Int.natCast_nonneg n))]
  · next hwidth => exact (or_iff_right hwidth).symm

theorem do_put_zero (hg : t.grouping = []) : (do_put t signed fmt 0 fill val).1 =
    mark (t.cvt fmt) signed fmt val ++ figures (t.cvt fmt) signed fmt val := by
  rw [do_put_eq hg]
  have hzero : ∀ n, fill_count 0 n = 0 := fun n => if_pos rfl
  simp only [hzero, List.replicate_zero, List.append_nil, split_append, ite_self]

theorem length_do_put (hg : t.grouping = []) (signed : Bool) (fmt : Fmtflags)
    (width fill val : Int) :
    let text := mark (t.cvt fmt) signed fmt val ++ figures (t.cvt fmt) signed fmt val
    (do_put t signed fmt width fill val).1.length =
      text.length + fill_count width text.length := by
  rw [do_put_eq hg]
  dsimp only
  split
  · rw [List.length_append, List.length_replicate]
  · rw [← split_append]
    simp only [List.length_append, List.length_replicate]
    exact Nat.add_right_comm ..

/-- The number of fill characters is right as an `int`, and to base 8 `internal` makes no
difference: nothing is filled in, or all characters are alike. -/
theorem padded_iff (hg : t.grouping = []) :
    let text := mark (t.cvt fmt) signed fmt val ++ figures (t.cvt fmt) signed fmt val
    Padded t signed fmt width fill val ↔
      (width = 0 ∨ (to_int (width - text.length)).toNat = (width - text.length).toNat) ∧
      (fmt.adjustfield = .internal → fmt.basefield = .oct → text.length < width →
        ∀ c ∈ text, c = fill) := by
  intro text
  have hlength := length_do_put hg signed fmt width fill val
  have hcount : ((do_put t signed fmt width fill val).1.length : Int) =
      max width (do_put t signed fmt 0 fill val).1.length ↔
        fill_count width text.length = (width - text.length).toNat := by
    rw [do_put_zero hg, hlength]
    show ((text.length + fill_count width text.length : Nat) : Int) = max width text.length ↔ _
    omega
  -- to base 8 there is no mark
  have hoct (ha : fmt.adjustfield = .internal) (hb : fmt.basefield = .oct) :
      split_at_fill (t.cvt fmt) signed fmt val = ([], text) := by
    have hmark : mark (t.cvt fmt) signed fmt val = [] := by
      rw [mark, hb]
    show split_at_fill (t.cvt fmt) signed fmt val =
      ([], mark (t.cvt fmt) signed fmt val ++ figures (t.cvt fmt) signed fmt val)
    rw [split_at_fill, ha, hmark]
    rfl
  have heq := do_put_eq hg signed fmt width fill val
  constructor
  · rintro ⟨hcount', ⟨k, hrun⟩, -, -⟩
    have hfill := hcount.mp hcount'
    refine ⟨fill_count_iff.mp hfill, fun ha hb hlt => ?_⟩
    rw [heq, hoct ha hb] at hrun
    have hrun : text ++ List.replicate (fill_count width text.length) fill =
        List.replicate k fill ++ text := by
      simpa only [ha, hb, and_self, if_true, List.nil_append] using hrun
    have hk : fill_count width text.length = k := by
      have := congrArg List.length hrun
      simp only [List.length_append, List.length_replicate] at this
      omega
    rw [hk] at hrun
    refine (replicate_append_comm.mp hrun.symm).resolve_left fun hzero => ?_
    omega
  · rintro ⟨hfits, hall⟩
    have hfill := fill_count_iff.mpr hfits
    refine ⟨hcount.mpr hfill, ⟨fill_count width text.length, ?_⟩, ?_, by rw [heq]⟩
    · rw [heq]
      dsimp only
      split
      · next hboth =>
        obtain ⟨ha, hb⟩ := hboth
        rw [hoct ha hb, List.nil_append]
        refine (replicate_append_comm.mpr ?_).symm
        by_cases hlt : (text.length : Int) < width
        · exact .inr (hall ha hb hlt)
        · exact .inl (hfill.trans (Int.toNat_of_nonpos (Int.sub_nonpos_of_le (Int.not_lt.mp hlt))))
      · rfl
    · rw [do_put_zero hg, split_append]

end

/-- `0x` and upper case, adjusted internally. -/
def hex_internal : Fmtflags := ⟨.hex, .internal, true, false, true⟩

theorem padded_iff_example :
    mark (classic.cvt hex_internal) true hex_internal 255 = "0X".toList.map widen ∧
      figures (classic.cvt hex_internal) true hex_internal 255 = "FF".toList.map widen ∧
      Padded classic true hex_internal 10 (widen '*') 255 :=
  ⟨by decide, by decide, (padded_iff (by decide)).mpr ⟨.inr (by decide), by decide⟩⟩

def oct_internal : Fmtflags := ⟨.oct, .internal, false, false, false⟩

/-- `10***` is written instead of `***10`, and two fill characters where `2 ^ 32 + 2` are due. -/
theorem not_padded :
    do_put classic true oct_internal 5 (widen '*') 8 = ("10***".toList.map widen, 0) ∧
      ¬ Padded classic true oct_internal 5 (widen '*') 8 ∧
      do_put classic true hex_internal 4294967301 (widen '*') 5 = ("0X**5".toList.map widen, 0) ∧
      ¬ Padded classic true hex_internal 4294967301 (widen '*') 5 := by
  have hoct : do_put classic true oct_internal 5 (widen '*') 8 =
      ("10***".toList.map widen, 0) := by
    rw [do_put_eq rfl]
    decide
  have hhex : do_put classic true hex_internal 4294967301 (widen '*') 5 =
      ("0X**5".toList.map widen, 0) := by
    rw [do_put_eq rfl]
    decide
  refine ⟨hoct, fun h => ?_, hhex, fun h => ?_⟩
  · obtain ⟨k, hrun⟩ := h.run
    have hsplit : split_at_fill (classic.cvt oct_internal) true oct_internal 8 =
        ([], "10".toList.map widen) := by decide
    rw [hoct, hsplit] at hrun
    cases k with
    | zero => exact absurd hrun (by decide)
    | succ k => exact absurd (List.cons.inj hrun).1 (by decide)
  · have hcount := h.count
    rw [hhex, do_put_zero rfl] at hcount
    exact absurd hcount (by decide)

end Kuhllib.Cxxrt
