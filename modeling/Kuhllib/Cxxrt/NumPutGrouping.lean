import Kuhllib.Cxxrt.NumPut

/-!
# `num_put`: grouping

`_CS_digits` writes the digits from the right and counts down to the next separator. It tests the
count before each digit and so starts with one more than the first entry of the grouping. If this
entry is 0 the first separator comes before the first digit.

Results:
1. `group_loop_eq`: what the loop writes, from the right.
2. `groups_right`: the groups are those of the grouping unless it begins with 0.
3. `digits_right_iff`: the same for all values, and the buffer of 64 characters is not overrun.
-/

namespace Kuhllib.Cxxrt

open NumPutLemmas

/-- The size of group `i` from the right. The last entry is repeated. -/
def entry (grouping : List Int) (i : Nat) : Int := grouping.getD (min i (grouping.length - 1)) 0

/-- Other groups extend to all remaining digits. -/
def Limited (e : Int) : Prop := 0 < e ∧ e ≠ char_max

/-- The groups from group `i` on, from the right. -/
inductive Groups (grouping : List Int) : Nat → List (List Int) → Prop
  | last {i : Nat} {g : List Int} : g ≠ [] →
      (Limited (entry grouping i) → (g.length : Int) ≤ entry grouping i) → Groups grouping i [g]
  | cons {i : Nat} {g : List Int} {gs : List (List Int)} : g ≠ [] →
      Limited (entry grouping i) → (g.length : Int) = entry grouping i →
      Groups grouping (i + 1) gs → Groups grouping i (g :: gs)

/-- The digits with the separators between their groups, read from the right. -/
def Grouped (grouping : List Int) (sep : Int) (digits out : List Int) : Prop :=
  ∃ gs, Groups grouping 0 gs ∧ digits.reverse = gs.flatten ∧ out.reverse = [sep].intercalate gs

/-! ## 1. The loop -/

/-- What the loop writes for the digits `ds`, from the right. -/
def group_list (sep : Int) (grouping : List Int) : List Int → Nat → Int → List Int
  | [], _, _ => []
  | d :: ds, group_index, next_separator =>
    if next_separator = 1 then
      if group_index < grouping.length then
        sep :: d :: group_list sep grouping ds (group_index + 1) (grouping.getD group_index 0)
      else
        sep :: d :: group_list sep grouping ds group_index (grouping.getD (group_index - 1) 0)
    else d :: group_list sep grouping ds group_index (next_separator - 1)

namespace NumPutGroupingLemmas

variable {cvt grouping ds : List Int} {base : Nat} {sep : Int}

theorem group_loop_eq (hb : 1 < base) (value group_index : Nat) (next_separator : Int)
    (begin : List Int) :
    group_loop cvt base grouping value group_index next_separator begin =
      (group_list (cvt.getD separator_index 0) grouping
        ((Nat.digits base value).map (cvt.getD · 0)) group_index next_separator).reverse ++
        begin := by
  induction value using Nat.strong_induction_on generalizing group_index next_separator begin with
  | _ value ih =>
    rw [group_loop]
    split
    · next h =>
      have hrec := fun idx next begin => ih (value / base) (Nat.div_lt_self h.1 hb) idx next begin
      rw [Nat.digits_def' hb h.1, List.map_cons, group_list]
      dsimp only
      split
      · split <;> rw [hrec, List.reverse_cons, List.reverse_cons, List.append_assoc,
          List.append_assoc] <;> rfl
      · rw [hrec, List.reverse_cons, List.append_assoc]
        rfl
    · next h =>
      obtain rfl : value = 0 := Nat.eq_zero_of_not_pos fun hpos => h ⟨hpos, hb⟩
      rw [Nat.digits_zero]
      rfl

theorem le_length_group_list (group_index : Nat) (next_separator : Int) :
    ds.length ≤ (group_list sep grouping ds group_index next_separator).length ∧
      (group_list sep grouping ds group_index next_separator).length ≤ 2 * ds.length := by
  induction ds generalizing group_index next_separator with
  | nil => exact ⟨Nat.le_refl _, Nat.le_refl _⟩
  | cons d ds ih =>
    rw [group_list]
    split
    · split
      · have := ih (group_index + 1) (grouping.getD group_index 0)
        simp only [List.length_cons]
        omega
      · have := ih group_index (grouping.getD (group_index - 1) 0)
        simp only [List.length_cons]
        omega
    · have := ih group_index (next_separator - 1)
      simp only [List.length_cons]
      omega

theorem intercalate_cons (d : Int) (g : List Int) (gs : List (List Int)) :
    [sep].intercalate ((d :: g) :: gs) = d :: [sep].intercalate (g :: gs) := by
  cases gs <;> simp [List.intercalate]

theorem intercalate_nil_cons (g : List Int) (gs : List (List Int)) :
    [sep].intercalate ([] :: g :: gs) = sep :: [sep].intercalate (g :: gs) := by
  simp [List.intercalate]

/-- The entry that is read for the next group, and the index behind it. -/
theorem entry_succ (hg : grouping ≠ []) (i : Nat) :
    if min (i + 1) grouping.length < grouping.length then
      grouping.getD (min (i + 1) grouping.length) 0 = entry grouping (i + 1) ∧
        min (i + 1) grouping.length + 1 = min (i + 2) grouping.length
    else grouping.getD (min (i + 1) grouping.length - 1) 0 = entry grouping (i + 1) ∧
      min (i + 1) grouping.length = min (i + 2) grouping.length := by
  have hpos := List.length_pos_of_ne_nil hg
  unfold entry
  by_cases hlt : i + 1 < grouping.length
  · rw [Nat.min_eq_left (Nat.le_of_lt hlt), if_pos hlt, Nat.min_eq_left (Nat.le_sub_one_of_lt hlt),
      Nat.min_eq_left hlt]
    exact ⟨rfl, rfl⟩
  · have hle := Nat.not_lt.mp hlt
    rw [Nat.min_eq_right hle, if_neg (Nat.lt_irrefl _), Nat.min_eq_right (Nat.sub_le_of_le_add
      (Nat.le_add_right_of_le hle)), Nat.min_eq_right (Nat.le_succ_of_le hle)]
    exact ⟨rfl, rfl⟩

/-- Group `i` has the digits `p` so far. The count is one more than what it lacks. -/
theorem group_list_spec (sep : Int) (hg : grouping ≠ []) (ds : List Int) (i : Nat) (p : List Int)
    (hstart : p = [] → entry grouping i ≠ 0)
    (hle : Limited (entry grouping i) → (p.length : Int) ≤ entry grouping i)
    (hmax : (p.length + ds.length : Int) < char_max) (hne : p ++ ds ≠ []) :
    ∃ g gs, group_list sep grouping ds (min (i + 1) grouping.length)
        (entry grouping i + 1 - p.length) = [sep].intercalate (g :: gs) ∧
      ds = (g :: gs).flatten ∧ Groups grouping i ((p ++ g) :: gs) := by
  induction ds generalizing i p with
  | nil =>
    rw [List.append_nil] at hne
    exact ⟨[], [], rfl, rfl, (List.append_nil p).symm ▸ .last hne hle⟩
  | cons d ds ih =>
    rw [List.length_cons, Nat.cast_add, Nat.cast_one] at hmax
    by_cases hfull : (p.length : Int) = entry grouping i
    · -- the group is complete
      have hp : p ≠ [] := by
        rintro rfl
        exact hstart rfl hfull.symm
      have hpos := List.length_pos_of_ne_nil hp
      have hlimited : Limited (entry grouping i) := ⟨by omega, by omega⟩
      obtain ⟨g, gs, hlist, hds, hgroups⟩ := ih (i + 1) [d] (fun he => by cases he)
        (fun hl => Int.add_one_le_of_lt hl.1)
        (by
          rw [List.length_singleton, Nat.cast_one]
          omega)
        (List.cons_ne_nil d ds)
      have hnext : entry grouping (i + 1) + 1 - ([d].length : Int) = entry grouping (i + 1) := by
        rw [List.length_singleton, Nat.cast_one, Int.add_sub_cancel]
      rw [hnext] at hlist
      refine ⟨[], (d :: g) :: gs, ?_, ?_, ?_⟩
      · have hone : entry grouping i + 1 - (p.length : Int) = 1 := by
          rw [hfull, add_sub_cancel_left]
        have hentry := entry_succ hg i
        rw [hone, group_list, if_pos rfl, intercalate_nil_cons, intercalate_cons, ← hlist]
        split at hentry
        · next hlt => rw [if_pos hlt, hentry.1, hentry.2]
        · next hlt => rw [if_neg hlt, hentry.1, hentry.2]
      · rw [hds]
        rfl
      · rw [List.append_nil]
        exact .cons hp hlimited hfull hgroups
    · have hmore : Limited (entry grouping i) →
          ((p ++ [d]).length : Int) ≤ entry grouping i := by
        intro hl
        rw [List.length_append, List.length_singleton, Nat.cast_add, Nat.cast_one]
        exact Int.add_one_le_of_lt (lt_of_le_of_ne (hle hl) hfull)
      obtain ⟨g, gs, hlist, hds, hgroups⟩ := ih i (p ++ [d]) (fun he => by simp at he) hmore
        (by
          rw [List.length_append, List.length_singleton, Nat.cast_add, Nat.cast_one]
          omega)
        (by simp)
      refine ⟨d :: g, gs, ?_, ?_, ?_⟩
      · have hother : entry grouping i + 1 - (p.length : Int) ≠ 1 := by omega
        have hnext : entry grouping i + 1 - (p.length : Int) - 1 =
            entry grouping i + 1 - ((p ++ [d]).length : Int) := by
          rw [List.length_append, List.length_singleton, Nat.cast_add, Nat.cast_one, Int.sub_sub]
        rw [group_list, if_neg hother, intercalate_cons, ← hlist, hnext]
      · rw [hds]
        rfl
      · rwa [List.append_assoc, List.singleton_append] at hgroups

/-! ## 2. The digits of a value -/

variable {value : Nat}

theorem length_digits (hb : 8 ≤ base) (hv : value < 2 ^ 64) :
    (Nat.digits base value).length ≤ 22 := by
  refine (Nat.digits_length_le_iff (Nat.lt_of_lt_of_le (by decide) hb) value).mpr ?_
  exact Nat.lt_of_lt_of_le hv (Nat.le_trans (by decide : 2 ^ 64 ≤ 8 ^ 22) (Nat.pow_le_pow_left hb 22))

theorem grouped_single (hne : ds ≠ [])
    (hle : Limited (entry grouping 0) → (ds.length : Int) ≤ entry grouping 0) :
    Grouped grouping sep ds ds := by
  refine ⟨[ds.reverse], .last (List.reverse_ne_nil_iff.mpr hne) ?_, by simp, by simp⟩
  rwa [List.length_reverse]

/-- If the first entry is 0 there is one group only, without a separator. -/
theorem grouped_zero {digits out : List Int} (hzero : entry grouping 0 = 0)
    (h : Grouped grouping sep digits out) : out.length = digits.length := by
  obtain ⟨gs, hgroups, hdigits, hout⟩ := h
  cases hgroups with
  | last _ _ =>
    rw [List.flatten_singleton] at hdigits
    rw [← List.length_reverse, hout, ← digits.length_reverse, hdigits]
    simp
  | cons _ hlimited =>
    rw [hzero] at hlimited
    exact absurd hlimited.1 (Int.lt_irrefl 0)

/-- Everything is right unless the grouping begins with 0. -/
theorem groups_right (hb : 8 ≤ base) (hv : value < 2 ^ 64) :
    Grouped grouping (cvt.getD separator_index 0) ((numeral base value).map (cvt.getD · 0))
        (put_digits cvt base grouping value []) ↔ value = 0 ∨ grouping.head? ≠ some 0 := by
  have hb1 : 1 < base := Nat.lt_of_lt_of_le (by decide) hb
  by_cases hzero : value = 0
  · refine iff_of_true ?_ (.inl hzero)
    rw [put_digits, numeral, if_pos hzero, if_pos hzero]
    exact grouped_single (List.cons_ne_nil _ _) fun hl => Int.add_one_le_of_lt hl.1
  rw [or_iff_right hzero, put_digits, numeral, if_neg hzero, if_neg hzero]
  have hdigits : Nat.digits base value ≠ [] := Nat.digits_ne_nil_iff_ne_zero.mpr hzero
  cases grouping with
  | nil =>
    refine iff_of_true ?_ (by simp)
    rw [if_pos (.inl rfl), digit_loop_eq hb1, List.append_nil]
    exact grouped_single (by simpa using hdigits) fun hl => absurd hl.1 (Int.lt_irrefl 0)
  | cons e es =>
    have hentry : entry (e :: es) 0 = e := by
      rw [entry, Nat.zero_min]
      rfl
    have hhead : (e :: es).head? ≠ some 0 ↔ e ≠ 0 := by simp
    rw [hhead, List.getD_cons_zero]
    by_cases hmax : e = char_max
    · refine iff_of_true ?_ (hmax ▸ (by decide))
      rw [if_pos (.inr hmax), digit_loop_eq hb1, List.append_nil]
      exact grouped_single (by simpa using hdigits) fun hl => absurd (hentry.trans hmax) hl.2
    · have hloop : ¬ ((e :: es).length = 0 ∨ e = char_max) :=
        not_or.mpr ⟨Nat.succ_ne_zero _, hmax⟩
      rw [if_neg hloop, group_loop_eq hb1, List.append_nil,
        List.map_reverse]
      constructor
      · rintro h rfl
        have hlength := grouped_zero hentry h
        rw [List.length_reverse, List.length_reverse] at hlength
        obtain ⟨d, ds, hds⟩ := List.exists_cons_of_ne_nil
          (List.map_eq_nil_iff.not.mpr hdigits : (Nat.digits base value).map (cvt.getD · 0) ≠ [])
        rw [hds, group_list, if_pos (Int.zero_add 1)] at hlength
        -- the separator is one character more
        split at hlength
        all_goals
          rw [List.length_cons, List.length_cons, List.length_cons] at hlength
          exact absurd hlength (Nat.ne_of_gt (Nat.succ_lt_succ (Nat.lt_succ_of_le
            (le_length_group_list _ _).1)))
      · intro he
        have hlength := length_digits hb hv
        obtain ⟨g, gs, hlist, hds, hgroups⟩ := group_list_spec (cvt.getD separator_index 0)
          (List.cons_ne_nil e es) ((Nat.digits base value).map (cvt.getD · 0)) 0 []
          (fun _ => hentry ▸ he) (fun hl => Int.le_of_lt hl.1)
          (by
            rw [List.length_map, List.length_nil]
            exact Int.lt_of_le_of_lt (by omega) (by decide : (22 : Int) < char_max))
          (by simpa using hdigits)
        have hone : min (0 + 1) (e :: es).length = 1 :=
          Nat.min_eq_left (Nat.le_add_left 1 es.length)
        rw [hone, hentry, List.length_nil, Nat.cast_zero, Int.sub_zero] at hlist
        rw [hlist]
        exact ⟨g :: gs, hgroups, by rw [List.reverse_reverse, ← hds], List.reverse_reverse _⟩

theorem length_put_digits (hb : 8 ≤ base) (hv : value < 2 ^ 64) :
    (put_digits cvt base grouping value []).length ≤ 44 := by
  have hb1 : 1 < base := Nat.lt_of_lt_of_le (by decide) hb
  have hlength := length_digits hb hv
  unfold put_digits
  split
  · show 1 ≤ 44
    decide
  · split
    · rw [digit_loop_eq hb1, List.append_nil, List.length_map, List.length_reverse]
      exact Nat.le_trans hlength (by decide)
    · rw [group_loop_eq hb1, List.append_nil, List.length_reverse]
      refine Nat.le_trans (le_length_group_list _ _).2 ?_
      rw [List.length_map]
      exact Nat.mul_le_mul_left 2 hlength

theorem length_put_prefix (fmt : Fmtflags) (begin : List Int) (val : Int) (negative : Bool) :
    begin.length ≤ ( put_prefix cvt base fmt begin val negative).length ∧
      ( put_prefix cvt base fmt begin val negative).length ≤ begin.length + 2 := by
  have hnone : begin.length ≤ begin.length ∧ begin.length ≤ begin.length + 2 :=
    ⟨Nat.le_refl _, Nat.le_add_right _ _⟩
  have hone (c : Int) : begin.length ≤ (c :: begin).length ∧
      (c :: begin).length ≤ begin.length + 2 := ⟨Nat.le_succ _, Nat.le_succ _⟩
  have htwo (c d : Int) : begin.length ≤ (c :: d :: begin).length ∧
      (c :: d :: begin).length ≤ begin.length + 2 := ⟨Nat.le_add_right _ 2, Nat.le_refl _⟩
  have hsign : begin.length ≤ (put_sign cvt negative fmt begin).length ∧
      (put_sign cvt negative fmt begin).length ≤ begin.length + 2 := by
    unfold put_sign
    split
    · exact hone _
    · split
      · exact hone _
      · exact hnone
  unfold put_prefix
  repeat' split
  all_goals first | exact hsign | exact hnone | exact hone _ | exact htwo _ _

theorem eight_le_put_base (bf : Basefield) : 8 ≤ bf.put_base := by
  cases bf <;> decide

theorem value_lt (v : Int) : (v % 2 ^ 64).toNat < 2 ^ 64 := by
  omega

theorem format_fst (cvt grouping : List Int) (signed : Bool) (fmt : Fmtflags) (val : Int) :
    let base := fmt.basefield.put_base
    let negative := signed && decide (val < 0) && decide (base = 10)
    (format cvt signed fmt grouping val).1 = put_prefix cvt base fmt
      (put_digits cvt base grouping ((if negative then -val else val) % 2 ^ 64).toNat [])
      val negative := by
  unfold format
  cases fmt.adjustfield <;> rfl

theorem length_format (cvt grouping : List Int) (signed : Bool) (fmt : Fmtflags) (val : Int) :
    (format cvt signed fmt grouping val).1.length ≤ 64 := by
  rw [format_fst]
  calc _ ≤ (put_digits cvt _ grouping _ []).length + 2 := ( length_put_prefix ..).2
    _ ≤ 44 + 2 := Nat.add_le_add_right
      (length_put_digits (eight_le_put_base fmt.basefield) (value_lt _)) 2
    _ ≤ 64 := by decide

end NumPutGroupingLemmas

open NumPutGroupingLemmas

/-- The groups are right unless the first entry is 0, which puts a separator behind the last
digit. The sign, the prefix and the separators fit into the buffer in any case. -/
theorem digits_right_iff (cvt grouping : List Int) (signed : Bool) (fmt : Fmtflags) (val : Int) :
    let base := fmt.basefield.put_base
    let negative := signed && decide (val < 0) && decide (base = 10)
    let value := ((if negative then -val else val) % 2 ^ 64).toNat
    Grouped grouping (cvt.getD separator_index 0) ((numeral base value).map (cvt.getD · 0))
        (put_digits cvt base grouping value []) ∧
      (format cvt signed fmt grouping val).1.length ≤ 64 ↔
    value = 0 ∨ grouping.head? ≠ some 0 := by
  intro base negative value
  rw [groups_right (eight_le_put_base fmt.basefield) (value_lt _)]
  exact and_iff_left (length_format cvt grouping signed fmt val)

/-- With a grouping that begins with 0, `5` is written with a separator behind it. -/
theorem not_digits_right :
    put_digits classic.lower_table 10 [0] 5 [] = "5,".toList.map widen ∧
      ¬ Grouped [0] (classic.lower_table.getD separator_index 0)
        ((numeral 10 5).map (classic.lower_table.getD · 0))
        (put_digits classic.lower_table 10 [0] 5 []) := by
  constructor
  · rw [put_digits, if_neg (by decide), if_neg (by decide), group_loop_eq (by decide)]
    decide
  · intro h
    exact absurd ((groups_right (by decide) (by decide)).mp h) (by decide)

end Kuhllib.Cxxrt
