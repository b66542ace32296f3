import Kuhllib.Cxxrt.LineInput

/-!
# `ignore`

Where there is a get area the delimiter is looked for as a character, and where there is none it
is compared as an `int_type`. `eof()` and other values that no character has become characters,
too. A counter that is unlimited is as large as the largest number.

Results:
1. `first_hit_block`, `ignore_loop_eq`: where the loop ends.
2. `ignore_iff`: when `ignore` extracts what it should.
-/

namespace Kuhllib.Cxxrt

section

variable {α I : Type} [DecidableEq α] [DecidableEq I] (tr : CharTraits α I) (c : I)

/-- The first character that ends the loop; `w` is the content of the supply. -/
def first_hit : Supply α → List α → Option Nat
  | _, [] => none
  | S, x :: w =>
    if (if S.current.isEmpty then tr.to_int_type x = c else x = tr.to_char_type c) then some 0
    else (first_hit S.bump w).map (· + 1)

/-- How many of at most `k` characters are extracted, and what is set. -/
def ignore_end (limited : Bool) (k : Nat) (hit : Option Nat) (len : Nat) : Option (Nat × Iostate) :=
  if hit.any (· < k) then hit.map fun j => (j + 1, goodbit)
  else if len < k ∨ len = k ∧ limited = false then some (len, eofbit)
  else if limited then some (k, goodbit) else none

end

namespace IgnoringLemmas

open IstreamLemmas LineInputLemmas SourcesLemmas

/-! ## 1. The loop -/

section

variable {σ α : Type} {supply : σ → Supply α} {w : List α} {k m : Nat}

theorem ignore_end_add (limited : Bool) (hk : m ≤ k) (hit : Option Nat) (len : Nat) :
    ignore_end limited k (hit.map (· + m)) (len + m) =
      (ignore_end limited (k - m) hit len).map fun r => (r.1 + m, r.2) := by
  have hlt : len + m < k ↔ len < k - m := by omega
  have heq : len + m = k ↔ len = k - m := by omega
  unfold ignore_end
  cases hit with
  | none =>
    simp only [Option.map_none, Option.any_none, Bool.false_eq_true, if_false, hlt, heq]
    split
    · rfl
    · split
      · rw [Option.map_some, Nat.sub_add_cancel hk]
      · rfl
  | some j =>
    have hj : j + m < k ↔ j < k - m := by omega
    simp only [Option.map_some, Option.any_some, decide_eq_true_eq, hlt, heq, hj]
    split
    · rw [Option.map_some, Nat.add_right_comm]
    · split
      · rfl
      · split
        · rw [Option.map_some, Nat.sub_add_cancel hk]
        · rfl

/-- What the rounds behind `m` characters extract. -/
theorem ignore_end_shift {limited : Bool} {s' : σ} {g : Int} {hit : Option Nat} {len : Nat}
    {loop : Option (σ × Int × Iostate)} (hm : m ≤ k)
    (hloop : loop =
      (ignore_end limited (k - m) hit len).map fun r => (s', g + (m : Nat) + (r.1 : Nat), r.2))
    (hrest : ∀ r, ignore_end limited (k - m) hit len = some r →
      (supply s').content = (w.drop m).drop r.1) :
    loop = (ignore_end limited k (hit.map (· + m)) (len + m)).map
        (fun r => (s', g + (r.1 : Nat), r.2)) ∧
      ∀ r, ignore_end limited k (hit.map (· + m)) (len + m) = some r →
        (supply s').content = w.drop r.1 := by
  rw [hloop, ignore_end_add _ hm, Option.map_map]
  refine ⟨?_, fun r hr => ?_⟩
  · congr 1
    funext r
    rw [Function.comp_apply, Nat.cast_add, Int.add_assoc, Int.add_comm (m : Int)]
  · obtain ⟨r', hr', rfl⟩ := Option.map_eq_some_iff.mp hr
    rw [hrest r' hr', List.drop_drop, Nat.add_comm m]

theorem ignore_end_zero (limited : Bool) (hit : Option Nat) (len : Nat) :
    ignore_end limited 0 hit len = if len = 0 ∧ limited = false then some (0, eofbit)
      else if limited then some (0, goodbit) else none := by
  unfold ignore_end
  rw [if_neg (by cases hit <;> simp)]
  simp only [Nat.not_lt_zero, false_or]
  split
  · next hlen => rw [hlen.1]
  · rfl

theorem ignore_end_hit {limited : Bool} {j len : Nat} (hj : j < k) :
    ignore_end limited k (some j) len = some (j + 1, goodbit) := by
  rw [ignore_end, if_pos (by simpa)]
  rfl

end

section

variable {σ α I : Type} [DecidableEq α] [DecidableEq I] {b : Streambuf σ α} {ok : σ → Prop}
  {supply : σ → Supply α} {s : σ} {tr : CharTraits α I} {c : I} {S : Supply α} {w : List α}
  {k m : Nat}

theorem first_hit_single (hcur : S.current = []) (x : α) (w : List α) :
    first_hit tr c S (x :: w) =
      if tr.to_int_type x = c then some 0 else (first_hit tr c S.bump w).map (· + 1) := by
  rw [first_hit, hcur]
  simp only [List.isEmpty_nil, if_true]

theorem first_hit_area (hcur : S.current ≠ []) (x : α) (w : List α) :
    first_hit tr c S (x :: w) =
      if x = tr.to_char_type c then some 0 else (first_hit tr c S.bump w).map (· + 1) := by
  rw [first_hit]
  simp only [List.isEmpty_iff, hcur, if_false]

/-- The characters of a block. -/
theorem first_hit_block (hm : m ≤ S.current.length) :
    first_hit tr c S S.content =
      if tr.to_char_type c ∈ S.current.take m then
        some ((S.current.take m).takeWhile (· ≠ tr.to_char_type c)).length
      else (first_hit tr c (S.drop m) (S.content.drop m)).map (· + m) := by
  induction m generalizing S with
  | zero =>
    rw [List.take_zero, if_neg List.not_mem_nil]
    exact (congrFun Option.map_id _).symm
  | succ m ih =>
    obtain ⟨current, next⟩ := S
    cases current with
    | nil => cases hm
    | cons x cs =>
      have hcontent : (Supply.mk (x :: cs) next).content = x :: (Supply.mk cs next).content := rfl
      have hrec := ih (S := ⟨cs, next⟩) (Nat.le_of_succ_le_succ hm)
      rw [hcontent, first_hit, List.take_succ_cons]
      simp only [List.isEmpty_cons, Bool.false_eq_true, if_false, List.mem_cons]
      by_cases hx : x = tr.to_char_type c
      · rw [if_pos hx, if_pos (.inl hx.symm), List.takeWhile_cons_of_neg (by simpa)]
        rfl
      · have hbump : (Supply.mk (x :: cs) next).bump = ⟨cs, next⟩ := rfl
        have hmem : tr.to_char_type c = x ∨ tr.to_char_type c ∈ cs.take m ↔
            tr.to_char_type c ∈ cs.take m := or_iff_right fun he => hx he.symm
        rw [if_neg hx, hbump, hrec, List.takeWhile_cons_of_pos (by simpa)]
        simp only [hmem]
        split
        · rfl
        · rw [Option.map_map]
          rfl

/-- The counter cannot be incremented. -/
theorem ignore_loop_overflow (h : b.Source ok supply) (hok : ok s)
    (hw : (supply s).content ≠ []) (fuel : Nat) :
    Istream.ignore_loop b tr streamsize_max c fuel s streamsize_max = none := by
  induction fuel generalizing s with
  | zero => rfl
  | succ fuel ih =>
    rw [Istream.ignore_loop, if_pos (.inr rfl)]
    dsimp only
    rw [area_size h hok]
    cases hcur : (supply s).current with
    | nil =>
      obtain ⟨s₁, hs₁, -⟩ := sbumpc_source h hok
      rw [List.length_nil, Nat.cast_zero, if_pos rfl, hs₁]
      cases hhead : (supply s).content with
      | nil => exact absurd hhead hw
      | cons x w => rfl
    | cons x cs =>
      obtain ⟨hok₁, hsupply₁⟩ := h.skip s 0 hok (Nat.zero_le _)
      have hpos : (0 : Int) < ((x :: cs).length : Nat) := by
        rw [List.length_cons]
        omega
      rw [if_neg (ne_of_gt hpos), Int.sub_self, if_pos hpos, if_neg (Int.lt_irrefl 0)]
      simp only [Int.toNat_zero, find, Option.bind_eq_bind, Option.bind_some]
      exact ih hok₁ (ne_of_eq_of_ne (congrArg Supply.content hsupply₁) hw)

/-- A round at the end. -/
theorem ignore_loop_end (h : b.Source ok supply) (hok : ok s) {n g : Int}
    (hguard : g < n ∨ n = streamsize_max) (hw : (supply s).content = []) (fuel : Nat) :
    ∃ s', ok s' ∧
      Istream.ignore_loop b tr n c (fuel + 1) s g = some (s', g, eofbit) ∧
      (supply s').content = [] := by
  obtain ⟨s₁, hs₁, hok₁, hsupply₁⟩ := sbumpc_source h hok
  have hcur : (supply s).current = [] := (List.append_eq_nil_iff.mp hw).1
  rw [hw] at hs₁
  refine ⟨s₁, hok₁, ?_, by rw [hsupply₁, Supply.content_bump, hw]; rfl⟩
  rw [Istream.ignore_loop, if_pos hguard]
  dsimp only
  rw [area_size h hok, hcur, List.length_nil, Nat.cast_zero, if_pos rfl, hs₁]
  rfl

/-- A round with a character that comes without an area. -/
theorem ignore_loop_single (h : b.Source ok supply) (hok : ok s) {n g : Int}
    (hguard : g < n ∨ n = streamsize_max) (hcur : (supply s).current = []) {x : α}
    (hw : (supply s).content = x :: w) : ∃ s', ok s' ∧ supply s' = (supply s).bump ∧
      ∀ fuel, Istream.ignore_loop b tr n c (fuel + 1) s g =
        if g = streamsize_max then none
        else if tr.to_int_type x = c then some (s', g + 1, goodbit)
        else Istream.ignore_loop b tr n c fuel s' (g + 1) := by
  obtain ⟨s₁, hs₁, hok₁, hsupply₁⟩ := sbumpc_source h hok
  refine ⟨s₁, hok₁, hsupply₁, fun fuel => ?_⟩
  rw [Istream.ignore_loop, if_pos hguard]
  dsimp only
  rw [area_size h hok, hcur, List.length_nil, Nat.cast_zero, if_pos rfl, hs₁, hw, List.head?_cons]
  rfl

/-- A round with a block. -/
theorem ignore_loop_block (tr : CharTraits α I) (c : I) (h : b.Source ok supply) (hok : ok s)
    {n g : Int} (hn : n = g + k) (hm : m = min k (supply s).current.length) (hpos : 0 < m)
    (fuel : Nat) :
    Istream.ignore_loop b tr n c (fuel + 1) s g =
      let f := (((supply s).current.take m).takeWhile (· ≠ tr.to_char_type c)).length
      let commit (j : Nat) := b.with_areas s { b.areas s with gcur := (b.areas s).gcur + (j : Nat) }
      if tr.to_char_type c ∈ (supply s).current.take m then
        some (commit (f + 1), g + ((f + 1 : Nat) : Int), goodbit)
      else Istream.ignore_loop b tr n c fuel (commit m) (g + (m : Nat)) := by
  have hsize : (if n - g < ((supply s).current.length : Nat) then n - g
      else ((supply s).current.length : Nat)) = (m : Nat) := by
    split <;> omega
  have hread := read_source h hok (k := m) (by omega)
  rw [Istream.ignore_loop, if_pos (.inl (by omega))]
  dsimp only
  rw [area_size h hok, if_neg (by omega), hsize, if_neg (Int.not_lt.mpr (Int.natCast_nonneg m)),
    Int.toNat_natCast, find_eq hread]
  by_cases hmem : tr.to_char_type c ∈ (supply s).current.take m
  · simp only [if_pos hmem, Option.bind_eq_bind, Option.bind_some]
  · simp only [if_neg hmem, Option.bind_eq_bind, Option.bind_some]

/-- The induction is on the rounds. Each one extracts at least one character, or is the last. -/
theorem ignore_loop_eq (h : b.Source ok supply) (hok : ok s) {n g : Int} (hn : n = g + k)
    (hmax : n ≤ streamsize_max) {fuel : Nat} (hfuel : (supply s).content.length < fuel) : ∃ s',
      Istream.ignore_loop b tr n c fuel s g =
        (ignore_end (n ≠ streamsize_max) k (first_hit tr c (supply s) (supply s).content)
          (supply s).content.length).map (fun r => (s', g + (r.1 : Nat), r.2)) ∧
      ok s' ∧
      ∀ r, ignore_end (n ≠ streamsize_max) k (first_hit tr c (supply s) (supply s).content)
          (supply s).content.length = some r →
        (supply s').content = (supply s).content.drop r.1 := by
  induction fuel generalizing s g k with
  | zero => cases hfuel
  | succ fuel ih =>
    by_cases hguard : g < n ∨ n = streamsize_max
    · cases hw : (supply s).content with
      | nil =>
        obtain ⟨s', hok', hloop, hcontent'⟩ := ignore_loop_end (c := c) h hok hguard hw fuel
        have hend : ignore_end (n ≠ streamsize_max) k none 0 = some (0, eofbit) := by
          rw [ignore_end, if_neg (by simp), if_pos]
          rcases hguard with hlt | hunlimited
          · exact .inl (by omega)
          · rcases Nat.eq_zero_or_pos k with hk | hk
            · exact .inr ⟨hk.symm, by simpa using hunlimited⟩
            · exact .inl hk
        refine ⟨s', ?_, hok', fun r _ => ?_⟩
        · rw [hloop, first_hit, List.length_nil, hend]
          simp
        · rw [hcontent', List.drop_nil]
      | cons x w =>
        have hne : (supply s).content ≠ [] := hw ▸ List.cons_ne_nil x w
        by_cases hk : k = 0
        · -- the counter has no room for a character
          have hlimit : n = streamsize_max := hguard.resolve_left (by omega)
          have hfull : g = streamsize_max := by omega
          rw [hlimit, hfull, hk, ignore_end_zero, if_neg fun hand => Nat.succ_ne_zero _ hand.1,
            if_neg (by simp), ignore_loop_overflow h hok hne]
          exact ⟨s, rfl, hok, fun r hr => absurd hr (Option.some_ne_none r).symm⟩
        · have hpos := Nat.pos_of_ne_zero hk
          by_cases hcur : (supply s).current = []
          · obtain ⟨s₁, hok₁, hsupply₁, hround⟩ :=
              ignore_loop_single (c := c) h hok (n := n) (g := g) hguard hcur hw
            have hcontent₁ : (supply s₁).content = w := by
              rw [hsupply₁, Supply.content_bump, hw]
              rfl
            rw [hround, if_neg (by omega), first_hit_single hcur]
            by_cases hx : tr.to_int_type x = c
            · have hend : ignore_end (n ≠ streamsize_max) k (some 0) (x :: w).length =
                  some (1, goodbit) := by simp [ignore_end, hpos]
              rw [if_pos hx, if_pos hx, hend]
              refine ⟨s₁, rfl, hok₁, fun r hr => ?_⟩
              cases hr
              exact hcontent₁
            · obtain ⟨s', hloop, hok', hrest⟩ := ih (k := k - 1) (g := g + 1) hok₁ (by omega)
                (by rw [hcontent₁]; rw [hw] at hfuel; exact Nat.lt_of_succ_lt_succ hfuel)
              rw [hcontent₁, hsupply₁] at hloop hrest
              rw [if_neg hx, if_neg hx, List.length_cons]
              obtain ⟨hshift, hrest'⟩ := ignore_end_shift (w := x :: w) hpos
                hloop hrest
              exact ⟨s', hshift, hok', hrest'⟩
          · obtain ⟨m, hm⟩ : ∃ m, m = min k (supply s).current.length := ⟨_, rfl⟩
            have hsize : 0 < (supply s).current.length := List.length_pos_iff.mpr hcur
            have hle : m ≤ (supply s).current.length := by omega
            have hall := Supply.length_current_le (supply s)
            have hround := ignore_loop_block tr c h hok hn hm (by omega) fuel
            dsimp only at hround
            rw [← hw, hround, first_hit_block hle]
            by_cases hmem : tr.to_char_type c ∈ (supply s).current.take m
            · have hlt : (((supply s).current.take m).takeWhile
                  (· ≠ tr.to_char_type c)).length < m := length_line_lt hmem
              obtain ⟨hok₁, hsupply₁⟩ := h.skip s
                ((((supply s).current.take m).takeWhile (· ≠ tr.to_char_type c)).length + 1) hok
                (by omega)
              rw [if_pos hmem, if_pos hmem, ignore_end_hit (by omega)]
              refine ⟨_, rfl, hok₁, fun r hr => ?_⟩
              cases hr
              rw [hsupply₁, Supply.content_skip (by omega)]
            · obtain ⟨hok₁, hsupply₁⟩ := h.skip s m hok hle
              have hcontent₁ : (supply (b.with_areas s { b.areas s with
                  gcur := (b.areas s).gcur + (m : Nat) })).content = (supply s).content.drop m := by
                rw [hsupply₁, Supply.content_skip hle]
              obtain ⟨s', hloop, hok', hrest⟩ := ih (k := k - m) (g := g + (m : Nat)) hok₁
                (by omega) (by rw [hcontent₁, List.length_drop]; omega)
              rw [hcontent₁, hsupply₁, Supply.skip_eq_drop hle] at hloop hrest
              have hlen : (supply s).content.length = ((supply s).content.drop m).length + m := by
                rw [List.length_drop]
                omega
              rw [if_neg hmem, if_neg hmem, hlen]
              obtain ⟨hshift, hrest'⟩ := ignore_end_shift
                (w := (supply s).content) (m := m) (by omega) hloop hrest
              exact ⟨s', hshift, hok', hrest'⟩
    · obtain ⟨hlt, hlimit⟩ := not_or.mp hguard
      obtain rfl : k = 0 := by omega
      have hstop : Istream.ignore_loop b tr n c (fuel + 1) s g = some (s, g, goodbit) := by
        rw [Istream.ignore_loop, if_neg hguard]
      rw [hstop, ignore_end_zero, if_neg (by simp [hlimit]), if_pos (by simp [hlimit])]
      refine ⟨s, by simp, hok, fun r hr => ?_⟩
      cases hr
      rfl

/-! ## 2. What is extracted -/

/-- Without an area a character is compared as what it is. -/
theorem first_hit_eq (hc : ∀ x, x = tr.to_char_type c ↔ tr.to_int_type x = c) (S : Supply α)
    (w : List α) : first_hit tr c S w = w.findIdx? fun x => tr.to_int_type x = c := by
  induction w generalizing S with
  | nil => rfl
  | cons x w ih =>
    rw [first_hit, List.findIdx?_cons, ih]
    simp only [hc, ite_self, decide_eq_true_eq]

/-- No character is `c`, but one in an area looks like it. -/
theorem first_hit_sound (hc : ∀ x, tr.to_int_type x ≠ c) {j : Nat}
    (hhit : first_hit tr c S S.content = some j) :
    S.content[j]? = some (tr.to_char_type c) ∧ (S.drop j).current ≠ [] := by
  obtain ⟨w, hw⟩ : ∃ w, w = S.content := ⟨_, rfl⟩
  rw [← hw] at hhit ⊢
  induction w generalizing S j with
  | nil => cases hhit
  | cons x w ih =>
    have hcontent : w = S.bump.content := by
      rw [Supply.content_bump, ← hw]
      rfl
    have hrest (h : (first_hit tr c S.bump w).map (· + 1) = some j) :
        (x :: w)[j]? = some (tr.to_char_type c) ∧ (S.drop j).current ≠ [] := by
      obtain ⟨i, hi, rfl⟩ := Option.map_eq_some_iff.mp h
      exact ih hi hcontent
    by_cases hcur : S.current = []
    · rw [first_hit_single hcur, if_neg (hc x)] at hhit
      exact hrest hhit
    · rw [first_hit_area hcur] at hhit
      split at hhit
      · next hx =>
        cases hhit
        exact ⟨congrArg some hx, hcur⟩
      · exact hrest hhit

theorem first_hit_complete {j : Nat} (hj : S.content[j]? = some (tr.to_char_type c))
    (hcur : (S.drop j).current ≠ []) : ∃ i ≤ j, first_hit tr c S S.content = some i := by
  obtain ⟨w, hw⟩ : ∃ w, w = S.content := ⟨_, rfl⟩
  rw [← hw] at hj ⊢
  induction w generalizing S j with
  | nil => cases hj
  | cons x w ih =>
    have hcontent : w = S.bump.content := by
      rw [Supply.content_bump, ← hw]
      rfl
    cases j with
    | zero =>
      cases hj
      rw [first_hit_area (show S.current ≠ [] from hcur), if_pos rfl]
      exact ⟨0, Nat.le_refl 0, rfl⟩
    | succ j =>
      obtain ⟨i, hi, hhit⟩ := ih (S := S.bump) (j := j) hcur hj hcontent
      have hnext : (first_hit tr c S.bump w).map (· + 1) = some (i + 1) := by
        rw [hhit]
        rfl
      rw [first_hit, hnext]
      by_cases hx : if S.current.isEmpty then tr.to_int_type x = c else x = tr.to_char_type c
      · exact ⟨0, Nat.zero_le _, if_pos hx⟩
      · exact ⟨i + 1, Nat.succ_le_succ hi, if_neg hx⟩

/-- The end of the loop is where it should be. -/
theorem ignore_end_iff (limited : Bool) {hit : Option Nat} {len : Nat}
    (hhit : ∀ j, hit = some j → j < len) :
    (∃ bits, ignore_end limited k hit len = some
        (if limited then min k ((hit.map (· + 1)).getD len) else (hit.map (· + 1)).getD len, bits) ∧
      (bits &&& eofbit ≠ 0 ↔ hit = none ∧ (limited = false ∨ len < k))) ↔
    (limited = false → (hit.map (· + 1)).getD len ≤ k) := by
  unfold ignore_end
  cases hit with
  | none =>
    cases limited with
    | true =>
      simp only [Option.any_none, Option.map_none, Option.getD_none, Bool.false_eq_true, if_false,
        if_true, Bool.true_eq_false, and_false, or_false, false_imp_iff, iff_true, true_and,
        false_or]
      by_cases hlen : len < k
      · rw [if_pos hlen, Nat.min_eq_right (Nat.le_of_lt hlen)]
        exact ⟨_, rfl, iff_of_true eof_eof hlen⟩
      · rw [if_neg hlen, Nat.min_eq_left (Nat.le_of_not_lt hlen)]
        exact ⟨_, rfl, iff_of_false good_eof hlen⟩
    | false =>
      simp only [Option.any_none, Option.map_none, Option.getD_none, Bool.false_eq_true, if_false,
        and_true, true_or, iff_true, true_imp_iff]
      by_cases hlen : len ≤ k
      · rw [if_pos (Nat.lt_or_eq_of_le hlen)]
        exact iff_of_true ⟨_, rfl, eof_eof⟩ hlen
      · rw [if_neg (by omega)]
        exact iff_of_false (fun ⟨_, heq, _⟩ => nomatch heq) hlen
  | some j =>
    have hj := hhit j rfl
    simp only [Option.any_some, Option.map_some, Option.getD_some, decide_eq_true_eq, reduceCtorEq,
      false_and, iff_false]
    by_cases hlt : j < k
    · rw [if_pos hlt, Nat.min_eq_right hlt, ite_self]
      exact iff_of_true ⟨_, rfl, good_eof⟩ fun _ => hlt
    · rw [if_neg hlt, if_neg (by omega)]
      cases limited with
      | true =>
        rw [if_pos rfl, if_pos rfl, Nat.min_eq_left (by omega)]
        exact iff_of_true ⟨_, rfl, good_eof⟩ fun h => nomatch h
      | false =>
        rw [if_neg Bool.false_ne_true]
        exact iff_of_false (fun ⟨_, heq, _⟩ => nomatch heq) fun h => hlt (h rfl)

/-- The loop ends at a character although it should not. -/
theorem ignore_end_mistaken {limited : Bool} {hit : Option Nat} {len : Nat}
    (hhit : ∀ j, hit = some j → j < len) :
    (∃ bits, ignore_end limited k hit len = some (if limited then min k len else len, bits) ∧
      (bits &&& eofbit ≠ 0 ↔ limited = false ∨ len < k)) ↔
    (limited = false → len ≤ k) ∧ ∀ j, hit = some j → limited = true ∧ k ≤ j + 1 := by
  cases hit with
  | none =>
    have hnone : ∀ j, (none : Option Nat) = some j → j < len := fun j hj => nomatch hj
    have hend := ignore_end_iff (k := k) limited hnone
    simp only [Option.map_none, Option.getD_none, true_and] at hend
    rw [hend, and_iff_left fun j hj => nomatch hj]
  | some j =>
    have hj := hhit j rfl
    unfold ignore_end
    simp only [Option.any_some, Option.map_some, decide_eq_true_eq, Option.some.injEq, forall_eq']
    cases limited with
    | true =>
      simp only [Bool.true_eq_false, false_imp_iff, true_and, false_or, and_false, or_false,
        if_true]
      by_cases hlt : j < k
      · rw [if_pos hlt]
        constructor
        · rintro ⟨bits, heq, hbits⟩
          obtain ⟨hall, rfl⟩ := Prod.mk.inj (Option.some.inj heq)
          have hend : ¬len < k := fun hlen => good_eof (hbits.mpr hlen)
          omega
        · intro hle
          refine ⟨goodbit, ?_, iff_of_false good_eof (by omega)⟩
          obtain rfl : k = j + 1 := Nat.le_antisymm hle hlt
          rw [Nat.min_eq_left hj]
      · rw [if_neg hlt, if_neg (by omega), Nat.min_eq_left (by omega)]
        exact iff_of_true ⟨_, rfl, iff_of_false good_eof (by omega)⟩ (by omega)
    | false =>
      refine iff_of_false ?_ fun h => nomatch h.2.1
      rintro ⟨bits, heq, hbits⟩
      by_cases hlt : j < k
      · rw [if_pos hlt] at heq
        obtain ⟨-, rfl⟩ := Prod.mk.inj (Option.some.inj heq)
        exact good_eof (hbits.mpr (.inl rfl))
      · rw [if_neg hlt, if_neg (by omega)] at heq
        cases heq

variable (tr c) in
/-- How many characters `ignore(n, c)` extracts, and what it sets. -/
def ignored (n : Int) (S : Supply α) : Option (Nat × Iostate) :=
  if S.content = [] then some (0, eofbit)
  else ignore_end (n ≠ streamsize_max) n.toNat (first_hit tr c S.peek S.content) S.content.length

variable {ι : Type} {throws : ι → Bool} {is : Istream ι σ}

/-- All that `ignore` does. -/
theorem ignore_eq (h : b.Source ok supply) (hok : ok s) (hbuf : is.m_sbuf = some s)
    (hgood : is.good = true) (htie : is.m_tie.any throws = false) {n : Int} (hn : 0 ≤ n)
    (hmax : n ≤ streamsize_max) {fuel : Nat} (hfuel : (supply s).content.length < fuel) : ∃ s',
      is.ignore b throws tr n c fuel = (ignored tr c n (supply s)).map (fun r =>
        { is.with_sbuf s' with m_gcount := (r.1 : Nat) }.report r.2) ∧
      ∀ r, ignored tr c n (supply s) = some r →
        (supply s').content = (supply s).content.drop r.1 := by
  obtain ⟨s₁, hs₁, hok₁, hsupply₁⟩ := sgetc_source h hok
  have hcontent₁ : (supply s₁).content = (supply s).content := by
    rw [hsupply₁, Supply.content_peek]
  have hsentry := sentry_good hgood htie
  unfold Istream.ignore ignored
  rw [hsentry]
  simp only [Option.bind_eq_bind, Option.bind_some, Bool.false_eq_true, if_false, hgood, if_true,
    hbuf, hs₁]
  cases hw : (supply s).content with
  | nil =>
    rw [if_pos rfl]
    exact ⟨s₁, rfl, fun r _ => by rw [hcontent₁, hw, List.drop_nil]⟩
  | cons x w =>
    obtain ⟨s', hloop, -, hrest⟩ := ignore_loop_eq (c := c) (k := n.toNat) (n := n)
      (g := 0) h hok₁ (by omega) hmax (hcontent₁ ▸ hfuel)
    rw [hsupply₁, Supply.content_peek, hw] at hloop hrest
    rw [if_neg (List.cons_ne_nil x w), List.head?_cons, Option.isNone_some,
      if_neg Bool.false_ne_true, hloop]
    refine ⟨s', ?_, hrest⟩
    cases ignore_end (n ≠ streamsize_max) n.toNat (first_hit tr c (supply s).peek (x :: w))
      (x :: w).length with
    | none => rfl
    | some r => simp only [Option.map_some, Option.bind_some, Int.zero_add]

end

end IgnoringLemmas

section

variable {ι σ α I : Type} [DecidableEq α] [DecidableEq I] (b : Streambuf σ α) (throws : ι → Bool)
  (tr : CharTraits α I) (supply : σ → Supply α) (n : Int) (c : I)

/-- How many characters are to be extracted. -/
def to_ignore (w : List α) : Nat :=
  let up_to := ((w.findIdx? fun x => tr.to_int_type x = c).map (· + 1)).getD w.length
  if n = streamsize_max then up_to else min n.toNat up_to

/-- `ignore(n, c)` is right. -/
def Ignores (fuel : Nat) (is : Istream ι σ) (s : σ) : Prop :=
  let w := (supply s).content
  ∃ is' s' threw, is.ignore b throws tr n c fuel = some (is', threw) ∧ is'.m_sbuf = some s' ∧
    (supply s').content = w.drop (to_ignore tr n c w) ∧ is'.m_gcount = to_ignore tr n c w ∧
    (is'.m_state &&& eofbit ≠ 0 ↔
      (∀ x ∈ w, tr.to_int_type x ≠ c) ∧ (n = streamsize_max ∨ (w.length : Int) < n))

/-- If no character is `c`, none that looks like it is found in an area, unless it is the last. -/
def Unmistaken (S : Supply α) : Prop :=
  (∀ x, tr.to_int_type x ≠ c) → ∀ j : Nat, (j : Int) + 1 < n ∨ n = streamsize_max →
    S.content[j]? = some (tr.to_char_type c) → (S.peek.drop j).current = []

end

namespace IgnoringLemmas

open IstreamLemmas

section

variable {α I : Type} [DecidableEq I] {tr : CharTraits α I} {c : I} {n : Int}

theorem to_ignore_eq (w : List α) : to_ignore tr n c w =
    let up_to := ((w.findIdx? fun x => tr.to_int_type x = c).map (· + 1)).getD w.length
    if decide (n ≠ streamsize_max) = true then min n.toNat up_to else up_to := by
  unfold to_ignore
  by_cases hlimit : n = streamsize_max
  · rw [if_pos hlimit, if_neg (by simpa)]
  · rw [if_neg hlimit, if_pos (by simpa)]

/-- What a stream that was good reports. -/
theorem report_good {ι σ : Type} {is : Istream ι σ} (hgood : is.good = true) (s' : σ)
    (count : Int) (bits : Iostate) :
    let is' := ({ is.with_sbuf s' with m_gcount := count }.report bits).1
    is'.m_sbuf = some s' ∧ is'.m_gcount = count ∧
      is'.m_state &&& eofbit = bits &&& eofbit := by
  have hne : ({ is.with_sbuf s' with m_gcount := count } : Istream ι σ).m_sbuf ≠ none :=
    Option.some_ne_none s'
  have hstate : is.m_state = goodbit := of_decide_eq_true hgood
  refine ⟨(report_sbuf hne bits).1, (report_sbuf hne bits).2, ?_⟩
  rw [report_state hne bits (by decide)]
  show (is.m_state ||| bits) &&& eofbit = _
  rw [hstate, good_or]

/-- There is room for all characters if the number of characters is not limited. -/
theorem room_iff (up_to : Nat) :
    (decide (n ≠ streamsize_max) = false → up_to ≤ n.toNat) ↔
      (n = streamsize_max → (up_to : Int) ≤ streamsize_max) := by
  have hlimit : decide (n ≠ streamsize_max) = false ↔ n = streamsize_max := by simp
  rw [hlimit]
  unfold streamsize_max at *
  omega

variable [DecidableEq α] {S : Supply α}

theorem first_hit_lt {w : List α} {j : Nat} (hhit : first_hit tr c S w = some j) :
    j < w.length := by
  induction w generalizing S j with
  | nil => cases hhit
  | cons x w ih =>
    rw [first_hit] at hhit
    by_cases hx : if S.current.isEmpty then tr.to_int_type x = c else x = tr.to_char_type c
    · rw [if_pos hx] at hhit
      cases hhit
      exact Nat.succ_pos _
    · rw [if_neg hx] at hhit
      obtain ⟨i, hi, rfl⟩ := Option.map_eq_some_iff.mp hhit
      exact Nat.succ_lt_succ (ih hi)

theorem unmistaken_iff (hc : ∀ x, tr.to_int_type x ≠ c) (hn : 0 ≤ n) : Unmistaken tr n c S ↔
    ∀ j, first_hit tr c S.peek S.content = some j →
      decide (n ≠ streamsize_max) = true ∧ n.toNat ≤ j + 1 := by
  have hcontent := Supply.content_peek S
  simp only [decide_eq_true_eq]
  constructor
  · intro h j hhit
    rw [← hcontent] at hhit
    obtain ⟨hj, hcur⟩ := first_hit_sound hc hhit
    rw [hcontent] at hj
    have hlast := mt (fun hnear => h hc j hnear hj) hcur
    omega
  · intro h _ j hnear hj
    by_contra hcur
    rw [← hcontent] at hj
    obtain ⟨i, hi, hhit⟩ := first_hit_complete hj hcur
    rw [hcontent] at hhit
    obtain ⟨hlimit, hlast⟩ := h i hhit
    omega

/-- When what is extracted is what should be. -/
theorem ignored_iff (hn : 0 ≤ n) :
    (∃ bits, ignored tr c n S = some (to_ignore tr n c S.content, bits) ∧
      (bits &&& eofbit ≠ 0 ↔ (∀ x ∈ S.content, tr.to_int_type x ≠ c) ∧
        (n = streamsize_max ∨ (S.content.length : Int) < n))) ↔
    (S.content = [] → n ≠ 0) ∧
      (n = streamsize_max → (to_ignore tr n c S.content : Int) ≤ streamsize_max) ∧
      Unmistaken tr n c S := by
  have hend : n = streamsize_max ∨ (S.content.length : Int) < n ↔
      decide (n ≠ streamsize_max) = false ∨ S.content.length < n.toNat :=
    or_congr (by simp) (by omega)
  have hfind : (∀ x ∈ S.content, tr.to_int_type x ≠ c) ↔
      (S.content.findIdx? fun x => tr.to_int_type x = c) = none := by
    rw [List.findIdx?_eq_none_iff]
    simp
  unfold ignored
  by_cases hw : S.content = []
  · have hnone : to_ignore tr n c [] = 0 := by simp [to_ignore]
    have hpos : n = streamsize_max ∨ (0 : Int) < n ↔ n ≠ 0 := by
      unfold streamsize_max
      omega
    rw [if_pos hw, hw, hnone]
    constructor
    · rintro ⟨bits, heq, hbits⟩
      obtain ⟨-, rfl⟩ := Prod.mk.inj (Option.some.inj heq)
      refine ⟨fun _ => hpos.mp (hbits.mp eof_eof).2, fun _ => by unfold streamsize_max; omega,
        fun _ j _ hj => ?_⟩
      rw [hw] at hj
      cases hj
    · rintro ⟨hne, -⟩
      exact ⟨eofbit, rfl, iff_of_true eof_eof ⟨fun _ => (nomatch ·), hpos.mpr (hne rfl)⟩⟩
  · obtain ⟨up_to, hup⟩ : ∃ up_to, up_to =
        ((S.content.findIdx? fun x => tr.to_int_type x = c).map (· + 1)).getD S.content.length :=
      ⟨_, rfl⟩
    have hroom : (n = streamsize_max → (to_ignore tr n c S.content : Int) ≤ streamsize_max) ↔
        (decide (n ≠ streamsize_max) = false → up_to ≤ n.toNat) := by
      rw [room_iff]
      refine forall_congr' fun hmax' => ?_
      rw [to_ignore, if_pos hmax', hup]
    rw [if_neg hw, hfind, hend, hroom, to_ignore_eq, hup, and_iff_right fun h => absurd h hw]
    by_cases hc : ∃ x, tr.to_int_type x = c
    · obtain ⟨x, rfl⟩ := hc
      have hlike (y : α) : y = tr.to_char_type (tr.to_int_type x) ↔
          tr.to_int_type y = tr.to_int_type x := by
        rw [tr.to_char_to_int]
        exact ⟨fun heq => congrArg _ heq, fun heq => by
          rw [← tr.to_char_to_int y, heq, tr.to_char_to_int]⟩
      have hsame := first_hit_eq hlike S.peek S.content
      have hunmistaken : Unmistaken tr n (tr.to_int_type x) S := fun hnone => absurd rfl (hnone x)
      rw [hsame, and_iff_left hunmistaken]
      exact ignore_end_iff _ fun j hhit => first_hit_lt (hsame.trans hhit)
    · have hnone : ∀ x, tr.to_int_type x ≠ c := not_exists.mp hc
      rw [hfind.mp fun x _ => hnone x, Option.map_none, Option.getD_none, unmistaken_iff hnone hn]
      simp only [true_and]
      exact ignore_end_mistaken fun j hhit => first_hit_lt hhit

end

end IgnoringLemmas

open IgnoringLemmas IstreamLemmas

/-- `ignore` is right unless it is called with 0 at the end, the counter is too small, or a
character is mistaken for the delimiter. -/
theorem ignore_iff {ι σ α I : Type} [DecidableEq α] [DecidableEq I] {b : Streambuf σ α}
    {ok : σ → Prop} {supply : σ → Supply α} (h : b.Source ok supply) {throws : ι → Bool}
    (tr : CharTraits α I) {is : Istream ι σ} {s : σ} (hok : ok s) (hbuf : is.m_sbuf = some s)
    (hgood : is.good = true) (htie : is.m_tie.any throws = false) {n : Int} (hn : 0 ≤ n)
    (hmax : n ≤ streamsize_max) (c : I) {fuel : Nat}
    (hfuel : (supply s).content.length < fuel) :
    Ignores b throws tr supply n c fuel is s ↔
      ((supply s).content = [] → n ≠ 0) ∧
      (n = streamsize_max → (to_ignore tr n c (supply s).content : Int) ≤ streamsize_max) ∧
      Unmistaken tr n c (supply s) := by
  obtain ⟨s', hignore, hrest⟩ := ignore_eq (c := c) h hok hbuf hgood htie hn hmax hfuel
  have hreport := report_good hgood s'
  rw [← ignored_iff hn]
  constructor
  · rintro ⟨is₁, s₁, threw, hrun, hbuf₁, -, hcount, heof⟩
    rw [hignore] at hrun
    obtain ⟨r, hr, heq⟩ := Option.map_eq_some_iff.mp hrun
    obtain ⟨-, hcount', hbits⟩ := hreport r.1 r.2
    rw [heq] at hcount' hbits
    rw [hcount, Int.natCast_inj] at hcount'
    rw [hbits] at heof
    exact ⟨r.2, by rw [hr, hcount'], heof⟩
  · rintro ⟨bits, heq, heof⟩
    obtain ⟨hbuf', hcount, hbits⟩ := hreport (to_ignore tr n c (supply s).content) bits
    refine ⟨_, s', _, by rw [hignore, heq]; rfl, hbuf', hrest _ heq, hcount, ?_⟩
    rw [hbits]
    exact heof

/-- A device that gives bytes. -/
def Pipe.bytes (chunks : List (Chunk (BitVec 8))) : Pipe (BitVec 8) :=
  ⟨⟨(Device.new 0 []).areas, fun _ => 0, [], []⟩, chunks⟩

theorem Pipe.ok_bytes {chunks : List (Chunk (BitVec 8))}
    (hchunks : ∀ chunk ∈ chunks, chunk.elems.length < 2 ^ 31) : (Pipe.bytes chunks).Ok where
  get_order := Int.le_refl _
  get_short := (by decide : (0 : Int) - 0 < 2 ^ 31)
  put_order := Int.le_refl _
  put_short := (by decide : (0 : Int) - 0 < 2 ^ 31)
  chunks := hchunks
  script := fun _ => (nomatch ·)

/-- Without an area nothing is mistaken for `eof()`. -/
theorem ignore_iff_example :
    let s := Pipe.bytes [.single 255, .area 1 [2]]
    Ignores Pipe.buf (fun _ => false) CharTraits.char Pipe.supply 5 (-1) 4 (Pipe.stream s) s := by
  refine (ignore_iff Pipe.buf_source CharTraits.char (Pipe.ok_bytes (by decide)) rfl rfl rfl
    (by decide) (by decide) (-1) (by decide)).mpr ⟨by decide, by decide, fun _ j _ hj => ?_⟩
  cases j with
  | zero => rfl
  | succ j =>
    have hrest : [1#8, 2#8][j]? = some 255#8 := hj
    exact absurd (List.mem_of_getElem? hrest) (by decide)

/-- The first character becomes `eof()`, and the second one is left. -/
theorem not_ignore :
    let s := Pipe.bytes [.area 255 [1]]
    ¬Ignores Pipe.buf (fun _ => false) CharTraits.char Pipe.supply 2 (-1) 3 (Pipe.stream s) s := by
  rintro s ⟨is', s', threw, hrun, -, -, hcount, -⟩
  have hleft : ((Pipe.stream s).ignore Pipe.buf (fun _ => false) CharTraits.char 2 (-1) 3).map
      (fun r => r.1.m_gcount) = some 1 := by decide
  rw [hrun, Option.map_some, hcount] at hleft
  revert hleft
  decide

end Kuhllib.Cxxrt
