import Kuhllib.Cxxrt.LineInput

/-!
# Lines that are read by `getline`

The delimiter is taken from the source, and counts. The loop looks for it behind a full array, but
does not look for the end there, and an array without room for a character is not looked behind.

Results:
1. `getline_loop_eq`: what the loop stores and leaves behind.
2. `getline_iff`: when `getline` is right.
-/

namespace Kuhllib.Cxxrt

namespace GetlineLemmas

open IstreamLemmas LineInputLemmas SourcesLemmas

/-! ## 1. The loop -/

section

variable {ι σ α : Type} [DecidableEq α] {b : Streambuf σ α} {ok : σ → Prop}
  {supply : σ → Supply α} {early : Supply α → Supply α × Option α} {s : σ} {d : α} {k m : Nat}

/-- What is left behind the line, whether the delimiter counts, and what is set. -/
def line_end (d : α) (full : Bool) (w : List α) : List α × Int × Iostate :=
  if w.head? = some d then (w.tail, 1, goodbit) else (w, 0, if full then failbit else eofbit)

/-- A round of `getline` without an area. -/
theorem getline_loop_single (h : b.Overruns ok supply early) (hok : ok s)
    (hcur : (supply s).current = []) {n : Int} {str : Nat}
    (hn : n = ((str + (k + 1) : Nat) : Int) + 1) : ∃ s₁, ok s₁ ∧ supply s₁ = (supply s).bump ∧
      ∀ fuel arr, Istream.getline_loop b n d (fuel + 1) s str arr =
        match (supply s).content.head? with
        | none => some (s₁, str, arr, 0, eofbit)
        | some c =>
          if c = d then some (s₁, str, Function.update arr str c, 1, goodbit)
          else Istream.getline_loop b n d fuel s₁ (str + 1) (Function.update arr str c) := by
  obtain ⟨s₁, hs₁, hok₁, hsupply₁⟩ := sbumpc_source h.toSource hok
  refine ⟨s₁, hok₁, hsupply₁, fun fuel arr => ?_⟩
  have hsize := block_size h hok hn
  rw [Istream.getline_loop, if_neg (by omega)]
  dsimp only
  rw [hsize, hcur, List.length_nil, Nat.min_zero, Nat.cast_zero, if_neg (Int.lt_irrefl 0),
    if_pos rfl, hs₁]
  cases (supply s).content.head? with
  | none => rfl
  | some c => simp only [Option.bind_eq_bind, Option.bind_some]

theorem getElem_takeWhile {cs : List α} (h : d ∈ cs) :
    cs[(cs.takeWhile (· ≠ d)).length]? = some d := by
  induction cs with
  | nil => cases h
  | cons c cs ih =>
    by_cases hc : c = d
    · rw [List.takeWhile_cons_of_neg (by simpa), hc]
      rfl
    · rw [List.takeWhile_cons_of_pos (by simpa), List.length_cons, List.getElem?_cons_succ]
      exact ih ((List.mem_cons.mp h).resolve_left fun heq => hc heq.symm)

/-- A round of `getline` with a block. -/
theorem getline_loop_round (h : b.Overruns ok supply early) (hok : ok s) {n : Int} {str m : Nat}
    (hn : n = ((str + k : Nat) : Int) + 1) (hm : m = min k (supply s).current.length)
    (hpos : 0 < m) (fuel : Nat) (arr : Nat → α) :
    Istream.getline_loop b n d (fuel + 1) s str arr =
      let q := line d m (supply s).content
      if q.length < m then
        some (b.with_areas s
          { b.areas s with gcur := (b.areas s).gcur + ((q.length + 1 : Nat) : Int) },
          str + q.length, copy_to arr str q, 1, goodbit)
      else (b.underflow (b.with_areas s
          { b.areas s with gcur := (b.areas s).gcur + (q.length : Nat) })).bind fun r =>
        Istream.getline_loop b n d fuel r.1 (str + q.length) (copy_to arr str q) := by
  subst hm
  have hsize := block_size h hok hn
  obtain ⟨f, hf, hcount, hread⟩ := find_source (d := d) h hok (Nat.min_le_right k _)
  have hall := read_source h.toSource hok (Nat.min_le_right k _)
  rw [Istream.getline_loop, if_neg (by omega)]
  dsimp only
  rw [hsize, if_neg (Int.not_lt.mpr (Int.natCast_nonneg _)), if_neg (by omega),
    Int.toNat_natCast, hf]
  simp only [Option.bind_eq_bind, Option.bind_some, hcount, hread, Int.ofNat_lt]
  split
  · next hlt =>
    have hline := line_current (S := supply s) d (Nat.min_le_right k (supply s).current.length)
    have hmem : d ∈ (supply s).current.take (min k (supply s).current.length) := by
      by_contra hnot
      rw [hline, List.takeWhile_eq_self_iff.mpr (ne_of_not_mem hnot),
        List.length_take_of_le (Nat.min_le_right _ _)] at hlt
      exact Nat.lt_irrefl _ hlt
    have hload := load_chars hall hlt
    rw [hline, getElem_takeWhile hmem, ← hline] at hload
    simp only [hload, Option.bind_some, if_true]
  · rfl

/-- The induction is on the rounds, as it is for `get`. -/
theorem getline_loop_eq (h : b.Overruns ok supply early) (hok : ok s) {n : Int} {fuel : Nat}
    (str : Nat) (hn : n = ((str + k : Nat) : Int) + 1) (hfuel : k < fuel) (arr : Nat → α) :
    ∃ s' arr',
      Istream.getline_loop b n d fuel s str arr =
        some (s', str + (line d k (supply s).content).length, arr',
          (line_end d ((line d k (supply s).content).length = k)
            (left_behind early (supply s) k (line d k (supply s).content).length)).2) ∧
      ok s' ∧
      (∀ x, Function.update arr' (str + (line d k (supply s).content).length) x =
        copy_to arr str (line d k (supply s).content ++ [x])) ∧
      (supply s').content = (line_end d ((line d k (supply s).content).length = k)
        (left_behind early (supply s) k (line d k (supply s).content).length)).1 := by
  induction fuel generalizing s str k arr with
  | zero => cases hfuel
  | succ fuel ih =>
    cases k with
    | zero =>
      obtain ⟨s₁, hs₁, hok₁, hsupply₁⟩ := sgetc_source h.toSource hok
      obtain ⟨s₂, hs₂, hok₂, hsupply₂⟩ := sbumpc_source h.toSource hok₁
      have hleft : left_behind early (supply s) 0 0 = (supply s).content :=
        if_neg fun hand => hand.2
      have hline : line d 0 (supply s).content = [] := rfl
      rw [Istream.getline_loop, if_pos (by omega), hs₁, hline, List.length_nil, hleft]
      simp only [Option.bind_eq_bind, Option.bind_some, hs₂, line_end]
      split
      · refine ⟨s₂, arr, rfl, hok₂, fun x => rfl, ?_⟩
        rw [hsupply₂, Supply.content_bump, hsupply₁, Supply.content_peek]
      · refine ⟨s₁, arr, rfl, hok₁, fun x => rfl, ?_⟩
        rw [hsupply₁, Supply.content_peek]
    | succ k =>
      by_cases hcur : (supply s).current = []
      · obtain ⟨s₁, hok₁, hsupply₁, hround⟩ := getline_loop_single (d := d) h hok hcur hn
        have hcontent₁ : (supply s₁).content = (supply s).content.tail := by
          rw [hsupply₁, Supply.content_bump]
        have hnone : left_behind early (supply s) (k + 1) 0 = (supply s).content :=
          if_neg fun hand => (Nat.succ_ne_zero k) hand.1.symm
        rw [hround]
        cases hw : (supply s).content with
        | nil =>
          have hline : line d (k + 1) ([] : List α) = [] := rfl
          rw [hline, List.length_nil, hnone, hw]
          rw [hw] at hcontent₁
          exact ⟨s₁, arr, rfl, hok₁, fun x => rfl, hcontent₁⟩
        | cons c w =>
          rw [hw, List.tail_cons] at hcontent₁
          by_cases hc : c = d
          · subst hc
            rw [line_cons_self, List.length_nil, hnone, hw, List.head?_cons]
            dsimp only
            rw [if_pos rfl, line_end, List.head?_cons, if_pos rfl]
            exact ⟨s₁, _, rfl, hok₁, fun x => Function.update_idem _ _ _, hcontent₁⟩
          · obtain ⟨s', arr', hloop, hok', harr, hcontent'⟩ := ih (k := k) hok₁
              (str + 1) (by omega) (Nat.lt_of_succ_lt_succ hfuel) (Function.update arr str c)
            rw [hcontent₁] at hloop harr hcontent'
            rw [List.head?_cons]
            dsimp only
            rw [if_neg hc, hloop, line_cons_of_ne hc, List.length_cons, left_behind_single hcur,
              ← hsupply₁, Nat.add_comm (line d k w).length, ← Nat.add_assoc]
            simp only [Nat.add_comm 1, Nat.add_right_cancel_iff]
            exact ⟨s', arr', rfl, hok', harr, hcontent'⟩
      · obtain ⟨m, hm⟩ : ∃ m, m = min (k + 1) (supply s).current.length := ⟨_, rfl⟩
        have hsize : 0 < (supply s).current.length := List.length_pos_iff.mpr hcur
        have hround := getline_loop_round (d := d) h hok hn hm (by omega) fuel arr
        have hall := Supply.length_current_le (supply s)
        by_cases hmem : d ∈ (supply s).content.take m
        · have hlt := length_line_lt hmem
          have hline : line d (k + 1) (supply s).content = line d m (supply s).content := by
            rw [← line_of_mem hmem (k + 1 - m), Nat.add_sub_cancel' (by omega)]
          obtain ⟨hok₁, hsupply₁⟩ :=
            h.skip s ((line d m (supply s).content).length + 1) hok (by omega)
          have hnext : (supply s).content[(line d m (supply s).content).length]? = some d := by
            rw [← List.getElem?_take_of_lt hlt]
            exact getElem_takeWhile hmem
          dsimp only at hround
          rw [if_pos hlt] at hround
          rw [hround, hline, left_behind, if_neg (by omega), line_end, List.head?_drop, hnext,
            if_pos rfl]
          refine ⟨_, _, rfl, hok₁, fun x => update_copy_to _ _ _ _, ?_⟩
          rw [hsupply₁, Supply.content_skip (by omega), List.tail_drop]
        · have hlen : ((supply s).content.take m).length = m :=
            List.length_take_of_le (by omega)
          obtain ⟨s₁, c, hs₁, hok₁, -, hline, hleft⟩ := underflow_block (k := k + 1) h hok
            (by omega) (by omega) (by omega) (by omega) hmem
          obtain ⟨s', arr', hloop, hok', harr, hcontent'⟩ := ih (k := k + 1 - m)
            hok₁ (str + m) (by omega) (by omega) (copy_to arr str ((supply s).content.take m))
          have hfull : (line d (k + 1) (supply s).content).length = k + 1 ↔
              (line d (k + 1 - m) (supply s₁).content).length = k + 1 - m := by
            rw [hline, List.length_append, hlen]
            omega
          dsimp only at hround
          rw [line_of_not_mem hmem, hlen, if_neg (Nat.lt_irrefl m), hs₁, Option.bind_some] at hround
          simp only [hfull]
          rw [hround, hloop, hleft, hline, List.length_append, hlen, ← Nat.add_assoc]
          refine ⟨s', arr', rfl, hok', fun x => ?_, hcontent'⟩
          rw [harr, List.append_assoc, copy_to_append _ _ ((supply s).content.take m), hlen]

/-! ## 2. The stream -/

variable {throws : ι → Bool} {is : Istream ι σ} {S : Supply α}

/-- What `getline` leaves behind, whether the delimiter counts, and what is set. -/
def getline_end (early : Supply α → Supply α × Option α) (d : α) (m : Nat) (S : Supply α) :
    List α × Int × Iostate :=
  if m = 0 then (S.content, 0, failbit)
  else if S.content = [] then ([], 0, failbit ||| eofbit)
  else line_end d ((line d m S.content).length = m)
    (left_behind early S.peek m (line d m S.content).length)

/-- All that `getline` does. -/
theorem getline_eq (h : b.Overruns ok supply early) (hok : ok s) (hbuf : is.m_sbuf = some s)
    (hgood : is.good = true) (htie : is.m_tie.any throws = false) (nul : α) (m : Nat)
    (arr : Nat → α) : ∃ s', ok s' ∧
      is.getline b throws nul (m + 1) d arr =
        (let (is', threw) := { is.with_sbuf s' with
            m_gcount := (getline_end early d m (supply s)).2.1 +
              ((line d m (supply s).content).length : Nat) }.report
          (getline_end early d m (supply s)).2.2
        some (is', copy_to arr 0 (line d m (supply s).content ++ [nul]), threw)) ∧
      (supply s').content = (getline_end early d m (supply s)).1 := by
  have hsentry := sentry_good hgood htie
  unfold Istream.getline getline_end
  rw [hsentry]
  simp only [Option.bind_eq_bind, Option.bind_some, Bool.false_eq_true, if_false, hgood, if_true,
    hbuf]
  cases m with
  | zero =>
    rw [if_pos (by rfl), if_pos rfl]
    exact ⟨s, hok, rfl, rfl⟩
  | succ m =>
    obtain ⟨s₁, hs₁, hok₁, hsupply₁⟩ := sgetc_source h.toSource hok
    rw [if_neg (by omega), hs₁, if_neg (Nat.succ_ne_zero m)]
    simp only [Option.bind_some]
    cases hw : (supply s).content with
    | nil =>
      rw [if_pos rfl]
      exact ⟨s₁, hok₁, rfl, by rw [hsupply₁, Supply.content_peek, hw]⟩
    | cons c w =>
      obtain ⟨s', arr', hloop, hok', harr, hcontent'⟩ := getline_loop_eq (d := d) (k := m + 1)
        (n := ((m + 1 : Nat) : Int) + 1) h hok₁ 0 (by omega)
        (Nat.lt_succ_self _) arr
      rw [hsupply₁, Supply.content_peek, hw] at hloop harr hcontent'
      rw [if_neg (List.cons_ne_nil c w)]
      refine ⟨s', hok', ?_, hcontent'⟩
      have hfuel : ((((m + 1 : Nat) : Int) + 1).toNat) = m + 1 + 1 := rfl
      rw [Nat.zero_add] at hloop harr
      rw [List.head?_cons, Option.isNone_some, if_neg Bool.false_ne_true, hfuel, hloop]
      simp only [Option.bind_some, harr]

/-- What is expected behind the line. -/
structure EndsRight (d : α) (m : Nat) (w : List α) (r : List α × Int × Iostate) : Prop where
  rest : r.1 = if (w.drop (line d m w).length).head? = some d then
    (w.drop (line d m w).length).tail else w.drop (line d m w).length
  gcount : r.2.1 = if (w.drop (line d m w).length).head? = some d then 1 else 0
  eof : r.2.2 &&& eofbit ≠ 0 ↔ (line d m w).length = w.length
  fail : r.2.2 &&& failbit ≠ 0 ↔ (w.drop (line d m w).length).head? ≠ some d ∧
    (line d m w = [] ∨ (line d m w).length = m ∧ (line d m w).length ≠ w.length)

/-- A line that is shorter than the array ends at a delimiter, or at the end. -/
theorem behind_line {w : List α} (hlt : (line d m w).length < m) :
    (line d m w).length = w.length ∨ (w.drop (line d m w).length).head? = some d := by
  induction m generalizing w with
  | zero => cases hlt
  | succ m ih =>
    cases w with
    | nil => exact .inl rfl
    | cons c w =>
      by_cases hc : c = d
      · rw [hc, line_cons_self]
        exact .inr rfl
      · rw [line_cons_of_ne hc, List.length_cons] at hlt ⊢
        rcases ih (Nat.lt_of_succ_lt_succ hlt) with hend | hdelim
        · exact .inl (congrArg (· + 1) hend)
        · exact .inr hdelim

theorem line_end_of_head {w : List α} (h : w.head? = some d) (full : Bool) :
    line_end d full w = (w.tail, 1, goodbit) := if_pos h

theorem line_end_of_ne {w : List α} (h : w.head? ≠ some d) (full : Bool) :
    line_end d full w = (w, 0, if full then failbit else eofbit) := if_neg h

/-- The array is not full. -/
theorem endsRight_short {w : List α} (hne : w ≠ []) (hlt : (line d m w).length < m) :
    EndsRight d m w (line_end d false (w.drop (line d m w).length)) := by
  by_cases hdelim : (w.drop (line d m w).length).head? = some d
  · have hmore : (line d m w).length ≠ w.length := fun hend => by
      rw [hend, List.drop_length] at hdelim
      cases hdelim
    rw [line_end_of_head hdelim]
    exact ⟨(if_pos hdelim).symm, (if_pos hdelim).symm, iff_of_false good_eof hmore,
      iff_of_false good_fail fun hand => hand.1 hdelim⟩
  · have hend := (behind_line hlt).resolve_right hdelim
    rw [line_end_of_ne hdelim]
    refine ⟨(if_neg hdelim).symm, (if_neg hdelim).symm, iff_of_true eof_eof hend,
      iff_of_false eof_fail fun hand => ?_⟩
    rcases hand.2 with hnil | ⟨-, hmore⟩
    · rw [hnil] at hend
      exact hne (List.length_eq_zero_iff.mp hend.symm)
    · exact hmore hend

/-- The array is full, and what is behind it may be disturbed. -/
theorem endsRight_full {w x : List α} (hfull : (line d m w).length = m) :
    EndsRight d m w (line_end d true x) ↔ w.length ≠ m ∧ x = w.drop (line d m w).length := by
  constructor
  · rintro ⟨hrest, hcount, heof, -⟩
    by_cases hx : x.head? = some d
    · rw [line_end_of_head hx] at hrest hcount heof
      refine ⟨fun hlen => good_eof (heof.mpr (hfull.trans hlen.symm)), ?_⟩
      by_cases hw : (w.drop (line d m w).length).head? = some d
      · rw [if_pos hw] at hrest
        have hrest : x.tail = (w.drop (line d m w).length).tail := hrest
        rw [← List.cons_head?_tail hx, hrest, List.cons_head?_tail hw]
      · rw [if_neg hw] at hcount
        cases hcount
    · rw [line_end_of_ne hx] at hrest hcount heof
      refine ⟨fun hlen => fail_eof (heof.mpr (hfull.trans hlen.symm)), ?_⟩
      by_cases hw : (w.drop (line d m w).length).head? = some d
      · rw [if_pos hw] at hcount
        cases hcount
      · rw [if_neg hw] at hrest
        exact hrest
  · rintro ⟨hmore, rfl⟩
    have hmore : (line d m w).length ≠ w.length := fun hlen => hmore (hlen.symm.trans hfull)
    by_cases hdelim : (w.drop (line d m w).length).head? = some d
    · rw [line_end_of_head hdelim]
      exact ⟨(if_pos hdelim).symm, (if_pos hdelim).symm, iff_of_false good_eof hmore,
        iff_of_false good_fail fun hand => hand.1 hdelim⟩
    · rw [line_end_of_ne hdelim]
      exact ⟨(if_neg hdelim).symm, (if_neg hdelim).symm, iff_of_false fail_eof hmore,
        iff_of_true fail_fail ⟨hdelim, .inr ⟨hfull, hmore⟩⟩⟩

end

end GetlineLemmas

/-- The line does not end with the input where the array is full, and the array has room for a
character unless the next one is neither missing nor the delimiter. -/
def EndsInside {α : Type} [DecidableEq α] (d : α) (m : Nat) (w : List α) : Prop :=
  if m = 0 then w ≠ [] ∧ w.head? ≠ some d else ¬(w.length = m ∧ d ∉ w)

namespace GetlineLemmas

open IstreamLemmas LineInputLemmas

theorem endsRight_iff {α : Type} [DecidableEq α] {early : Supply α → Supply α × Option α} {d : α}
    {m : Nat} {S : Supply α} : EndsRight d m S.content (getline_end early d m S) ↔
      EndsInside d m S.content ∧ Undisturbed early m d S := by
  obtain ⟨hle, -⟩ := length_line_le d m S.content
  unfold getline_end EndsInside
  split
  · next hm =>
    -- there is no room for a character
    subst hm
    have hkept : Undisturbed early 0 d S := fun _ hin => absurd hin fun h => h
    rw [and_iff_left hkept]
    constructor
    · rintro ⟨-, hcount, heof, -⟩
      refine ⟨fun hnil => fail_eof (heof.mpr (congrArg List.length hnil).symm), fun hhead => ?_⟩
      have hhead : (S.content.drop (line d 0 S.content).length).head? = some d := hhead
      rw [if_pos hhead] at hcount
      cases hcount
    · rintro ⟨hne, hhead⟩
      have hhead : (S.content.drop (line d 0 S.content).length).head? ≠ some d := hhead
      refine ⟨(if_neg hhead).symm, (if_neg hhead).symm, iff_of_false fail_eof fun hlen => ?_,
        iff_of_true fail_fail ⟨hhead, .inl rfl⟩⟩
      exact hne (List.length_eq_zero_iff.mp hlen.symm)
  · next hm =>
    split
    · next hw =>
      have hline := line_nil d m
      rw [Undisturbed, hw]
      refine iff_of_true ⟨?_, ?_, ?_, ?_⟩
        ⟨fun hand => hm hand.1.symm, fun hlen => absurd hlen.symm (by rwa [hline])⟩
      · rw [List.drop_nil]
        rfl
      · rw [List.drop_nil]
        rfl
      · exact iff_of_true both_eof (by rw [hline])
      · refine iff_of_true both_fail ⟨?_, .inl hline⟩
        rw [List.drop_nil]
        exact fun hhead => Option.some_ne_none d hhead.symm
    · next hw =>
      by_cases hfull : (line d m S.content).length = m
      · have hall : S.content.length = m ∧ d ∉ S.content ↔ S.content.length = m := by
          refine and_iff_left_of_imp fun hlen hmem => ?_
          have hlt := length_line_lt (m := m) (by rwa [List.take_of_length_le (Nat.le_of_eq hlen)])
          exact Nat.ne_of_lt hlt hfull
        rw [decide_eq_true hfull, endsRight_full hfull, left_behind_iff, hall]
      · have hkept : Undisturbed early m d S := fun hlen => absurd hlen hfull
        have hlt := Nat.lt_of_le_of_ne hle hfull
        rw [decide_eq_false hfull, left_behind_iff.mpr hkept]
        refine iff_of_true (endsRight_short hw hlt) ⟨fun hand => hfull ?_, hkept⟩
        rw [line_of_not_mem fun hmem => hand.2 (List.mem_of_mem_take hmem),
          List.length_take_of_le (Nat.le_of_eq hand.1.symm)]

end GetlineLemmas

section

variable {ι σ α : Type} [DecidableEq α] (b : Streambuf σ α) (throws : ι → Bool) (nul : α)
  (supply : σ → Supply α)

/-- `getline(s, n, d)` is right, where `n` is `m + 1`. -/
def ReadsLine (m : Nat) (d : α) (arr : Nat → α) (is : Istream ι σ) (s : σ) : Prop :=
  let w := (supply s).content
  let p := line d m w
  let rest := w.drop p.length
  ∃ is' s' threw,
    is.getline b throws nul (m + 1) d arr = some (is', copy_to arr 0 (p ++ [nul]), threw) ∧
    is'.m_sbuf = some s' ∧
    (supply s').content = (if rest.head? = some d then rest.tail else rest) ∧
    is'.m_gcount = p.length + (if rest.head? = some d then 1 else 0 : Int) ∧
    (is'.m_state &&& eofbit ≠ 0 ↔ p.length = w.length) ∧
    (is'.m_state &&& failbit ≠ 0 ↔
      rest.head? ≠ some d ∧ (p = [] ∨ p.length = m ∧ p.length ≠ w.length))

end

open GetlineLemmas LineInputLemmas IstreamLemmas

/-- `getline` is right unless the line ends where the array is full, there is no room, or
`underflow` disturbs an area that is not used up. -/
theorem getline_iff {ι σ α : Type} [DecidableEq α] {b : Streambuf σ α} {ok : σ → Prop}
    {supply : σ → Supply α} {early : Supply α → Supply α × Option α}
    (h : b.Overruns ok supply early) {throws : ι → Bool} {nul : α} {is : Istream ι σ} {s : σ}
    (hok : ok s) (hbuf : is.m_sbuf = some s) (hgood : is.good = true)
    (htie : is.m_tie.any throws = false) (m : Nat) (d : α) (arr : Nat → α) :
    ReadsLine b throws nul supply m d arr is s ↔
      EndsInside d m (supply s).content ∧ Undisturbed early m d (supply s) := by
  obtain ⟨s', -, hget, hcontent'⟩ := getline_eq (d := d) h hok hbuf hgood htie nul m arr
  have hne : (is.with_sbuf s').m_sbuf ≠ none := Option.some_ne_none s'
  have hstate : is.m_state = goodbit := of_decide_eq_true hgood
  rw [← endsRight_iff]
  generalize getline_end early d m (supply s) = r at hget hcontent' ⊢
  generalize his₁ : ({ is.with_sbuf s' with
    m_gcount := r.2.1 + ((line d m (supply s).content).length : Nat) } : Istream ι σ) = is₁ at hget
  have hbuf₁ : (is₁.report r.2.2).1.m_sbuf = some s' := by
    rw [(report_sbuf (his₁ ▸ hne) _).1, ← his₁]
    rfl
  have hcount₁ : (is₁.report r.2.2).1.m_gcount =
      r.2.1 + ((line d m (supply s).content).length : Nat) := by
    rw [(report_sbuf (his₁ ▸ hne) _).2, ← his₁]
  have hbits {bit : Iostate} (hbit : badbit &&& bit = 0) :
      (is₁.report r.2.2).1.m_state &&& bit = r.2.2 &&& bit := by
    have hstate₁ : is₁.m_state = goodbit := his₁ ▸ hstate
    rw [report_state (his₁ ▸ hne) _ hbit, hstate₁, good_or]
  generalize is₁.report r.2.2 = x at hget hbuf₁ hcount₁ hbits
  obtain ⟨is₂, threw₂⟩ := x
  constructor
  · rintro ⟨is', s₁, threw, hget', hbuf', hcontent, hcount, heof, hfail⟩
    rw [hget] at hget'
    cases hget'
    obtain rfl := Option.some.inj (hbuf₁.symm.trans hbuf')
    rw [hbits (by decide)] at heof hfail
    refine ⟨hcontent'.symm.trans hcontent, ?_, heof, hfail⟩
    rw [hcount₁, Int.add_comm] at hcount
    exact Int.add_left_cancel hcount
  · rintro ⟨hrest, hcount, heof, hfail⟩
    refine ⟨_, s', _, hget, hbuf₁, hcontent'.trans hrest, ?_, ?_, ?_⟩
    · rw [hcount₁, hcount, Int.add_comm]
    · rw [hbits (by decide)]
      exact heof
    · rw [hbits (by decide)]
      exact hfail

instance {α : Type} [DecidableEq α] (d : α) (m : Nat) (w : List α) : Decidable (EndsInside d m w) :=
  inferInstanceAs (Decidable
    (if m = 0 then w ≠ [] ∧ w.head? ≠ some d else ¬(w.length = m ∧ d ∉ w)))

/-- The array is full, and the line ends at the delimiter. -/
theorem getline_iff_example :
    let s := Pipe.new [] [.single 'a', .area 'b' ['c'], .area '\n' ['e']]
    ReadsLine Pipe.buf (fun _ => false) '\x00' Pipe.supply 3 '\n' (fun _ => ' ')
      (Pipe.stream s) s :=
  (getline_iff Pipe.buf_overruns (Pipe.ok_new (by decide) (by decide)) rfl rfl rfl 3 '\n'
    _).mpr (by decide)

/-- There are as many characters as there is room for. The end is not seen. -/
theorem not_getline :
    let s := Pipe.new [] [.area 'a' ['b']]
    ¬ReadsLine Pipe.buf (fun _ => false) '\x00' Pipe.supply 2 '\n' (fun _ => ' ') (Pipe.stream s)
      s := by
  rintro s ⟨is', s', threw, hrun, -, -, -, heof, -⟩
  have hstate : ((Pipe.stream s).getline Pipe.buf (fun _ => false) '\x00' ((2 : Nat) + 1) '\n'
      (fun _ => ' ')).map (fun r => r.1.m_state) = some failbit := by decide
  rw [hrun, Option.map_some, Option.some.injEq] at hstate
  rw [hstate] at heof
  exact fail_eof (heof.mpr (by decide))

end Kuhllib.Cxxrt
