import Kuhllib.Cxxrt.Istream

/-!
# Lines that are read by `get`

The delimiter is looked for in the get area, and `underflow` is called behind the block that is
copied, even if the area is not used up because the array is full. Where there is no area a single
character is read.

Results:
1. `line_add`, `inside_add`: a line is made of blocks.
2. `get_loop_eq`: what the loop stores and leaves behind.
3. `get_line_iff`: when `get` is right.
-/

namespace Kuhllib.Cxxrt

/-- `underflow` may be called although the get area is not used up. What it does then depends on
the buffer. -/
structure Streambuf.Overruns {σ α : Type} (b : Streambuf σ α) (ok : σ → Prop)
    (supply : σ → Supply α) (early : Supply α → Supply α × Option α) : Prop
    extends b.Source ok supply where
  overrun : ∀ s, ok s → (supply s).current ≠ [] → ∃ s',
    b.underflow s = some (s', (early (supply s)).2) ∧ ok s' ∧ supply s' = (early (supply s)).1

section

variable {α : Type}

/-- The first `k` characters, in front of `d`. -/
def line [DecidableEq α] (d : α) (k : Nat) (w : List α) : List α := (w.take k).takeWhile (· ≠ d)

/-- One character is read. An area that is used up is filled again, but not behind a character
that came without an area. -/
def read_on (S : Supply α) : Supply α := if S.current.isEmpty then S.bump else S.bump.peek

/-- If a block ends behind the first `k` characters, it ends within its area. -/
def Inside : Supply α → Nat → Prop
  | _, 0 => False
  | S, 1 => 1 < S.current.length
  | S, k + 2 => Inside (read_on S) (k + 1)

instance Inside.decidable : ∀ (S : Supply α) (k : Nat), Decidable (Inside S k)
  | _, 0 => inferInstanceAs (Decidable False)
  | S, 1 => inferInstanceAs (Decidable (1 < S.current.length))
  | S, k + 2 => Inside.decidable (read_on S) (k + 1)

/-- What is left if `j` of `k` characters are read. -/
def left_behind (early : Supply α → Supply α × Option α) (S : Supply α) (k j : Nat) : List α :=
  if j = k ∧ Inside S k then (early (S.drop k)).1.content else S.content.drop j

end

namespace LineInputLemmas

open IstreamLemmas SourcesLemmas

/-! ## 1. Blocks -/

section

variable {α : Type} {S : Supply α} {k m : Nat}

theorem read_on_of_nil (h : S.current = []) : read_on S = S.bump :=
  if_pos (List.isEmpty_iff.mpr h)

theorem read_on_of_ne (h : S.current ≠ []) : read_on S = S.bump.peek :=
  if_neg fun he => h (List.isEmpty_iff.mp he)

/-- A character that comes without an area. -/
theorem inside_single (h : S.current = []) (k : Nat) : Inside S (k + 1) ↔ Inside S.bump k := by
  cases k with
  | zero => simp [Inside, h]
  | succ k => rw [Inside, read_on_of_nil h]

/-- Characters of a block. -/
theorem inside_add (hm : 0 < m) (hle : m ≤ S.current.length) (k : Nat) :
    Inside S (m + k) ↔ if k = 0 then m < S.current.length else Inside (S.drop m).peek k := by
  induction m generalizing S with
  | zero => cases hm
  | succ m ih =>
    obtain ⟨current, next⟩ := S
    cases current with
    | nil => cases hle
    | cons c cs =>
      have hne : (Supply.mk (c :: cs) next).current ≠ [] := List.cons_ne_nil c cs
      cases m with
      | zero =>
        cases k with
        | zero => rfl
        | succ k =>
          rw [if_neg (Nat.succ_ne_zero k), Nat.zero_add, Nat.add_comm 1, Inside, read_on_of_ne hne]
          rfl
      | succ m =>
        have hcs : cs ≠ [] := fun hnil => by
          rw [hnil] at hle
          exact absurd hle (by simp)
        have hread : read_on (Supply.mk (c :: cs) next) = ⟨cs, next⟩ := by
          rw [read_on_of_ne hne]
          exact Supply.peek_of_ne hcs
        have hrec := ih (S := ⟨cs, next⟩) (Nat.succ_pos m) (Nat.le_of_succ_le_succ hle)
        rw [show m + 1 + 1 + k = (m + k) + 2 by omega, Inside, hread,
          show m + k + 1 = m + 1 + k by omega, hrec]
        simp only [List.length_cons, Nat.add_lt_add_iff_right]
        rfl

end

section

variable {α : Type} [DecidableEq α] {d c : α} {w : List α} {k m : Nat}

theorem line_nil (d : α) (k : Nat) : line d k [] = [] := by
  rw [line, List.take_nil]
  rfl

theorem line_cons_of_ne (h : c ≠ d) : line d (k + 1) (c :: w) = c :: line d k w :=
  List.takeWhile_cons_of_pos (by simpa)

theorem line_cons_self : line d k (d :: w) = [] := by
  cases k with
  | zero => rfl
  | succ k => exact List.takeWhile_cons_of_neg (by simp)

theorem ne_of_not_mem (h : d ∉ w.take m) : ∀ x ∈ w.take m, decide (x ≠ d) = true :=
  fun _ hx => decide_eq_true fun heq => h (heq ▸ hx)

/-- The delimiter is not in the block. -/
theorem line_add (h : d ∉ w.take m) (k : Nat) :
    line d (m + k) w = w.take m ++ line d k (w.drop m) := by
  unfold line
  rw [List.take_add, List.takeWhile_append_of_pos (ne_of_not_mem h)]

theorem length_line_lt (h : d ∈ w.take m) : (line d m w).length < m := by
  have hle : (line d m w).length ≤ (w.take m).length := (List.takeWhile_sublist _).length_le
  have hne : (line d m w).length ≠ (w.take m).length := fun hall => by
    have hself := List.IsPrefix.eq_of_length (List.takeWhile_prefix _) hall
    rw [List.takeWhile_eq_self_iff] at hself
    exact of_decide_eq_true (hself d h) rfl
  rw [List.length_take] at hle hne
  omega

/-- The delimiter is in the block. -/
theorem line_of_mem (h : d ∈ w.take m) (k : Nat) : line d (m + k) w = line d m w := by
  unfold line
  rw [List.take_add, List.takeWhile_append, if_neg]
  intro hall
  have hself := List.IsPrefix.eq_of_length (List.takeWhile_prefix _) hall
  rw [List.takeWhile_eq_self_iff] at hself
  exact of_decide_eq_true (hself d h) rfl

theorem line_of_not_mem (h : d ∉ w.take m) : line d m w = w.take m :=
  List.takeWhile_eq_self_iff.mpr (ne_of_not_mem h)

theorem length_line_le (d : α) (k : Nat) (w : List α) :
    (line d k w).length ≤ k ∧ (line d k w).length ≤ w.length := by
  have hle : (line d k w).length ≤ (w.take k).length := (List.takeWhile_sublist _).length_le
  rw [List.length_take] at hle
  omega

end

/-! ## 2. The loop -/

section

variable {σ α : Type} {b : Streambuf σ α} {ok : σ → Prop} {supply : σ → Supply α}
  {early : Supply α → Supply α × Option α} {s : σ} {k : Nat}

/-- A character that comes without an area. -/
theorem left_behind_single {S : Supply α} (hcur : S.current = []) (k j : Nat) :
    left_behind early S (k + 1) (j + 1) = left_behind early S.bump k j := by
  unfold left_behind
  simp only [Nat.add_right_cancel_iff, inside_single hcur, Supply.content_bump, List.drop_tail]
  rfl

/-- The block that is looked at. -/
theorem block_size (h : b.Overruns ok supply early) (hok : ok s) {n : Int} {str : Nat}
    (hn : n = ((str + k : Nat) : Int) + 1) :
    (if (b.areas s).gend - (b.areas s).gcur > n - 1 - str then n - 1 - str
      else (b.areas s).gend - (b.areas s).gcur) = (min k (supply s).current.length : Nat) := by
  rw [area_size h.toSource hok]
  split <;> omega

theorem update_copy_to (arr : Nat → α) (i : Nat) (cs : List α) (x : α) :
    Function.update (copy_to arr i cs) (i + cs.length) x = copy_to arr i (cs ++ [x]) := by
  induction cs generalizing arr i with
  | nil => rfl
  | cons c cs ih =>
    rw [List.length_cons, ← Nat.add_assoc, Nat.add_right_comm]
    exact ih _ _

theorem copy_to_append (arr : Nat → α) (i : Nat) (cs ds : List α) :
    copy_to arr i (cs ++ ds) = copy_to (copy_to arr i cs) (i + cs.length) ds := by
  induction cs generalizing arr i with
  | nil => rfl
  | cons c cs ih =>
    rw [List.length_cons, ← Nat.add_assoc, Nat.add_right_comm]
    exact ih _ _

end

section

variable {σ α : Type} [DecidableEq α] {b : Streambuf σ α} {ok : σ → Prop}
  {supply : σ → Supply α} {early : Supply α → Supply α × Option α} {s : σ} {d : α} {k : Nat}

theorem line_current {S : Supply α} (d : α) {m : Nat} (hm : m ≤ S.current.length) :
    line d m S.content = (S.current.take m).takeWhile (· ≠ d) := by
  rw [line, Supply.content, List.take_append_of_le_length hm]

/-- What is found in a block of the area. -/
theorem find_source (h : b.Overruns ok supply early) (hok : ok s) {m : Nat}
    (hm : m ≤ (supply s).current.length) :
    ∃ f, find b s d (b.areas s).gcur m = some f ∧
      f.getD m = (line d m (supply s).content).length ∧
      b.read_chars s (b.areas s).gcur (line d m (supply s).content).length =
        some (line d m (supply s).content) := by
  have hread := read_source h.toSource hok hm
  have hline := line_current d hm
  have hlen : ((supply s).current.take m).length = m := List.length_take_of_le hm
  refine ⟨_, find_eq hread, ?_, ?_⟩
  · rw [hline]
    split
    · rfl
    · next hmem =>
      rw [List.takeWhile_eq_self_iff.mpr (ne_of_not_mem hmem), hlen]
      rfl
  · have hpre := List.takeWhile_prefix (fun x => decide (x ≠ d)) (l := (supply s).current.take m)
    have hle := hpre.length_le
    rw [hline, read_chars_take hread (by rwa [hlen] at hle), ← List.prefix_iff_eq_take.mp hpre]

/-- Behind a block. -/
theorem underflow_block (h : b.Overruns ok supply early) (hok : ok s) {m : Nat} (hm : 0 < m)
    (hle : m ≤ (supply s).current.length) (hk : m ≤ k)
    (hfull : m < (supply s).current.length → m = k)
    (hmem : d ∉ (supply s).content.take m) : ∃ s₁ c,
      b.underflow (b.with_areas s { b.areas s with gcur := (b.areas s).gcur + m }) = some (s₁, c) ∧
        ok s₁ ∧ (m = k ∨ (supply s₁).content = (supply s).content.drop m) ∧
        line d k (supply s).content =
          (supply s).content.take m ++ line d (k - m) (supply s₁).content ∧
        left_behind early (supply s) k (line d k (supply s).content).length =
          left_behind early (supply s₁) (k - m) (line d (k - m) (supply s₁).content).length := by
  obtain ⟨j, rfl⟩ := Nat.exists_eq_add_of_le hk
  have htake : ((supply s).content.take m).length = m := by
    rw [List.length_take, Supply.content, List.length_append]
    omega
  rw [Nat.add_sub_cancel_left, line_add hmem]
  by_cases hlt : m < (supply s).current.length
  · -- the array is full, and the area is not used up
    obtain rfl : j = 0 := by
      have := hfull hlt
      omega
    have hne : ((supply s).drop m).current ≠ [] := Supply.current_within hlt
    obtain ⟨hok₁, hsupply₁⟩ := h.skip s m hok hle
    rw [Supply.skip_eq_drop hle] at hsupply₁
    obtain ⟨s₁, hs₁, hok₂, hsupply₂⟩ := h.overrun _ hok₁ (by rwa [hsupply₁])
    rw [hsupply₁] at hsupply₂
    refine ⟨s₁, _, hs₁, hok₂, .inl rfl, rfl, ?_⟩
    have hinside : Inside (supply s) (m + 0) := (inside_add hm hle 0).mpr (by rwa [if_pos rfl])
    rw [left_behind, left_behind, if_pos ⟨by simp [line, htake], hinside⟩,
      if_neg (fun hand => hand.2), hsupply₂]
    rfl
  · have hused : (supply s).current.length = m := Nat.le_antisymm (Nat.le_of_not_lt hlt) hle
    obtain ⟨s₁, hs₁, hok₂, hsupply₂, hcontent⟩ := underflow_used h.toSource hok
    rw [hused] at hs₁ hsupply₂ hcontent
    refine ⟨s₁, _, hs₁, hok₂, .inr hcontent, by rw [hcontent], ?_⟩
    rw [hcontent, List.length_append, htake]
    unfold left_behind
    rw [hcontent, List.drop_drop, hsupply₂]
    simp only [Nat.add_left_cancel_iff]
    cases j with
    | zero =>
      have hinside : ¬Inside (supply s) (m + 0) := fun hin =>
        hlt (by rwa [inside_add hm hle, if_pos rfl] at hin)
      rw [if_neg fun hand => hinside hand.2, if_neg fun hand => hand.2]
    | succ j =>
      have hinside : Inside (supply s) (m + (j + 1)) ↔ Inside ((supply s).drop m).peek (j + 1) := by
        rw [inside_add hm hle, if_neg (Nat.succ_ne_zero j)]
      simp only [hinside, Supply.drop_peek _ (Nat.succ_pos j), Supply.drop_add _ m (j + 1)]

/-- What is set when the loop of `get` ends. -/
def line_bits (str k j len : Nat) : Iostate :=
  if j = k then goodbit else if j = len then eofbit
  else if str + j = 0 then failbit else goodbit

/-- A round without an area. -/
theorem get_loop_single (h : b.Overruns ok supply early) (hok : ok s)
    (hcur : (supply s).current = []) {n : Int} {str : Nat}
    (hn : n = ((str + (k + 1) : Nat) : Int) + 1) : ∃ s₁ s₂, ok s₁ ∧
      supply s₁ = (supply s).fill ∧ ok s₂ ∧ supply s₂ = (supply s).bump ∧
      ∀ fuel arr, Istream.get_loop b n d (fuel + 1) s str arr =
        match (supply s).content.head? with
        | none => some (s₁, str, arr, eofbit)
        | some c =>
          if c = d then
            some (s₁, str, Function.update arr str c, if str = 0 then failbit else goodbit)
          else Istream.get_loop b n d fuel s₂ (str + 1) (Function.update arr str c) := by
  obtain ⟨s₁, hs₁, hok₁, hsupply₁⟩ := h.underflow s hok hcur
  obtain ⟨s₂, hs₂, hok₂, hsupply₂⟩ := sbumpc_source h.toSource hok₁
  rw [hsupply₁, Supply.bump_fill hcur] at hsupply₂
  refine ⟨s₁, s₂, hok₁, hsupply₁, hok₂, hsupply₂, fun fuel arr => ?_⟩
  have hsize := block_size h hok hn
  rw [Istream.get_loop, if_neg (by omega)]
  dsimp only
  rw [hsize, hcur, List.length_nil, Nat.min_zero, Nat.cast_zero, if_neg (Int.lt_irrefl 0),
    if_pos rfl, hs₁]
  cases (supply s).content.head? with
  | none => rfl
  | some c => simp only [Option.bind_eq_bind, Option.bind_some, hs₂]

/-- A round with a block, up to the first delimiter. -/
theorem get_loop_round (h : b.Overruns ok supply early) (hok : ok s) {n : Int} {str m : Nat}
    (hn : n = ((str + k : Nat) : Int) + 1) (hm : m = min k (supply s).current.length)
    (hpos : 0 < m) (fuel : Nat) (arr : Nat → α) :
    Istream.get_loop b n d (fuel + 1) s str arr =
      let q := line d m (supply s).content
      let s₁ := b.with_areas s { b.areas s with gcur := (b.areas s).gcur + (q.length : Nat) }
      if q.length < m then
        some (s₁, str + q.length, copy_to arr str q,
          if str + q.length = 0 then failbit else goodbit)
      else (b.underflow s₁).bind fun r =>
        Istream.get_loop b n d fuel r.1 (str + q.length) (copy_to arr str q) := by
  subst hm
  have hsize := block_size h hok hn
  obtain ⟨f, hf, hcount, hread⟩ := find_source (d := d) h hok (Nat.min_le_right k _)
  rw [Istream.get_loop, if_neg (by omega)]
  dsimp only
  rw [hsize, if_neg (Int.not_lt.mpr (Int.natCast_nonneg _)), if_neg (by omega),
    Int.toNat_natCast, hf]
  simp only [Option.bind_eq_bind, Option.bind_some, hcount, read_with h.toSource, hread,
    Int.ofNat_lt]

theorem line_bits_add (str len len' : Nat) {m j : Nat} (hk : m ≤ k) (hj : j ≤ k - m)
    (hlen : m = k ∨ m + len' = len) :
    line_bits (str + m) (k - m) j len' = line_bits str k (m + j) len := by
  rcases hlen with rfl | rfl
  · obtain rfl : j = 0 := by omega
    rw [line_bits, line_bits, if_pos (Nat.sub_self m).symm, if_pos (Nat.add_zero m)]
  · have hfull : j = k - m ↔ m + j = k := by omega
    unfold line_bits
    simp only [hfull, Nat.add_left_cancel_iff, Nat.add_assoc]

/-- The induction is on the rounds. What is in the array behind the characters is not settled
before the null character is stored. -/
theorem get_loop_eq (h : b.Overruns ok supply early) (hok : ok s) {n : Int} {fuel : Nat} (str : Nat)
    (hn : n = ((str + k : Nat) : Int) + 1) (hfuel : k < fuel) (arr : Nat → α) : ∃ s' arr',
      Istream.get_loop b n d fuel s str arr =
        some (s', str + (line d k (supply s).content).length, arr',
          line_bits str k (line d k (supply s).content).length (supply s).content.length) ∧
      ok s' ∧
      (∀ x, Function.update arr' (str + (line d k (supply s).content).length) x =
        copy_to arr str (line d k (supply s).content ++ [x])) ∧
      (supply s').content =
        left_behind early (supply s) k (line d k (supply s).content).length := by
  induction fuel generalizing s str k arr with
  | zero => cases hfuel
  | succ fuel ih =>
    cases k with
    | zero =>
      rw [Istream.get_loop, if_pos (by omega)]
      exact ⟨s, arr, rfl, hok, fun x => rfl, (if_neg fun hand => hand.2).symm⟩
    | succ k =>
      by_cases hcur : (supply s).current = []
      · obtain ⟨s₁, s₂, hok₁, hsupply₁, hok₂, hsupply₂, hround⟩ := get_loop_single h hok hcur hn
        have hcontent₁ : (supply s₁).content = (supply s).content := by
          rw [hsupply₁, Supply.content_fill hcur]
        rw [hround]
        cases hw : (supply s).content with
        | nil =>
          refine ⟨s₁, arr, rfl, hok₁, fun x => rfl, ?_⟩
          rw [hcontent₁, left_behind, if_neg fun hand => (Nat.succ_ne_zero k) hand.1.symm]
          rfl
        | cons c w =>
          by_cases hc : c = d
          · subst hc
            rw [line_cons_self, List.head?_cons]
            dsimp only
            rw [if_pos rfl]
            refine ⟨s₁, _, rfl, hok₁, fun x => Function.update_idem _ _ _, ?_⟩
            rw [hcontent₁, left_behind, if_neg fun hand => (Nat.succ_ne_zero k) hand.1.symm]
            rfl
          · have hcontent₂ : (supply s₂).content = w := by
              rw [hsupply₂, Supply.content_bump, hw]
              rfl
            obtain ⟨s', arr', hloop, hok', harr, hcontent'⟩ := ih (k := k) hok₂
              (str + 1) (by omega) (Nat.lt_of_succ_lt_succ hfuel) (Function.update arr str c)
            rw [hcontent₂] at hloop harr hcontent'
            have hlen := (length_line_le d k w).1
            refine ⟨s', arr', ?_, hok', fun x => ?_, ?_⟩
            · rw [List.head?_cons]
              dsimp only
              rw [if_neg hc, hloop, line_cons_of_ne hc, List.length_cons]
              have hbits := line_bits_add (k := k + 1) str (c :: w).length w.length
                (Nat.succ_le_succ (Nat.zero_le k)) hlen (.inr (Nat.add_comm 1 _))
              rw [Nat.add_sub_cancel] at hbits
              rw [hbits, Nat.add_right_comm, Nat.add_assoc str, Nat.add_comm 1]
            · rw [line_cons_of_ne hc, List.length_cons, ← Nat.add_assoc, Nat.add_right_comm]
              exact harr x
            · rw [hcontent', hsupply₂, line_cons_of_ne hc, List.length_cons,
                left_behind_single hcur]
      · obtain ⟨m, hm⟩ : ∃ m, m = min (k + 1) (supply s).current.length := ⟨_, rfl⟩
        have hsize : 0 < (supply s).current.length := List.length_pos_iff.mpr hcur
        have hround := get_loop_round (d := d) h hok hn hm (by omega) fuel arr
        have hall := Supply.length_current_le (supply s)
        by_cases hmem : d ∈ (supply s).content.take m
        · have hlt := length_line_lt hmem
          have hline : line d (k + 1) (supply s).content = line d m (supply s).content := by
            rw [← line_of_mem hmem (k + 1 - m), Nat.add_sub_cancel' (by omega)]
          obtain ⟨hok₁, hsupply₁⟩ := h.skip s (line d m (supply s).content).length hok (by omega)
          dsimp only at hround
          rw [if_pos hlt] at hround
          have hpart : (line d m (supply s).content).length ≠ k + 1 := by omega
          have hmore : (line d m (supply s).content).length ≠ (supply s).content.length := by omega
          rw [hround, hline]
          refine ⟨_, _, ?_, hok₁, fun x => update_copy_to _ _ _ _, ?_⟩
          · rw [line_bits, if_neg hpart, if_neg hmore]
          · rw [hsupply₁, Supply.content_skip (by omega), left_behind, if_neg (by omega)]
        · have hlen : ((supply s).content.take m).length = m :=
            List.length_take_of_le (by omega)
          obtain ⟨s₁, c, hs₁, hok₁, hrest, hline, hleft⟩ := underflow_block (k := k + 1) h hok
            (by omega) (by omega) (by omega) (by omega) hmem
          obtain ⟨s', arr', hloop, hok', harr, hcontent'⟩ := ih (k := k + 1 - m)
            hok₁ (str + m) (by omega) (by omega) (copy_to arr str ((supply s).content.take m))
          have hbits := line_bits_add (k := k + 1) (m := m) str
            (supply s).content.length (supply s₁).content.length (by omega)
            (length_line_le d _ (supply s₁).content).1 (hrest.imp_right fun hr => by
              rw [hr, List.length_drop]
              omega)
          dsimp only at hround
          rw [line_of_not_mem hmem, hlen, if_neg (Nat.lt_irrefl m), hs₁, Option.bind_some] at hround
          rw [hround, hloop, hleft, hline, List.length_append, hlen, ← Nat.add_assoc, hbits]
          refine ⟨s', arr', rfl, hok', fun x => ?_, hcontent'⟩
          rw [harr, List.append_assoc, copy_to_append _ _ ((supply s).content.take m), hlen]

/-- What `get` sets. -/
def get_bits (m j len : Nat) : Iostate :=
  if m = 0 then failbit else if len = 0 then failbit ||| eofbit else line_bits 0 m j len

theorem get_bits_eof {m j len : Nat} (hm : j ≤ m) (hlen : j ≤ len) :
    get_bits m j len &&& eofbit ≠ 0 ↔ j = len ∧ j < m := by
  unfold get_bits line_bits
  split
  · exact iff_of_false (by decide) (by omega)
  · split
    · exact iff_of_true (by decide) (by omega)
    · split
      · exact iff_of_false (by decide) (by omega)
      · split
        · exact iff_of_true (by decide) (by omega)
        · split <;> exact iff_of_false (by decide) (by omega)

theorem get_bits_fail {m j len : Nat} (hm : j ≤ m) (hlen : j ≤ len) :
    get_bits m j len &&& failbit ≠ 0 ↔ j = 0 := by
  unfold get_bits line_bits
  split
  · exact iff_of_true (by decide) (by omega)
  · split
    · exact iff_of_true (by decide) (by omega)
    · split
      · exact iff_of_false (by decide) (by omega)
      · split
        · exact iff_of_false (by decide) (by omega)
        · split
          · exact iff_of_true (by decide) (by omega)
          · exact iff_of_false (by decide) (by omega)

variable {ι : Type} {throws : ι → Bool} {is : Istream ι σ}

/-- All that `get` does. -/
theorem get_line_eq (h : b.Overruns ok supply early) (hok : ok s) (hbuf : is.m_sbuf = some s)
    (hgood : is.good = true) (htie : is.m_tie.any throws = false) (nul : α) (m : Nat)
    (arr : Nat → α) : ∃ s', ok s' ∧
      is.get_line b throws nul (m + 1) d arr =
        (let (is', threw) := { is.with_sbuf s' with
            m_gcount := ((line d m (supply s).content).length : Nat) }.report
          (get_bits m (line d m (supply s).content).length (supply s).content.length)
        some (is', copy_to arr 0 (line d m (supply s).content ++ [nul]), threw)) ∧
      (supply s').content =
        left_behind early (supply s).peek m (line d m (supply s).content).length := by
  have hsentry := sentry_good hgood htie
  unfold Istream.get_line
  rw [hsentry]
  simp only [Option.bind_eq_bind, Option.bind_some, Bool.false_eq_true, if_false, hgood, if_true,
    hbuf]
  cases m with
  | zero =>
    rw [if_pos (by rfl)]
    exact ⟨s, hok, rfl, ((if_neg fun hand => hand.2).trans (Supply.content_peek _)).symm⟩
  | succ m =>
    obtain ⟨s₁, hs₁, hok₁, hsupply₁⟩ := sgetc_source h.toSource hok
    rw [if_neg (by omega), hs₁]
    simp only [Option.bind_some]
    cases hw : (supply s).content with
    | nil =>
      refine ⟨s₁, hok₁, rfl, ?_⟩
      rw [hsupply₁, left_behind, if_neg fun hand => (Nat.succ_ne_zero m) hand.1.symm]
      rfl
    | cons c w =>
      obtain ⟨s', arr', hloop, hok', harr, hcontent'⟩ := get_loop_eq (d := d) (k := m + 1)
        (n := ((m + 1 : Nat) : Int) + 1) h hok₁ 0 (by omega)
        (Nat.lt_succ_self _) arr
      rw [hsupply₁, Supply.content_peek, hw] at hloop harr hcontent'
      refine ⟨s', hok', ?_, hcontent'⟩
      have hfuel : ((((m + 1 : Nat) : Int) + 1).toNat) = m + 1 + 1 := rfl
      rw [Nat.zero_add] at hloop harr
      rw [List.head?_cons, Option.isNone_some, if_neg Bool.false_ne_true, hfuel, hloop]
      simp only [Option.bind_some, harr]
      rfl

end

end LineInputLemmas

section

variable {ι σ α : Type} [DecidableEq α] (b : Streambuf σ α) (throws : ι → Bool) (nul : α)
  (supply : σ → Supply α)

/-- `get(s, n, d)` is right, where `n` is `m + 1`. -/
def GetsLine (m : Nat) (d : α) (arr : Nat → α) (is : Istream ι σ) (s : σ) : Prop :=
  let w := (supply s).content
  let p := line d m w
  ∃ is' s', is.get_line b throws nul (m + 1) d arr = some (is', copy_to arr 0 (p ++ [nul]), false) ∧
    is'.m_sbuf = some s' ∧ (supply s').content = w.drop p.length ∧ is'.m_gcount = p.length ∧
    (is'.m_state &&& eofbit ≠ 0 ↔ p.length = w.length ∧ p.length < m) ∧
    (is'.m_state &&& failbit ≠ 0 ↔ p = [])

end

/-- No character is lost if `underflow` is called behind the last block. -/
def Undisturbed {α : Type} [DecidableEq α] (early : Supply α → Supply α × Option α) (m : Nat)
    (d : α) (S : Supply α) : Prop :=
  (line d m S.content).length = m → Inside S.peek m →
    (early (S.peek.drop m)).1.content = S.content.drop m

namespace LineInputLemmas

theorem left_behind_iff {α : Type} [DecidableEq α] {early : Supply α → Supply α × Option α}
    {m : Nat} {d : α} {S : Supply α} :
    left_behind early S.peek m (line d m S.content).length =
      S.content.drop (line d m S.content).length ↔ Undisturbed early m d S := by
  unfold left_behind Undisturbed
  split
  · next hinside =>
    rw [hinside.1]
    exact ⟨fun heq _ _ => heq, fun h => h rfl hinside.2⟩
  · next hinside =>
    rw [Supply.content_peek]
    exact ⟨fun _ hlen hin => absurd ⟨hlen, hin⟩ hinside, fun _ => rfl⟩

end LineInputLemmas

open LineInputLemmas IstreamLemmas

/-- `get` is right unless `underflow` disturbs an area that is not used up. -/
theorem get_line_iff {ι σ α : Type} [DecidableEq α] {b : Streambuf σ α} {ok : σ → Prop}
    {supply : σ → Supply α} {early : Supply α → Supply α × Option α}
    (h : b.Overruns ok supply early) {throws : ι → Bool} {nul : α} {is : Istream ι σ} {s : σ}
    (hok : ok s) (hbuf : is.m_sbuf = some s) (hgood : is.good = true)
    (htie : is.m_tie.any throws = false) (hexc : is.m_exceptions = goodbit) (m : Nat) (d : α)
    (arr : Nat → α) :
    GetsLine b throws nul supply m d arr is s ↔ Undisturbed early m d (supply s) := by
  obtain ⟨s', -, hget, hcontent'⟩ := get_line_eq (d := d) h hok hbuf hgood htie nul m arr
  obtain ⟨hm, hlen⟩ := length_line_le d m (supply s).content
  have hne : ({ is.with_sbuf s' with
      m_gcount := ((line d m (supply s).content).length : Nat) } : Istream ι σ).m_sbuf ≠ none :=
    Option.some_ne_none s'
  obtain ⟨f, -, -, -, hreport⟩ := report_eq hne
    (get_bits m (line d m (supply s).content).length (supply s).content.length)
  have hstate : is.m_state = goodbit := of_decide_eq_true hgood
  rw [hreport hexc] at hget
  rw [← left_behind_iff, ← hcontent']
  constructor
  · rintro ⟨is₁, s₁, hget₁, hbuf₁, hcontent₁, -⟩
    rw [hget] at hget₁
    cases hget₁
    cases hbuf₁
    exact hcontent₁
  · intro hcontent
    refine ⟨_, s', hget, rfl, hcontent, rfl, ?_, ?_⟩
    · show (is.m_state ||| _) &&& eofbit ≠ 0 ↔ _
      rw [hstate, good_or]
      exact get_bits_eof hm hlen
    · show (is.m_state ||| _) &&& failbit ≠ 0 ↔ _
      rw [hstate, good_or, ← List.length_eq_zero_iff]
      exact get_bits_fail hm hlen

namespace Pipe

variable {α : Type}

/-- The next area takes the place of the one that is not used up. -/
def early (S : Supply α) : Supply α × Option α :=
  (S.fill, S.next.head?.bind fun chunk => chunk.elems.head?)

theorem buf_overruns : (buf (α := α)).Overruns Ok supply early where
  toSource := buf_source
  overrun s h _ := by
    show ∃ s', underflow s = some (s', (early s.supply).2) ∧ s'.Ok ∧ s'.supply = (early s.supply).1
    unfold underflow
    cases hchunks : s.chunks with
    | nil =>
      exact ⟨s, by simp [early, supply, hchunks], h, by simp [early, Supply.fill, supply, hchunks]⟩
    | cons chunk chunks =>
      cases chunk with
      | single c =>
        exact ⟨s, by simp [early, supply, hchunks, Chunk.elems], h,
          by simp [early, Supply.fill, supply, hchunks]⟩
      | area c cs =>
        refine ⟨s.place (c :: cs) chunks, by simp [early, supply, hchunks, Chunk.elems],
          place_ok h hchunks, ?_⟩
        rw [supply_place]
        simp [early, Supply.fill, supply, hchunks]

theorem whole_overruns : (buf (α := α)).Overruns Whole supply early where
  toSource := whole_source
  overrun s h hcur := by
    obtain ⟨s', hs', -, hsupply'⟩ := buf_overruns.overrun s h.1 hcur
    exact ⟨s', hs', whole_underflow h hs', hsupply'⟩

end Pipe

instance {α : Type} [DecidableEq α] (early : Supply α → Supply α × Option α) (m : Nat) (d : α)
    (S : Supply α) : Decidable (Undisturbed early m d S) :=
  inferInstanceAs (Decidable (_ → _ → _))

/-- The array is full at the end of an area. -/
theorem get_line_iff_example :
    let s := Pipe.new [] [.single 'a', .area 'b' ['c'], .area 'd' ['e']]
    GetsLine Pipe.buf (fun _ => false) '\x00' Pipe.supply 3 '\n' (fun _ => ' ') (Pipe.stream s) s :=
  (get_line_iff Pipe.buf_overruns (Pipe.ok_new (by decide) (by decide)) rfl rfl rfl rfl 3 '\n'
    _).mpr (by decide)

/-- The second character is lost. -/
theorem not_get_line :
    let s := Pipe.new [] [.area 'a' ['b'], .area 'c' ['d']]
    ¬GetsLine Pipe.buf (fun _ => false) '\x00' Pipe.supply 1 '\n' (fun _ => ' ') (Pipe.stream s)
      s := by
  rintro s ⟨is', s', hrun, hbuf', hcontent, -⟩
  have hleft : ((Pipe.stream s).get_line Pipe.buf (fun _ => false) '\x00' (1 + 1) '\n'
      (fun _ => ' ')).map (fun r => r.1.m_sbuf.map fun s => s.supply.content) =
        some (some ['c', 'd']) := by decide
  rw [show (1 + 1 : Int) = ((1 : Nat) : Int) + 1 from rfl, hrun, Option.map_some, hbuf',
    Option.map_some, hcontent] at hleft
  revert hleft
  decide

end Kuhllib.Cxxrt
