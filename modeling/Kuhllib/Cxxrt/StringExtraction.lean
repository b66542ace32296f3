import Kuhllib.Cxxrt.LineInput

/-!
# `operator>>` for strings

Which one of two loops runs is decided by the size of the first get area. The loop that takes
blocks calls `underflow` behind each block that has no space, also if as many characters are read
as were asked for. The loop for single characters puts the space back. The string can hold the
characters, up to `max_size()`; a longer one is not given, as `append` and `push_back` throw.

Results:
1. `extract_chars_eq`, `extract_blocks_eq`: what the loops do.
2. `extract_string_read`: what is left, and which bits are set.
3. `extract_string_same`: when it does not depend on how the characters are divided.
-/

namespace Kuhllib.Cxxrt

/-- A character can be put back behind `sbumpc`, or it cannot; `back` says which. -/
structure Streambuf.Backs {σ α : Type} [DecidableEq α] (b : Streambuf σ α) (ok : σ → Prop)
    (supply : σ → Supply α) (early : Supply α → Supply α × Option α) (back : Supply α → Bool) : Prop
    extends b.Overruns ok supply early where
  put_back : ∀ s s' c, ok s → (supply s).content.head? = some c →
    b.sbumpc s = some (s', some c) → ∃ s'' r, b.sputbackc s' c = some (s'', r) ∧ ok s'' ∧
      r.isSome = back (supply s) ∧ (supply s'').content =
        if back (supply s) then (supply s).content else (supply s).content.tail

section

variable {σ α : Type} (b : Streambuf σ α) (is_space : α → Bool)

/-- `_CS_find_space(beg, end, ct)`; how far behind `beg` it is. -/
def find_space (s : σ) (p : Int) : Nat → Option Nat
  | 0 => some 0
  | n + 1 => do
    let c ← b.load s p
    if is_space c then some 0
    else do
      let k ← find_space s (p + 1) n
      some (k + 1)

/-- The loop with blocks; the string, and what is passed to `setstate`. -/
def extract_blocks : Nat → Nat → σ → List α → Option (σ × List α × Iostate)
  | 0, _, _, _ => none
  | fuel + 1, n, s, str =>
    if n > 0 then
      let a := b.areas s
      if a.gend < a.gcur then none
      else do
        let count := if (a.gend - a.gcur).toNat > n then n else (a.gend - a.gcur).toNat
        let k ← find_space b is_space s a.gcur count
        let cs ← b.read_chars s a.gcur k
        let s := b.with_areas s { a with gcur := a.gcur + k }
        if k ≠ count then some (s, str ++ cs, goodbit)
        else do
          let (s, c) ← b.underflow s
          if c.isNone then some (s, str ++ cs, eofbit)
          else extract_blocks fuel (n - count) s (str ++ cs)
    else some (s, str, goodbit)

variable [DecidableEq α]

/-- The loop with single characters. -/
def extract_chars : Nat → σ → List α → Option (σ × List α × Iostate)
  | 0, s, str => some (s, str, goodbit)
  | n + 1, s, str => do
    let (s, c) ← b.sbumpc s
    match c with
    | none => some (s, str, eofbit)
    | some c =>
      if is_space c then do
        let (s, r) ← b.sputbackc s c
        some (s, str, if r.isNone then failbit else goodbit)
      else extract_chars n s (str ++ [c])

variable {ι : Type} (throws : ι → Bool)

/-- `setstate` unless there is nothing to set. -/
def Istream.mark (is : Istream ι σ) (state : Iostate) : Istream ι σ × Bool :=
  if state = goodbit then (is, false) else is.setstate state

/-- `operator>>(is, s)`; the stream, its width, the string, and whether it throws. The width is
converted to `size_t`, and `reserve` throws if it is too large. -/
def extract_string (max_size fuel : Nat) (is : Istream ι σ) (width : BitVec 64) (str : List α) :
    Option (Istream ι σ × BitVec 64 × List α × Bool) := do
  let (is, threw) ← is.sentry throws (some (b.skip_ws is_space fuel))
  if threw then some (is, width, str, true)
  else if is.good then do
    let s ← is.m_sbuf
    let n := if width = 0 then 2 ^ 64 - 1 else width.toNat
    if width ≠ 0 && max_size < n then some (is, 0, [], true)
    else do
      let a := b.areas s
      let (s, str, bits) ←
        if a.gend - a.gcur > 1 then extract_blocks b is_space fuel n s []
        else extract_chars b is_space n s []
      if max_size < str.length then none
      else
        let (is, threw) := (is.with_sbuf s).mark bits
        if threw then some (is, 0, str, true)
        else if str.isEmpty then
          let (is, threw) := is.setstate failbit
          some (is, 0, str, threw)
        else some (is, 0, str, false)
  else
    let (is, threw) := is.setstate failbit
    some (is, width, str, threw)

end

section

variable {α : Type}

/-- Up to `n` characters in front of a space. -/
def word (is_space : α → Bool) (n : Nat) (w : List α) : List α :=
  (w.take n).takeWhile fun c => !is_space c

/-- No character comes without an area where the loop with blocks goes on. -/
def Unbroken (n p : Nat) (S : Supply α) : Prop :=
  ∀ j, j < n → j ≤ p → (S.drop j).single_next = false

instance (n p : Nat) (S : Supply α) : Decidable (Unbroken n p S) :=
  inferInstanceAs (Decidable (∀ j, j < n → j ≤ p → (S.drop j).single_next = false))

end

namespace StringExtractionLemmas

open IstreamLemmas SourcesLemmas

section

variable {σ α : Type} {b : Streambuf σ α} {ok : σ → Prop} {supply : σ → Supply α}
  {early : Supply α → Supply α × Option α} {back : Supply α → Bool} {is_space : α → Bool} {s : σ}
  {n m : Nat} {w cs : List α} {S : Supply α}

/-! ## 1. The loops -/

theorem word_nil (n : Nat) : word is_space n [] = [] := by
  rw [word, List.take_nil]
  rfl

theorem word_space {c : α} (hc : is_space c = true) (n : Nat) (w : List α) :
    word is_space n (c :: w) = [] := by
  cases n with
  | zero => rfl
  | succ n => rw [word, List.take_succ_cons, List.takeWhile_cons_of_neg (by simp [hc])]

theorem word_cons {c : α} (hc : is_space c = false) (n : Nat) (w : List α) :
    word is_space (n + 1) (c :: w) = c :: word is_space n w := by
  rw [word, List.take_succ_cons, List.takeWhile_cons_of_pos (by simp [hc])]
  rfl

theorem length_word_le (is_space : α → Bool) (n : Nat) (w : List α) :
    (word is_space n w).length ≤ n ∧ (word is_space n w).length ≤ w.length := by
  have hle := (List.takeWhile_sublist (l := w.take n) fun c => !is_space c).length_le
  rw [List.length_take] at hle
  exact ⟨Nat.le_trans hle (Nat.min_le_left _ _), Nat.le_trans hle (Nat.min_le_right _ _)⟩

/-- A block without a space. -/
theorem word_block (h : ∀ c ∈ w.take m, is_space c = false) (n : Nat) :
    word is_space (m + n) w = w.take m ++ word is_space n (w.drop m) := by
  unfold word
  rw [List.take_add, List.takeWhile_append_of_pos fun c hc => by rw [h c hc]; rfl]

theorem find_space_eq {p : Int} (h : b.read_chars s p n = some cs) :
    find_space b is_space s p n = some (cs.takeWhile fun c => !is_space c).length := by
  induction n generalizing p cs with
  | zero =>
    cases h
    rfl
  | succ n ih =>
    rw [Streambuf.read_chars] at h
    obtain ⟨x, hx, hrest⟩ := Option.bind_eq_some_iff.mp h
    obtain ⟨ds, hds, heq⟩ := Option.bind_eq_some_iff.mp hrest
    cases heq
    rw [find_space, hx]
    simp only [Option.bind_eq_bind, Option.bind_some]
    cases hc : is_space x with
    | true =>
      rw [if_pos rfl, List.takeWhile_cons_of_neg (by simp [hc])]
      rfl
    | false =>
      rw [if_neg Bool.false_ne_true, ih hds, List.takeWhile_cons_of_pos (by simp [hc])]
      rfl

/-- What the loop with single characters leaves, and what is set. -/
def chars_end (is_space : α → Bool) (back : Supply α → Bool) (n : Nat) (S : Supply α) :
    List α × Iostate :=
  let p := (word is_space n S.content).length
  if p = n then (S.content.drop n, goodbit)
  else if p = S.content.length then ([], eofbit)
  else if back (S.drop p) then (S.content.drop p, goodbit)
  else (S.content.drop (p + 1), failbit)

theorem chars_end_cons {c : α} (hc : is_space c = false) (hw : S.content = c :: w) (n : Nat) :
    chars_end is_space back (n + 1) S = chars_end is_space back n S.bump := by
  have hbump : S.bump.content = w := by
    rw [Supply.content_bump, hw]
    rfl
  have hdrop (k : Nat) : S.drop (k + 1) = S.bump.drop k := rfl
  unfold chars_end
  rw [hw, word_cons hc, hbump]
  simp only [List.length_cons, Nat.add_right_cancel_iff, List.drop_succ_cons, hdrop]

theorem extract_chars_eq [DecidableEq α] (h : b.Backs ok supply early back) (hok : ok s) (n : Nat)
    (str : List α) : ∃ s', ok s' ∧
      extract_chars b is_space n s str = some (s', str ++ word is_space n (supply s).content,
        (chars_end is_space back n (supply s)).2) ∧
      (supply s').content = (chars_end is_space back n (supply s)).1 := by
  induction n generalizing s str with
  | zero => exact ⟨s, hok, by rw [extract_chars, word]; simp [chars_end, word], rfl⟩
  | succ n ih =>
    obtain ⟨s₁, hs₁, hok₁, hsupply₁⟩ := sbumpc_source h.toSource hok
    have hcontent₁ : (supply s₁).content = (supply s).content.tail := by
      rw [hsupply₁, Supply.content_bump]
    rw [extract_chars, hs₁]
    simp only [Option.bind_eq_bind, Option.bind_some]
    cases hw : (supply s).content with
    | nil =>
      have hend : chars_end is_space back (n + 1) (supply s) = ([], eofbit) := by
        rw [chars_end, hw, word_nil]
        rfl
      rw [hend, word_nil, List.append_nil]
      exact ⟨s₁, hok₁, rfl, by rw [hcontent₁, hw]; rfl⟩
    | cons c w =>
      rw [hw] at hs₁
      rw [hw] at hcontent₁
      simp only [List.head?_cons]
      cases hc : is_space c with
      | true =>
        obtain ⟨s₂, r, hs₂, hok₂, hr, hcontent₂⟩ := h.put_back s s₁ c hok (by rw [hw]; rfl) hs₁
        rw [hw] at hcontent₂
        have hend : chars_end is_space back (n + 1) (supply s) =
            if back (supply s) then (c :: w, goodbit) else (w, failbit) := by
          rw [chars_end, hw, word_space hc]
          rfl
        rw [if_pos rfl, hs₂, hend, word_space hc, List.append_nil]
        refine ⟨s₂, hok₂, ?_, ?_⟩
        · cases hback : back (supply s) with
          | true =>
            rw [hback] at hr
            rw [Option.bind_some, Option.isNone_eq_false_iff.mpr hr]
            rfl
          | false =>
            rw [hback] at hr
            rw [Option.bind_some, Option.isSome_eq_false_iff.mp hr]
            rfl
        · rw [hcontent₂]
          cases back (supply s) <;> rfl
      | false =>
        obtain ⟨s', hok', hloop, hcontent'⟩ := ih hok₁ (str ++ [c])
        rw [hcontent₁, hsupply₁] at hloop
        rw [hsupply₁] at hcontent'
        rw [if_neg Bool.false_ne_true, hloop, chars_end_cons hc hw, word_cons hc, List.append_assoc]
        exact ⟨s', hok', rfl, hcontent'⟩

/-! The loop with blocks -/

/-- What the loop with blocks leaves, and what is set. -/
def blocks_end (is_space : α → Bool) (early : Supply α → Supply α × Option α) (n : Nat)
    (S : Supply α) : List α × Iostate :=
  let p := (word is_space n S.content).length
  if p = n then
    if (S.drop n).current = [] then
      (S.content.drop n, if S.content.length = n then eofbit else goodbit)
    else ((early (S.drop n)).1.content, if (early (S.drop n)).2.isNone then eofbit else goodbit)
  else if p = S.content.length then ([], eofbit)
  else (S.content.drop p, goodbit)

/-- A round with a block. -/
theorem extract_blocks_round (is_space : α → Bool) (h : b.Source ok supply) (hok : ok s)
    (hn : 0 < n) (hm : m = min n (supply s).current.length) (fuel : Nat) (str : List α) :
    extract_blocks b is_space (fuel + 1) n s str =
      let p := word is_space m (supply s).content
      let s' := b.with_areas s { b.areas s with gcur := (b.areas s).gcur + (p.length : Nat) }
      if p.length ≠ m then some (s', str ++ p, goodbit)
      else (b.underflow s').bind fun r =>
        if r.2.isNone then some (r.1, str ++ p, eofbit)
        else extract_blocks b is_space fuel (n - m) r.1 (str ++ p) := by
  have hle : m ≤ (supply s).current.length := by omega
  have hsize := area_size h hok
  have hcount : (if ((b.areas s).gend - (b.areas s).gcur).toNat > n then n
      else ((b.areas s).gend - (b.areas s).gcur).toNat) = m := by
    split <;> omega
  have hword : word is_space m (supply s).content =
      ((supply s).current.take m).takeWhile fun c => !is_space c := by
    rw [word, Supply.take_content hle]
  have hpart := (length_word_le is_space m (supply s).content).1
  have hread := read_source h hok (Nat.le_trans hpart hle)
  have hprefix : (supply s).current.take (word is_space m (supply s).content).length =
      word is_space m (supply s).content := by
    have hpre : word is_space m (supply s).content <+: (supply s).current := by
      rw [hword]
      exact (List.takeWhile_prefix _).trans (List.take_prefix _ _)
    exact (List.prefix_iff_eq_take.mp hpre).symm
  rw [extract_blocks, if_pos hn]
  dsimp only
  rw [if_neg (by omega), hcount, find_space_eq (read_source h hok hle), ← hword]
  simp only [Option.bind_eq_bind, Option.bind_some, hread, hprefix]

theorem extract_blocks_none {fuel : Nat} (hfuel : 0 < fuel) (s : σ) (str : List α) :
    extract_blocks b is_space fuel 0 s str = some (s, str, goodbit) := by
  obtain ⟨fuel, rfl⟩ := Nat.exists_eq_succ_of_ne_zero (Nat.ne_of_gt hfuel)
  rfl

/-- An area without characters is not used up. -/
theorem extract_blocks_stuck (h : b.Source ok supply) (hok : ok s) (hn : 0 < n)
    (hsingle : (supply s).single_next = true) (fuel : Nat) (str : List α) :
    extract_blocks b is_space fuel n s str = none := by
  induction fuel generalizing s str with
  | zero => rfl
  | succ fuel ih =>
    have hcur : (supply s).current = [] := by
      by_contra hne
      rw [Supply.single_next_of_ne hne] at hsingle
      cases hsingle
    rcases Supply.cases_next hcur with hs | ⟨c, cs, next, hs⟩ | ⟨c, next, hs⟩
    · rw [hs] at hsingle
      cases hsingle
    · rw [hs] at hsingle
      cases hsingle
    · obtain ⟨hok₁, hsupply₁⟩ := h.skip s 0 hok (Nat.zero_le _)
      have hsupply₁ := hsupply₁.trans (Supply.skip_eq_drop (Nat.zero_le _))
      obtain ⟨s₂, hs₂, hok₂, hsupply₂⟩ := h.underflow _ hok₁ (by rw [hsupply₁, hs]; rfl)
      have hround := extract_blocks_round is_space h hok hn
        (by rw [hcur, List.length_nil, Nat.min_zero]) fuel str
      dsimp only at hround
      have hword : word is_space 0 (supply s).content = [] := rfl
      rw [hword, List.length_nil, if_neg (not_not.mpr rfl), hs₂, hsupply₁, hs] at hround
      rw [hround]
      exact ih hok₂ (by rw [hsupply₂, hsupply₁, hs]; rfl) _

/-- There is a space in the block. -/
theorem word_of_short (hm : m ≤ w.length) (hshort : (word is_space m w).length ≠ m) (k : Nat) :
    word is_space (m + k) w = word is_space m w := by
  induction w generalizing m with
  | nil =>
    rw [word_nil, word_nil]
  | cons c w ih =>
    cases m with
    | zero => exact absurd rfl hshort
    | succ m =>
      cases hc : is_space c with
      | true => rw [word_space hc, word_space hc]
      | false =>
        rw [word_cons hc] at hshort
        rw [Nat.add_right_comm, word_cons hc, word_cons hc,
          ih (Nat.le_of_succ_le_succ hm) fun hlen => hshort (congrArg (· + 1) hlen)]

/-- There is no space in the block. -/
theorem word_of_full (hfull : (word is_space m w).length = m) (k : Nat) :
    word is_space (m + k) w = w.take m ++ word is_space k (w.drop m) := by
  refine word_block (fun c hc => ?_) k
  have hle : m ≤ w.length := hfull ▸ (length_word_le is_space m w).2
  have hall : (w.take m).takeWhile (fun c => !is_space c) = w.take m := by
    refine (List.takeWhile_prefix _).eq_of_length ?_
    rw [List.length_take_of_le hle]
    exact hfull
  simpa using List.takeWhile_eq_self_iff.mp hall c hc

/-- Within an area there is an area. -/
theorem unbroken_block {j : Nat} (hj : j < S.current.length) : (S.drop j).single_next = false :=
  Supply.single_next_of_ne (Supply.current_within hj)

theorem unbroken_area {p : Nat} (h : n ≤ S.current.length ∨ p < S.current.length) :
    Unbroken n p S := by
  refine fun j hj hle => unbroken_block ?_
  omega

theorem drop_behind (S : Supply α) (m : Nat) {k : Nat} (hk : 0 < k) :
    (S.drop m).peek.drop k = S.drop (m + k) := by
  rw [Supply.drop_peek _ hk, Supply.drop_add]

theorem unbroken_behind {p : Nat} (hn : S.current.length ≤ n) :
    Unbroken n (S.current.length + p) S ↔
      Unbroken (n - S.current.length) p (S.drop S.current.length).peek := by
  have hsame (j : Nat) : ((S.drop S.current.length).peek.drop j).single_next =
      (S.drop (S.current.length + j)).single_next := by
    rcases Nat.eq_zero_or_pos j with rfl | hpos
    · exact Supply.single_next_peek _
    · rw [drop_behind S _ hpos]
  constructor
  · intro h j hj hle
    rw [hsame]
    exact h _ (by omega) (by omega)
  · intro h j hj hle
    rcases Nat.lt_or_ge j S.current.length with hlt | hge
    · exact unbroken_block hlt
    · obtain ⟨i, rfl⟩ := Nat.exists_eq_add_of_le hge
      rw [← hsame]
      exact h i (by omega) (by omega)

theorem blocks_end_behind (hfull : (word is_space m S.content).length = m) (hlt : m < n) :
    blocks_end is_space early n S = blocks_end is_space early (n - m) (S.drop m).peek := by
  obtain ⟨k, rfl⟩ := Nat.exists_eq_add_of_le (Nat.le_of_lt hlt)
  have hle : m ≤ S.content.length := hfull ▸ (length_word_le is_space m S.content).2
  have hcontent : (S.drop m).peek.content = S.content.drop m := by
    rw [Supply.content_peek, Supply.content_drop]
  have hlen : (S.content.take m).length = m := List.length_take_of_le hle
  have hall : m + (word is_space k (S.content.drop m)).length = S.content.length ↔
      (word is_space k (S.content.drop m)).length = (S.content.drop m).length := by
    rw [List.length_drop]
    omega
  have hend : S.content.length = m + k ↔ (S.content.drop m).length = k := by
    rw [List.length_drop]
    omega
  unfold blocks_end
  rw [Nat.add_sub_cancel_left, hcontent, word_of_full hfull, drop_behind S m (by omega)]
  simp only [List.length_append, hlen, Nat.add_left_cancel_iff, hall, hend, List.drop_drop]

/-- The area is the last one. -/
theorem unbroken_end (h : S.content.drop S.current.length = []) :
    Unbroken n S.current.length S := by
  intro j _ hj
  rcases Nat.lt_or_eq_of_le hj with hlt | rfl
  · exact unbroken_block hlt
  · exact Supply.single_next_of_end (by rw [Supply.content_drop, h])

/-- What comes of the loop with blocks if it ends. -/
def BlocksRead (b : Streambuf σ α) (ok : σ → Prop) (supply : σ → Supply α)
    (early : Supply α → Supply α × Option α) (is_space : α → Bool) (fuel n : Nat) (s : σ)
    (str : List α) : Prop :=
  ∃ s', ok s' ∧
    extract_blocks b is_space fuel n s str =
      some (s', str ++ word is_space n (supply s).content,
        (blocks_end is_space early n (supply s)).2) ∧
    (supply s').content = (blocks_end is_space early n (supply s)).1

/-- There is a space in the area. -/
theorem blocks_read_space (h : b.Source ok supply) (hok : ok s) (hn : 0 < n)
    (hm : m = min n (supply s).current.length)
    (hshort : (word is_space m (supply s).content).length ≠ m) (fuel : Nat) (str : List α) :
    Unbroken n (word is_space n (supply s).content).length (supply s) ∧
      BlocksRead b ok supply early is_space (fuel + 1) n s str := by
  have hround := extract_blocks_round is_space h hok hn hm fuel str
  have hpart := length_word_le is_space m (supply s).content
  have hall := Supply.length_current_le (supply s)
  have hword : word is_space n (supply s).content = word is_space m (supply s).content := by
    have hword := word_of_short (w := (supply s).content) (m := m) (by omega) hshort (n - m)
    rwa [Nat.add_sub_cancel' (by omega)] at hword
  have hend : blocks_end is_space early n (supply s) =
      ((supply s).content.drop (word is_space m (supply s).content).length, goodbit) := by
    rw [blocks_end, hword, if_neg (by omega), if_neg (by omega)]
  obtain ⟨hok₁, hsupply₁⟩ := h.skip s (word is_space m (supply s).content).length hok (by omega)
  dsimp only at hround
  rw [if_pos hshort] at hround
  unfold BlocksRead
  rw [hword, hround, hend]
  refine ⟨unbroken_area (.inr (by omega)), _, hok₁, rfl, ?_⟩
  rw [hsupply₁, Supply.content_skip (by omega)]

/-- As many characters are read as were asked for, and the area is not used up. -/
theorem blocks_read_within (h : b.Overruns ok supply early) (hok : ok s) (hn : 0 < n)
    (hlt : n < (supply s).current.length)
    (hfull : (word is_space n (supply s).content).length = n) {fuel : Nat} (hfuel : 0 < fuel)
    (str : List α) : BlocksRead b ok supply early is_space (fuel + 1) n s str := by
  have hround := extract_blocks_round is_space h.toSource hok hn
    (Nat.min_eq_left (Nat.le_of_lt hlt)).symm fuel str
  have hbehind := Supply.current_within hlt
  obtain ⟨hok₁, hsupply₁⟩ := h.skip s n hok (Nat.le_of_lt hlt)
  rw [Supply.skip_eq_drop (Nat.le_of_lt hlt)] at hsupply₁
  obtain ⟨s₂, hs₂, hok₂, hsupply₂⟩ := h.overrun _ hok₁ (by rwa [hsupply₁])
  rw [hsupply₁] at hs₂ hsupply₂
  have hend : blocks_end is_space early n (supply s) = ((early ((supply s).drop n)).1.content,
      if (early ((supply s).drop n)).2.isNone then eofbit else goodbit) := by
    rw [blocks_end, if_pos hfull, if_neg hbehind]
  dsimp only at hround
  rw [hfull, if_neg (not_not.mpr rfl), hs₂, Option.bind_some, Nat.sub_self] at hround
  unfold BlocksRead
  rw [hround, hend]
  refine ⟨s₂, hok₂, ?_, by rw [hsupply₂]⟩
  cases (early ((supply s).drop n)).2 with
  | none => rfl
  | some c => exact extract_blocks_none hfuel s₂ _

/-- A round that uses the area up. -/
theorem extract_blocks_used (h : b.Source ok supply) (hok : ok s) (hn : 0 < n)
    (hle : (supply s).current.length ≤ n)
    (hfull : (word is_space (supply s).current.length (supply s).content).length =
      (supply s).current.length) (fuel : Nat) (str : List α) : ∃ s₂, ok s₂ ∧
      supply s₂ = ((supply s).drop (supply s).current.length).peek ∧
      (supply s₂).content = (supply s).content.drop (supply s).current.length ∧
      extract_blocks b is_space (fuel + 1) n s str =
        let str := str ++ (supply s).content.take (supply s).current.length
        if (supply s).content.drop (supply s).current.length = [] then some (s₂, str, eofbit)
        else extract_blocks b is_space fuel (n - (supply s).current.length) s₂ str := by
  have hround := extract_blocks_round is_space h hok hn (Nat.min_eq_right hle).symm fuel str
  have htake : word is_space (supply s).current.length (supply s).content =
      (supply s).content.take (supply s).current.length :=
    (word_of_full hfull 0).trans (List.append_nil _)
  obtain ⟨s₂, hs₂, hok₂, hsupply₂, hcontent₂⟩ := underflow_used h hok
  refine ⟨s₂, hok₂, hsupply₂, hcontent₂, ?_⟩
  dsimp only at hround
  rw [hround, hfull, if_neg (not_not.mpr rfl), hs₂, Option.bind_some, htake]
  simp only [Option.isNone_iff_eq_none, List.head?_eq_none_iff]

/-- The area is used up, and nothing is behind it. -/
theorem blocks_end_last (hfull : (word is_space S.current.length S.content).length =
    S.current.length) (hle : S.current.length ≤ n) (hrest : S.content.drop S.current.length = []) :
    word is_space n S.content = S.content.take S.current.length ∧
      blocks_end is_space early n S = ([], eofbit) := by
  obtain ⟨k, rfl⟩ := Nat.exists_eq_add_of_le hle
  have hlast := List.drop_eq_nil_iff.mp hrest
  have hall : S.current.length ≤ S.content.length :=
    hfull ▸ (length_word_le is_space S.current.length S.content).2
  have hlen : (S.content.take S.current.length).length = S.current.length :=
    List.length_take_of_le hall
  have hword : word is_space (S.current.length + k) S.content =
      S.content.take S.current.length := by
    rw [word_of_full hfull, hrest, word_nil, List.append_nil]
  refine ⟨hword, ?_⟩
  rw [blocks_end, hword, hlen]
  split
  · next hfew =>
    rw [← hfew, if_pos (Supply.current_used S), hrest, if_pos (by omega)]
  · rw [if_pos (by omega)]

/-- The induction is on the rounds. -/
theorem extract_blocks_eq (h : b.Overruns ok supply early) (hok : ok s) (hn : 0 < n)
    (hcur : (supply s).current ≠ []) (fuel : Nat) (str : List α) :
    (Unbroken n (word is_space n (supply s).content).length (supply s) →
      (supply s).content.length < fuel → BlocksRead b ok supply early is_space fuel n s str) ∧
    (¬Unbroken n (word is_space n (supply s).content).length (supply s) →
      extract_blocks b is_space fuel n s str = none) := by
  induction fuel generalizing s n str with
  | zero => exact ⟨fun _ hfuel => absurd hfuel (Nat.not_lt_zero _), fun _ => rfl⟩
  | succ fuel ih =>
    obtain ⟨m, hm⟩ : ∃ m, m = min n (supply s).current.length := ⟨_, rfl⟩
    by_cases hfull : (word is_space m (supply s).content).length = m
    · rcases Nat.lt_or_ge n (supply s).current.length with hlt | hle
      · obtain rfl : n = m := by omega
        refine ⟨fun _ hfuel => blocks_read_within h hok hn hlt hfull ?_ str,
          fun hbroken => absurd (unbroken_area (.inl (Nat.le_of_lt hlt))) hbroken⟩
        rw [Supply.content, List.length_append] at hfuel
        omega
      · obtain rfl : m = (supply s).current.length := by omega
        have hsize : 0 < (supply s).current.length := List.length_pos_iff.mpr hcur
        obtain ⟨s₂, hok₂, hsupply₂, hcontent₂, hround⟩ :=
          extract_blocks_used h.toSource hok hn hle hfull fuel str
        dsimp only at hround
        have hall : (supply s).current.length ≤ (supply s).content.length :=
          hfull ▸ (length_word_le is_space (supply s).current.length (supply s).content).2
        have hlen : ((supply s).content.take (supply s).current.length).length =
            (supply s).current.length := List.length_take_of_le hall
        by_cases hrest : (supply s).content.drop (supply s).current.length = []
        · -- there is no other area
          obtain ⟨hword, hend⟩ := blocks_end_last hfull hle hrest
          rw [if_pos hrest] at hround
          unfold BlocksRead
          rw [hround, hword, hend, hlen]
          exact ⟨fun _ _ => ⟨s₂, hok₂, rfl, hcontent₂.trans hrest⟩,
            fun hbroken => absurd (unbroken_end hrest) hbroken⟩
        · rw [if_neg hrest] at hround
          obtain ⟨k, hk⟩ : ∃ k, n = (supply s).current.length + k := Nat.exists_eq_add_of_le hle
          have hfew : n - (supply s).current.length = k := by omega
          rw [hfew] at hround
          rcases Nat.eq_zero_or_pos k with rfl | hpos
          · -- as many characters are read as were asked for
            have hmore : (supply s).content.length ≠ n := fun hlen =>
              hrest (List.drop_of_length_le (by omega))
            have hend : blocks_end is_space early n (supply s) =
                ((supply s).content.drop n, goodbit) := by
              have hused : ((supply s).drop n).current = [] := hk ▸ Supply.current_used (supply s)
              rw [blocks_end, if_pos (hk ▸ hfull), if_pos hused, if_neg hmore]
            refine ⟨fun _ hfuel => ⟨s₂, hok₂, ?_, ?_⟩,
              fun hbroken => absurd (unbroken_area (.inl (by omega))) hbroken⟩
            · rw [hround, extract_blocks_none (by omega), hend]
              have hword := word_of_full hfull 0
              rw [hk, hword]
              exact congrArg (fun w => some (s₂, str ++ w, goodbit)) (List.append_nil _).symm
            · rw [hcontent₂, hend, hk]
              rfl
          · have hword : word is_space n (supply s).content =
                (supply s).content.take (supply s).current.length ++
                  word is_space k ((supply s).content.drop (supply s).current.length) := by
              rw [hk, word_of_full hfull]
            have hsplit : (word is_space n (supply s).content).length =
                (supply s).current.length +
                  (word is_space k ((supply s).content.drop (supply s).current.length)).length := by
              rw [hword, List.length_append, hlen]
            by_cases hsingle : (supply s₂).current = []
            · -- the next character comes without an area
              have hnext : ((supply s).drop (supply s).current.length).single_next = true := by
                refine Supply.single_next_of_used (Supply.current_used _) ?_ (hsupply₂ ▸ hsingle)
                rwa [Supply.content_drop]
              have hbroken : ¬Unbroken n (word is_space n (supply s).content).length (supply s) :=
                fun h => Bool.false_ne_true ((h (supply s).current.length (by omega)
                  (by omega)).symm.trans hnext)
              refine ⟨fun h => absurd h hbroken, fun _ => ?_⟩
              rw [hround]
              refine extract_blocks_stuck h.toSource hok₂ hpos ?_ fuel _
              rw [hsupply₂, Supply.single_next_peek, hnext]
            · have hrec := ih hok₂ hpos hsingle
                (str ++ (supply s).content.take (supply s).current.length)
              unfold BlocksRead at hrec ⊢
              rw [hcontent₂, hsupply₂] at hrec
              rw [hround, hsplit, unbroken_behind hle, blocks_end_behind hfull (by omega), hfew,
                hword, ← List.append_assoc]
              refine ⟨fun hunbroken hfuel => hrec.1 hunbroken ?_, hrec.2⟩
              rw [List.length_drop]
              omega
    · -- there is a space
      obtain ⟨hunbroken, hread⟩ := blocks_read_space h.toSource hok hn hm hfull fuel str
      exact ⟨fun _ _ => hread, fun hbroken => absurd hunbroken hbroken⟩

/-! ## 2. The stream -/

end

section

variable {ι σ α : Type} {is : Istream ι σ} {s : σ} {supply : σ → Supply α}

theorem mark_eq (hstate : is.m_state = goodbit) (hbuf : is.m_sbuf = some s) (bits : Iostate) : ∃ f,
    is.mark bits = ({ is with fmtflags := f, m_state := bits },
      decide (bits &&& is.m_exceptions ≠ 0)) := by
  unfold Istream.mark
  split
  · next hbits =>
    subst hbits
    refine ⟨is.fmtflags, ?_⟩
    rw [← hstate, decide_eq_false (by rw [hstate]; exact not_not.mpr BitVec.zero_and)]
  · obtain ⟨f, hset⟩ := setstate_eq (hbuf ▸ Option.some_ne_none s) bits
    refine ⟨f, ?_⟩
    rw [hset, hstate, good_or]

/-- The state behind a call, and whether it throws. -/
def marked (exceptions bits : Iostate) (empty : Bool) : Iostate × Bool :=
  if bits &&& exceptions ≠ 0 then (bits, true)
  else if empty then (bits ||| failbit, (bits ||| failbit) &&& exceptions ≠ 0)
  else (bits, false)

/-- The state behind a call whose sentry has found the end, and whether it throws. -/
def unmarked (exceptions : Iostate) : Iostate × Bool :=
  let state := eofbit ||| failbit
  if state &&& exceptions ≠ 0 then
    if exceptions &&& badbit ≠ 0 then (state ||| badbit, true)
    else (state ||| badbit ||| failbit, (state ||| badbit ||| failbit) &&& exceptions ≠ 0)
  else (state ||| failbit, (state ||| failbit) &&& exceptions ≠ 0)

end

section

variable {σ α : Type} [DecidableEq α] {b : Streambuf σ α} {ok : σ → Prop} {supply : σ → Supply α}
  {early : Supply α → Supply α × Option α} {back : Supply α → Bool} {is_space : α → Bool} {s : σ}
  {n m : Nat} {w cs : List α} {S : Supply α}

/-- What is left, and what is set. -/
def string_end (is_space : α → Bool) (early : Supply α → Supply α × Option α)
    (back : Supply α → Bool) (n : Nat) (S : Supply α) : List α × Iostate :=
  if 1 < S.current.length then blocks_end is_space early n S else chars_end is_space back n S

end

end StringExtractionLemmas

section

variable {ι σ α : Type} (supply : σ → Supply α)

/-- What can be seen of a call: the state, what is left, and what is returned. -/
def seen {β : Type} (r : Istream ι σ × β) : Iostate × List α × β :=
  (r.1.m_state, r.1.left supply, r.2)

/-- How many characters are asked for. -/
def at_most (width : BitVec 64) : Nat := if width = 0 then 2 ^ 64 - 1 else width.toNat

/-- `reserve` throws. -/
def refused (max_size : Nat) (width : BitVec 64) : Bool := width ≠ 0 && max_size < at_most width

variable (throws : ι → Bool)

/-- The same stream with another buffer. -/
def Istream.on {σ' : Type} (is : Istream ι σ) (s : σ') : Istream ι σ' where
  fmtflags := is.fmtflags
  m_sbuf := some s
  m_state := is.m_state
  m_exceptions := is.m_exceptions
  m_tie := is.m_tie
  m_gcount := is.m_gcount

/-- The stream is good when it is read. -/
def Istream.Reads (is : Istream ι σ) : Prop := is.good = true ∧ is.m_tie.any throws = false

/-- The state behind a sentry that fails, and whether the call throws. -/
def failed (is : Istream ι σ) (threw : Bool) : Iostate × Bool :=
  if threw then (is.m_state, true)
  else (is.m_state ||| failbit, (is.m_state ||| failbit) &&& is.m_exceptions ≠ 0)

/-- The state of a call that reads nothing, and whether it throws. -/
def unread (is : Istream ι σ) : Iostate × Bool :=
  let (is, threw) := if is.good then is.process_exception else (is, false)
  failed is threw

/-- What is left behind `n` characters, and whether the end is noticed. -/
def behind (early : Supply α → Supply α × Option α) (n : Nat) (S : Supply α) : List α × Bool :=
  if 1 < S.current.length then
    if (S.drop n).current.isEmpty then (S.content.drop n, S.content.length = n)
    else ((early (S.drop n)).1.content, (early (S.drop n)).2.isNone)
  else (S.content.drop n, false)

/-- The space behind `p` characters cannot be put back. -/
def loses (back : Supply α → Bool) (p : Nat) (S : Supply α) : Bool :=
  decide (S.current.length ≤ 1) && !back (S.drop p)

/-- The loop comes to an end. -/
def Ends (is_space : α → Bool) (n : Nat) (S : Supply α) : Prop :=
  1 < S.current.length → Unbroken n (word is_space n S.content).length S

/-- When two partitions give the same string of at most `n` characters. -/
structure SameString (is_space : α → Bool) (early₁ early₂ : Supply α → Supply α × Option α)
    (back₁ back₂ : Supply α → Bool) (max_size n : Nat) (S₁ S₂ : Supply α) : Prop where
  fits : (word is_space n S₁.content).length ≤ max_size
  ends₁ : Ends is_space n S₁
  ends₂ : Ends is_space n S₂
  behind : (word is_space n S₁.content).length = n → behind early₁ n S₁ = behind early₂ n S₂
  space : (word is_space n S₁.content).length < n →
    (word is_space n S₁.content).length < S₁.content.length →
    loses back₁ (word is_space n S₁.content).length S₁ =
      loses back₂ (word is_space n S₁.content).length S₂

/-- Both calls come back, and the same can be seen of them. -/
def Agree {β : Type} (x y : Option β) : Prop := ∃ v, x = some v ∧ y = some v

end

namespace StringExtractionLemmas

open IstreamLemmas SourcesLemmas

section

variable {ι σ α : Type} {is : Istream ι σ} {supply : σ → Supply α}
  {early : Supply α → Supply α × Option α} {back : Supply α → Bool} {is_space : α → Bool}

theorem marks_eq {β : Type} (hstate : is.m_state = goodbit) (s' : σ) (bits : Iostate) (empty : Bool)
    (v : Bool → β) :
    (if ((is.with_sbuf s').mark bits).2 then some (((is.with_sbuf s').mark bits).1, v true)
      else if empty then some ((((is.with_sbuf s').mark bits).1.setstate failbit).1,
        v (((is.with_sbuf s').mark bits).1.setstate failbit).2)
      else some (((is.with_sbuf s').mark bits).1, v false)).map (seen supply) =
    some ((marked is.m_exceptions bits empty).1, (supply s').content,
      v (marked is.m_exceptions bits empty).2) := by
  have hstate' : (is.with_sbuf s').m_state = goodbit := hstate
  have hbuf : (is.with_sbuf s').m_sbuf = some s' := rfl
  obtain ⟨f, hmark⟩ := mark_eq hstate' hbuf bits
  rw [hmark]
  unfold marked
  simp only [decide_eq_true_eq]
  by_cases hthrow : bits &&& is.m_exceptions ≠ 0
  · have hthrow' : bits &&& (is.with_sbuf s').m_exceptions ≠ 0 := hthrow
    rw [if_pos hthrow, if_pos hthrow']
    rfl
  · have hthrow' : ¬bits &&& (is.with_sbuf s').m_exceptions ≠ 0 := hthrow
    rw [if_neg hthrow, if_neg hthrow']
    cases empty with
    | true =>
      have hne : ({ is.with_sbuf s' with
          fmtflags := f, m_state := bits } : Istream ι σ).m_sbuf ≠ none := Option.some_ne_none s'
      obtain ⟨f', hset⟩ := setstate_eq hne failbit
      rw [if_pos rfl, if_pos rfl, hset]
      rfl
    | false =>
      rw [if_neg Bool.false_ne_true, if_neg Bool.false_ne_true]
      rfl

theorem string_end_eq {n : Nat} {S : Supply α} : string_end is_space early back n S =
    let p := (word is_space n S.content).length
    if p = n then ((behind early n S).1, if (behind early n S).2 then eofbit else goodbit)
    else if p = S.content.length then ([], eofbit)
    else if loses back p S then (S.content.drop (p + 1), failbit)
    else (S.content.drop p, goodbit) := by
  unfold string_end blocks_end chars_end behind loses
  dsimp only
  by_cases hlong : 1 < S.current.length
  · rw [if_pos hlong, if_pos hlong, decide_eq_false (Nat.not_le_of_lt hlong)]
    simp only [Bool.false_and, Bool.false_eq_true, if_false, List.isEmpty_iff]
    split
    · split <;> simp
    · rfl
  · rw [if_neg hlong, if_neg hlong, decide_eq_true (Nat.le_of_not_lt hlong)]
    simp only [Bool.true_and, Bool.false_eq_true, if_false, Bool.not_eq_true']
    split
    · rfl
    · split
      · rfl
      · cases back (S.drop (word is_space n S.content).length) <;> rfl

theorem marked_eof (exceptions bits : Iostate) (empty : Bool) :
    (marked exceptions bits empty).1 &&& eofbit = bits &&& eofbit := by
  have hfail : (bits ||| failbit) &&& eofbit = bits &&& eofbit := by
    rw [BitVec.and_or_distrib_right]
    exact BitVec.or_zero
  unfold marked
  split
  · rfl
  · split
    · exact hfail
    · rfl

theorem end_bits (x : Bool) : (if x then eofbit else goodbit) &&& eofbit ≠ 0 ↔ x = true := by
  cases x
  · exact iff_of_false good_eof Bool.false_ne_true
  · exact iff_of_true eof_eof rfl

variable {early' : Supply α → Supply α × Option α} {back' : Supply α → Bool} {max_size n : Nat}
  {S S' : Supply α}

theorem end_bits_inj {x y : Bool} {exceptions : Iostate} {empty : Bool}
    (h : (marked exceptions (if x then eofbit else goodbit) empty).1 =
      (marked exceptions (if y then eofbit else goodbit) empty).1) : x = y := by
  refine Bool.eq_iff_iff.mpr ((end_bits x).symm.trans (Iff.trans ?_ (end_bits y)))
  rw [← marked_eof exceptions _ empty, h, marked_eof]

theorem string_end_same (hcontent : S.content = S'.content)
    (h : SameString is_space early early' back back' max_size n S S') :
    string_end is_space early back n S = string_end is_space early' back' n S' := by
  obtain ⟨hle, hle'⟩ := length_word_le is_space n S.content
  rw [string_end_eq, string_end_eq, ← hcontent]
  dsimp only
  by_cases hfull : (word is_space n S.content).length = n
  · rw [if_pos hfull, if_pos hfull, h.behind hfull]
  · rw [if_neg hfull, if_neg hfull]
    by_cases hend : (word is_space n S.content).length = S.content.length
    · rw [if_pos hend, if_pos hend]
    · rw [if_neg hend, if_neg hend,
        h.space (Nat.lt_of_le_of_ne hle hfull) (Nat.lt_of_le_of_ne hle' hend)]

theorem string_end_behind (hcontent : S.content = S'.content)
    (hfull : (word is_space n S.content).length = n) {exceptions : Iostate} {empty : Bool}
    (hleft : (string_end is_space early back n S).1 = (string_end is_space early' back' n S').1)
    (hmarked : (marked exceptions (string_end is_space early back n S).2 empty).1 =
      (marked exceptions (string_end is_space early' back' n S').2 empty).1) :
    behind early n S = behind early' n S' := by
  rw [string_end_eq, string_end_eq, ← hcontent, if_pos hfull, if_pos hfull] at hleft hmarked
  exact Prod.ext hleft (end_bits_inj hmarked)

theorem string_end_space (hcontent : S.content = S'.content)
    (hn : (word is_space n S.content).length < n)
    (hmore : (word is_space n S.content).length < S.content.length)
    (hleft : (string_end is_space early back n S).1 = (string_end is_space early' back' n S').1) :
    loses back (word is_space n S.content).length S =
      loses back' (word is_space n S.content).length S' := by
  have hne : S.content.drop (word is_space n S.content).length ≠
      S.content.drop ((word is_space n S.content).length + 1) := fun heq => by
    have hlen := congrArg List.length heq
    rw [List.length_drop, List.length_drop] at hlen
    omega
  rw [string_end_eq, string_end_eq, ← hcontent, if_neg (Nat.ne_of_lt hn), if_neg (Nat.ne_of_lt hn),
    if_neg (Nat.ne_of_lt hmore), if_neg (Nat.ne_of_lt hmore)] at hleft
  revert hleft
  cases loses back (word is_space n S.content).length S <;>
    cases loses back' (word is_space n S.content).length S'
  · exact fun _ => rfl
  · exact fun hleft => absurd hleft hne
  · exact fun hleft => absurd hleft.symm hne
  · exact fun _ => rfl

end

section

variable {ι σ α : Type} [DecidableEq α] {b : Streambuf σ α} {ok : σ → Prop}
  {supply : σ → Supply α} {early : Supply α → Supply α × Option α} {back : Supply α → Bool}
  {is_space : α → Bool} {throws : ι → Bool} {is : Istream ι σ} {s : σ}

/-- What the sentry reports at the end. -/
theorem report_ended (hgood : is.good = true) (hbuf : is.m_sbuf = some s) : ∃ is' threw,
    is.report (eofbit ||| failbit) = (is', threw) ∧ is'.m_sbuf = some s ∧ is'.good = false ∧
      failed is' threw = unmarked is.m_exceptions := by
  have hstate : is.m_state = goodbit := of_decide_eq_true hgood
  obtain ⟨f, hset⟩ := setstate_eq (hbuf ▸ Option.some_ne_none s) (eofbit ||| failbit)
  rw [hstate, good_or] at hset
  unfold Istream.report unmarked failed
  rw [if_neg (by decide), hset]
  dsimp only
  by_cases hthrow : (eofbit ||| failbit) &&& is.m_exceptions ≠ 0
  · obtain ⟨f', hproc⟩ := process_exception_eq
      ({ is with fmtflags := f, m_state := eofbit ||| failbit } : Istream ι σ)
    rw [decide_eq_true hthrow, if_pos rfl, if_pos hthrow, hproc]
    refine ⟨_, _, rfl, hbuf, ?_, ?_⟩
    · exact decide_eq_false (show ¬(eofbit ||| failbit) ||| badbit = goodbit by decide)
    · simp only [decide_eq_true_eq]
  · rw [decide_eq_false hthrow, if_neg Bool.false_ne_true, if_neg hthrow]
    exact ⟨_, _, rfl, hbuf, decide_eq_false (show ¬eofbit ||| failbit = goodbit by decide), rfl⟩

/-- The stream is not good, or the tied stream throws. -/
theorem sentry_unread (hbuf : is.m_sbuf = some s) (hread : ¬is.Reads throws)
    (skip : Option (σ → Option (σ × Bool))) : ∃ is' threw,
      is.sentry throws skip = some (is', threw) ∧ is'.m_sbuf = some s ∧ is'.good = false ∧
        failed is' threw = unread is := by
  unfold Istream.sentry unread
  cases hgood : is.good with
  | false => exact ⟨is, false, rfl, hbuf, hgood, rfl⟩
  | true =>
    have htie : is.m_tie.any throws = true := by
      by_contra hnot
      exact hread ⟨hgood, eq_false_of_ne_true hnot⟩
    obtain ⟨f, hproc⟩ := process_exception_eq is
    have hstate : is.m_state = goodbit := of_decide_eq_true hgood
    rw [if_pos rfl, htie, if_pos rfl, if_pos rfl, hproc]
    refine ⟨_, _, rfl, hbuf, decide_eq_false ?_, rfl⟩
    show ¬is.m_state ||| badbit = goodbit
    rw [hstate]
    decide

theorem extract_string_failed {is' : Istream ι σ} {threw : Bool} {max_size fuel : Nat}
    (hsentry : is.sentry throws (some (b.skip_ws is_space fuel)) = some (is', threw))
    (hbuf : is'.m_sbuf = some s) (hgood : is'.good = false) (width : BitVec 64) (str : List α) :
    (extract_string b is_space throws max_size fuel is width str).map (seen supply) =
      some ((failed is' threw).1, (supply s).content, width, str, (failed is' threw).2) := by
  unfold extract_string failed
  rw [hsentry]
  simp only [Option.bind_eq_bind, Option.bind_some]
  cases threw with
  | true => exact congrArg some (Prod.ext rfl (Prod.ext (left_of_some hbuf) rfl))
  | false =>
    obtain ⟨f, hset⟩ := setstate_eq (hbuf ▸ Option.some_ne_none s) failbit
    rw [if_neg Bool.false_ne_true, hgood, if_neg Bool.false_ne_true, hset,
      if_neg Bool.false_ne_true]
    exact congrArg some (Prod.ext rfl (Prod.ext (left_of_some hbuf) rfl))

/-- Nothing but spaces is left. -/
theorem extract_string_ended (h : b.Source ok supply) (hok : ok s) (hbuf : is.m_sbuf = some s)
    (hread : is.Reads throws) {max_size fuel : Nat} (hfuel : (supply s).content.length < fuel)
    (hskip : is.flags &&& skipws ≠ 0) (hw : (is.skipped is_space (supply s)).content = [])
    (width : BitVec 64) (str : List α) :
    (extract_string b is_space throws max_size fuel is width str).map (seen supply) =
      some ((unmarked is.m_exceptions).1, [], width, str, (unmarked is.m_exceptions).2) := by
  obtain ⟨s₁, hok₁, hsupply₁, hsentry⟩ := sentry_skip is_space h hok hbuf hread.1 hread.2 hfuel
  rw [if_pos ⟨hskip, hw⟩] at hsentry
  have hgood : (is.with_sbuf s₁).good = true := hread.1
  have hexc : (is.with_sbuf s₁).m_exceptions = is.m_exceptions := rfl
  obtain ⟨is₁, threw, hreport, hbuf₁, hgood₁, hstate₁⟩ := report_ended hgood rfl
  rw [hreport] at hsentry
  rw [extract_string_failed hsentry hbuf₁ hgood₁, hstate₁, hsupply₁, hw, hexc]

/-- What is behind the spaces is read. -/
theorem extract_string_passes (h : b.Source ok supply) (hok : ok s) (hbuf : is.m_sbuf = some s)
    (hread : is.Reads throws) {max_size fuel : Nat}
    (hfuel : (supply s).content.length < fuel)
    (hw : is.flags &&& skipws ≠ 0 → (is.skipped is_space (supply s)).content ≠ [])
    (width : BitVec 64) (str : List α) : ∃ s₁, ok s₁ ∧ supply s₁ = is.skipped is_space (supply s) ∧
      (extract_string b is_space throws max_size fuel is width str).map (seen supply) =
        if refused max_size width then some (goodbit, (supply s₁).content, 0, [], true)
        else (if 1 < (supply s₁).current.length then
            extract_blocks b is_space fuel (at_most width) s₁ []
          else extract_chars b is_space (at_most width) s₁ []).bind fun r =>
          if max_size < r.2.1.length then none
          else some ((marked is.m_exceptions r.2.2 r.2.1.isEmpty).1, (supply r.1).content, 0, r.2.1,
            (marked is.m_exceptions r.2.2 r.2.1.isEmpty).2) := by
  obtain ⟨s₁, hok₁, hsupply₁, hsentry⟩ :=
    sentry_passes is_space h hok hbuf hread.1 hread.2 hfuel hw
  refine ⟨s₁, hok₁, hsupply₁, ?_⟩
  have hgood₁ : (is.with_sbuf s₁).good = true := hread.1
  have hstate : is.m_state = goodbit := of_decide_eq_true hread.1
  have hlong : (b.areas s₁).gend - (b.areas s₁).gcur > 1 ↔ 1 < (supply s₁).current.length := by
    rw [area_size h hok₁]
    omega
  have hbuf₁ : (is.with_sbuf s₁).m_sbuf = some s₁ := rfl
  unfold extract_string
  rw [hsentry]
  simp only [Option.bind_eq_bind, Option.bind_some, Bool.false_eq_true, if_false, hgood₁, if_true,
    hbuf₁, hlong]
  have hrefused : (decide (width ≠ 0) && decide (max_size <
      if width = 0 then 2 ^ 64 - 1 else width.toNat)) = refused max_size width := rfl
  have hcount : (if width = 0 then 2 ^ 64 - 1 else width.toNat) = at_most width := rfl
  rw [hrefused, hcount]
  cases refused max_size width with
  | true => exact congrArg some (Prod.ext hstate rfl)
  | false =>
    simp only [Bool.false_eq_true, if_false]
    by_cases hlong₁ : 1 < (supply s₁).current.length
    · rw [if_pos hlong₁, if_pos hlong₁]
      cases extract_blocks b is_space fuel (at_most width) s₁ [] with
      | none => rfl
      | some r =>
        rw [Option.bind_some, Option.bind_some]
        split
        · rfl
        · exact marks_eq hstate r.1 r.2.2 r.2.1.isEmpty fun threw => (0, r.2.1, threw)
    · rw [if_neg hlong₁, if_neg hlong₁]
      cases extract_chars b is_space (at_most width) s₁ [] with
      | none => rfl
      | some r =>
        rw [Option.bind_some, Option.bind_some]
        split
        · rfl
        · exact marks_eq hstate r.1 r.2.2 r.2.1.isEmpty fun threw => (0, r.2.1, threw)

theorem at_most_pos (width : BitVec 64) : 0 < at_most width := by
  unfold at_most
  split
  · decide
  · next hne => exact Nat.pos_of_ne_zero fun h => hne (BitVec.eq_of_toNat_eq h)

theorem extract_string_refused (h : b.Source ok supply) (hok : ok s)
    (hbuf : is.m_sbuf = some s) (hread : is.Reads throws)
    {max_size fuel : Nat} (hfuel : (supply s).content.length < fuel)
    (hw : is.flags &&& skipws ≠ 0 → (is.skipped is_space (supply s)).content ≠ [])
    {width : BitVec 64} (hrefused : refused max_size width = true) (str : List α) :
    (extract_string b is_space throws max_size fuel is width str).map (seen supply) =
      some (goodbit, (is.skipped is_space (supply s)).content, 0, [], true) := by
  obtain ⟨s₁, -, hsupply₁, hrun⟩ := extract_string_passes h hok hbuf hread hfuel hw width str
  rw [hrun, if_pos hrefused, hsupply₁]

/-- The loops come to an end, or they do not. -/
theorem extract_string_read (h : b.Backs ok supply early back) (hok : ok s)
    (hbuf : is.m_sbuf = some s) (hread : is.Reads throws)
    {max_size fuel : Nat} (hfuel : (supply s).content.length < fuel)
    (hw : is.flags &&& skipws ≠ 0 → (is.skipped is_space (supply s)).content ≠ [])
    {width : BitVec 64} (hrefused : refused max_size width = false) (str : List α) :
    let S := is.skipped is_space (supply s)
    let p := word is_space (at_most width) S.content
    let r := string_end is_space early back (at_most width) S
    (p.length ≤ max_size → Ends is_space (at_most width) S →
      (extract_string b is_space throws max_size fuel is width str).map (seen supply) =
        some ((marked is.m_exceptions r.2 p.isEmpty).1, r.1, 0, p,
          (marked is.m_exceptions r.2 p.isEmpty).2)) ∧
    (¬(p.length ≤ max_size ∧ Ends is_space (at_most width) S) →
      (extract_string b is_space throws max_size fuel is width str).map (seen supply) = none) := by
  obtain ⟨s₁, hok₁, hsupply₁, hrun⟩ :=
    extract_string_passes h.toSource hok hbuf hread hfuel hw width str
  dsimp only
  rw [hrun, hrefused, ← hsupply₁, if_neg Bool.false_ne_true]
  unfold Ends string_end
  by_cases hlong : 1 < (supply s₁).current.length
  · have hcur : (supply s₁).current ≠ [] := List.length_pos_iff.mp (Nat.lt_of_succ_lt hlong)
    have hall : (supply s₁).content.length < fuel :=
      Nat.lt_of_le_of_lt (hsupply₁ ▸ length_skipped _) hfuel
    obtain ⟨hends, hstuck⟩ := extract_blocks_eq h.toOverruns hok₁
      (at_most_pos width) hcur fuel []
    rw [if_pos hlong, if_pos hlong, imp_iff_right hlong]
    by_cases hunbroken : Unbroken (at_most width)
        (word is_space (at_most width) (supply s₁).content).length (supply s₁)
    · obtain ⟨s', -, hloop, hcontent'⟩ := hends hunbroken hall
      rw [hloop, Option.bind_some, List.nil_append, hcontent']
      exact ⟨fun hfits _ => if_neg (Nat.not_lt_of_le hfits), fun hnot =>
        if_pos (Nat.lt_of_not_le fun hfits => hnot ⟨hfits, hunbroken⟩)⟩
    · rw [hstuck hunbroken, Option.bind_none]
      exact ⟨fun _ h => absurd h hunbroken, fun _ => rfl⟩
  · obtain ⟨s', -, hloop, hcontent'⟩ := extract_chars_eq h hok₁
      (at_most width) []
    rw [if_neg hlong, if_neg hlong, hloop, Option.bind_some, List.nil_append, hcontent']
    exact ⟨fun hfits _ => if_neg (Nat.not_lt_of_le hfits), fun hnot =>
      if_pos (Nat.lt_of_not_le fun hfits => hnot ⟨hfits, fun h => absurd h hlong⟩)⟩

end

section

variable {ι σ₁ σ₂ α : Type} [DecidableEq α] {b₁ : Streambuf σ₁ α} {b₂ : Streambuf σ₂ α}
  {ok₁ : σ₁ → Prop} {ok₂ : σ₂ → Prop} {supply₁ : σ₁ → Supply α} {supply₂ : σ₂ → Supply α}
  {early₁ early₂ : Supply α → Supply α × Option α} {back₁ back₂ : Supply α → Bool}
  {is_space : α → Bool} {throws : ι → Bool} {s₁ : σ₁} {s₂ : σ₂} {max_size fuel₁ fuel₂ : Nat}

theorem agree_some {β : Type} {x y : Option β} {v w : β} (hx : x = some v) (hy : y = some w) :
    Agree x y ↔ v = w := by
  rw [hx, hy]
  constructor
  · rintro ⟨u, hu, hu'⟩
    exact Option.some_inj.mp (hu.trans hu'.symm)
  · rintro rfl
    exact ⟨v, rfl, rfl⟩

theorem not_agree_none {β : Type} {x y : Option β} (h : x = none ∨ y = none) : ¬Agree x y := by
  rintro ⟨v, hx, hy⟩
  rcases h with h | h
  · rw [h] at hx
    cases hx
  · rw [h] at hy
    cases hy

theorem unread_on (is : Istream ι Unit) : unread (is.on s₁) = unread (is.on s₂) := by
  unfold unread
  have hgood : (is.on s₁).good = (is.on s₂).good := rfl
  rw [hgood]
  cases (is.on s₂).good <;> rfl

omit [DecidableEq α] in
theorem content_skipped_same (is : Istream ι Unit) (s₁ : σ₁) (s₂ : σ₂) {S S' : Supply α}
    (hcontent : S.content = S'.content) :
    ((is.on s₁).skipped is_space S).content = ((is.on s₂).skipped is_space S').content := by
  rw [content_skipped, content_skipped, hcontent]
  rfl

/-- The strings are read. -/
theorem extract_string_both (h₁ : b₁.Backs ok₁ supply₁ early₁ back₁)
    (h₂ : b₂.Backs ok₂ supply₂ early₂ back₂) (hok₁ : ok₁ s₁) (hok₂ : ok₂ s₂)
    (hcontent : (supply₁ s₁).content = (supply₂ s₂).content)
    (hfuel₁ : (supply₁ s₁).content.length < fuel₁) (hfuel₂ : (supply₂ s₂).content.length < fuel₂)
    {is : Istream ι Unit} (hread : is.Reads throws) {width : BitVec 64}
    (hrefused : refused max_size width = false)
    (hw : is.flags &&& skipws ≠ 0 → (is.skipped is_space (supply₁ s₁)).content ≠ [])
    (str : List α) :
    Agree ((extract_string b₁ is_space throws max_size fuel₁ (is.on s₁) width str).map
        (seen supply₁))
      ((extract_string b₂ is_space throws max_size fuel₂ (is.on s₂) width str).map
        (seen supply₂)) ↔
      SameString is_space early₁ early₂ back₁ back₂ max_size (at_most width)
        (is.skipped is_space (supply₁ s₁)) (is.skipped is_space (supply₂ s₂)) := by
  have hsame : (is.skipped is_space (supply₁ s₁)).content =
      (is.skipped is_space (supply₂ s₂)).content :=
    content_skipped_same is s₁ s₂ hcontent
  have hread₁ : (is.on s₁).Reads throws := hread
  have hread₂ : (is.on s₂).Reads throws := hread
  obtain ⟨hends₁, hstuck₁⟩ := extract_string_read h₁ hok₁ rfl hread₁ hfuel₁ hw hrefused str
  obtain ⟨hends₂, hstuck₂⟩ :=
    extract_string_read h₂ hok₂ rfl hread₂ hfuel₂ (hsame ▸ hw) hrefused str
  have hon₁ : (is.on s₁).skipped is_space (supply₁ s₁) = is.skipped is_space (supply₁ s₁) := rfl
  have hon₂ : (is.on s₂).skipped is_space (supply₂ s₂) = is.skipped is_space (supply₂ s₂) := rfl
  rw [hon₁] at hends₁ hstuck₁
  rw [hon₂, ← hsame] at hends₂ hstuck₂
  constructor
  · intro hagree
    obtain ⟨hfits, hhalts₁⟩ :
        _ ∧ Ends is_space (at_most width) (is.skipped is_space (supply₁ s₁)) := by
      by_contra hnot
      exact not_agree_none (.inl (hstuck₁ hnot)) hagree
    obtain ⟨-, hhalts₂⟩ : _ ∧ Ends is_space (at_most width) (is.skipped is_space (supply₂ s₂)) := by
      by_contra hnot
      exact not_agree_none (.inr (hstuck₂ hnot)) hagree
    have heq := (agree_some (hends₁ hfits hhalts₁) (hends₂ hfits hhalts₂)).mp hagree
    obtain ⟨hmarked, hrest⟩ := Prod.ext_iff.mp heq
    have hleft := (Prod.ext_iff.mp hrest).1
    exact ⟨hfits, hhalts₁, hhalts₂,
      fun hfull => string_end_behind hsame hfull hleft hmarked,
      fun hn hmore => string_end_space hsame hn hmore hleft⟩
  · intro h
    refine (agree_some (hends₁ h.fits h.ends₁) (hends₂ h.fits h.ends₂)).mpr ?_
    rw [string_end_same hsame h]
    rfl

omit [DecidableEq α] in
/-- Nothing is left to be read. -/
theorem same_string_nil {n : Nat} (hn : 0 < n) {S S' : Supply α} (h : S.content = [])
    (h' : S'.content = []) : SameString is_space early₁ early₂ back₁ back₂ max_size n S S' := by
  have hcur : S.current = [] := (List.append_eq_nil_iff.mp h).1
  have hcur' : S'.current = [] := (List.append_eq_nil_iff.mp h').1
  have hword : word is_space n S.content = [] := by rw [h, word_nil]
  refine ⟨?_, fun hlong => ?_, fun hlong => ?_, fun hfull => ?_, fun _ hmore => ?_⟩
  · rw [hword]
    exact Nat.zero_le _
  · rw [hcur] at hlong
    exact absurd hlong (Nat.not_lt_zero _)
  · rw [hcur'] at hlong
    exact absurd hlong (Nat.not_lt_zero _)
  · rw [hword] at hfull
    exact absurd hfull (Nat.ne_of_lt hn)
  · rw [h] at hmore
    exact absurd hmore (Nat.not_lt_zero _)

end

end StringExtractionLemmas

open StringExtractionLemmas IstreamLemmas

/-- When the string does not depend on how the characters are divided. -/
theorem extract_string_same {ι σ₁ σ₂ α : Type} [DecidableEq α] {b₁ : Streambuf σ₁ α}
    {b₂ : Streambuf σ₂ α} {ok₁ : σ₁ → Prop} {ok₂ : σ₂ → Prop} {supply₁ : σ₁ → Supply α}
    {supply₂ : σ₂ → Supply α} {early₁ early₂ : Supply α → Supply α × Option α}
    {back₁ back₂ : Supply α → Bool} (h₁ : b₁.Backs ok₁ supply₁ early₁ back₁)
    (h₂ : b₂.Backs ok₂ supply₂ early₂ back₂) {s₁ : σ₁} {s₂ : σ₂} (hok₁ : ok₁ s₁) (hok₂ : ok₂ s₂)
    (hcontent : (supply₁ s₁).content = (supply₂ s₂).content) {fuel₁ fuel₂ : Nat}
    (hfuel₁ : (supply₁ s₁).content.length < fuel₁) (hfuel₂ : (supply₂ s₂).content.length < fuel₂)
    (is_space : α → Bool) (throws : ι → Bool) (max_size : Nat) (is : Istream ι Unit)
    (width : BitVec 64) (str : List α) :
    Agree ((extract_string b₁ is_space throws max_size fuel₁ (is.on s₁) width str).map
        (seen supply₁))
      ((extract_string b₂ is_space throws max_size fuel₂ (is.on s₂) width str).map
        (seen supply₂)) ↔
      (is.Reads throws → refused max_size width = false →
        SameString is_space early₁ early₂ back₁ back₂ max_size (at_most width)
          (is.skipped is_space (supply₁ s₁)) (is.skipped is_space (supply₂ s₂))) := by
  have hsame : (is.skipped is_space (supply₁ s₁)).content =
      (is.skipped is_space (supply₂ s₂)).content :=
    content_skipped_same is s₁ s₂ hcontent
  by_cases hread : is.Reads throws
  · have hread₁ : (is.on s₁).Reads throws := hread
    have hread₂ : (is.on s₂).Reads throws := hread
    by_cases hended : is.flags &&& skipws ≠ 0 ∧ (is.skipped is_space (supply₁ s₁)).content = []
    · -- the sentry has found the end
      obtain ⟨hskip, hw⟩ := hended
      have hw' := hsame.symm.trans hw
      refine iff_of_true ?_ fun _ _ => same_string_nil (at_most_pos width) hw hw'
      exact (agree_some (extract_string_ended h₁.toSource hok₁ rfl hread₁ hfuel₁ hskip hw _ _)
        (extract_string_ended h₂.toSource hok₂ rfl hread₂ hfuel₂ hskip hw' _ _)).mpr rfl
    · have hw : is.flags &&& skipws ≠ 0 → (is.skipped is_space (supply₁ s₁)).content ≠ [] :=
        fun hskip hw => hended ⟨hskip, hw⟩
      cases hrefused : refused max_size width with
      | true =>
        refine iff_of_true ?_ fun _ hnot => absurd hnot.symm Bool.false_ne_true
        refine (agree_some
          (extract_string_refused h₁.toSource hok₁ rfl hread₁ hfuel₁ hw hrefused _)
          (extract_string_refused h₂.toSource hok₂ rfl hread₂ hfuel₂ (hsame ▸ hw)
            hrefused _)).mpr ?_
        exact congrArg (fun w => (goodbit, w, 0, [], true)) hsame
      | false =>
        rw [imp_iff_right hread, imp_iff_right rfl]
        exact extract_string_both h₁ h₂ hok₁ hok₂ hcontent hfuel₁ hfuel₂ hread hrefused hw str
  · refine iff_of_true ?_ fun h => absurd h hread
    have hread₁ : ¬(is.on s₁).Reads throws := hread
    have hread₂ : ¬(is.on s₂).Reads throws := hread
    obtain ⟨is₁, threw₁, hsentry₁, hbuf₁, hgood₁, hfailed₁⟩ :=
      sentry_unread rfl hread₁ (some (b₁.skip_ws is_space fuel₁))
    obtain ⟨is₂, threw₂, hsentry₂, hbuf₂, hgood₂, hfailed₂⟩ :=
      sentry_unread rfl hread₂ (some (b₂.skip_ws is_space fuel₂))
    refine (agree_some (extract_string_failed hsentry₁ hbuf₁ hgood₁ width str)
      (extract_string_failed hsentry₂ hbuf₂ hgood₂ width str)).mpr ?_
    rw [hfailed₁, hfailed₂, unread_on, hcontent]

/-! ## 3. The device -/

namespace Pipe

open SourcesLemmas

variable {α : Type} {s s' : Pipe α} {r : Option α}

/-- There are areas only, or none at all. -/
def Uniform (s : Pipe α) : Prop :=
  s.Whole ∧ ((∀ c, Chunk.single c ∉ s.chunks) ∨
    (s.areas.gbeg = s.areas.gend ∧ ∀ c cs, Chunk.area c cs ∉ s.chunks))

theorem uniform_of (h : s.Uniform) (hwhole : s'.Whole) (hsub : s'.chunks ⊆ s.chunks)
    (harea : (∃ c cs, Chunk.area c cs ∈ s.chunks) ∨
      s'.areas.gbeg = s.areas.gbeg ∧ s'.areas.gend = s.areas.gend) : s'.Uniform := by
  refine ⟨hwhole, ?_⟩
  rcases h.2 with hareas | ⟨hnone, hsingles⟩
  · exact .inl fun c hmem => hareas c (hsub hmem)
  · refine .inr ⟨?_, fun c cs hmem => hsingles c cs (hsub hmem)⟩
    rcases harea with ⟨c, cs, hmem⟩ | ⟨hbeg, hend⟩
    · exact absurd hmem (hsingles c cs)
    · rw [hbeg, hend, hnone]

theorem uniform_underflow (h : s.Uniform) (hs' : s.underflow = some (s', r)) : s'.Uniform := by
  have hwhole := whole_underflow h.1 hs'
  unfold underflow at hs'
  split at hs'
  · cases hs'
    exact h
  · cases hs'
    exact h
  · next c cs chunks hchunks =>
    cases hs'
    exact uniform_of h hwhole (hchunks ▸ List.subset_cons_self _ _)
      (.inl ⟨c, cs, hchunks ▸ List.mem_cons_self⟩)

theorem uniform_uflow (h : s.Uniform) (hwhole : s'.Whole) (hs' : s.uflow = some (s', r)) :
    s'.Uniform := by
  unfold uflow at hs'
  split at hs'
  · cases hs'
    exact h
  · next c chunks hchunks =>
    cases hs'
    exact uniform_of h hwhole (hchunks ▸ List.subset_cons_self _ _) (.inr ⟨rfl, rfl⟩)
  · next c cs chunks hchunks =>
    cases hs'
    exact uniform_of h hwhole (hchunks ▸ List.subset_cons_self _ _)
      (.inl ⟨c, cs, hchunks ▸ List.mem_cons_self⟩)

theorem uniform_overruns : (buf (α := α)).Overruns Uniform supply early where
  areas_with _ _ := rfl
  load_with _ _ _ := rfl
  area s h := whole_source.area s h.1
  skip s k h hk := by
    obtain ⟨hwhole, hsupply'⟩ := whole_source.skip s k h.1 hk
    exact ⟨uniform_of h hwhole (List.Subset.refl _) (.inr ⟨rfl, rfl⟩), hsupply'⟩
  underflow s h hcur := by
    obtain ⟨s', hs', -, hsupply'⟩ := whole_source.underflow s h.1 hcur
    exact ⟨s', hs', uniform_underflow h hs', hsupply'⟩
  uflow s h hcur := by
    obtain ⟨s', hs', hwhole, hsupply'⟩ := whole_source.uflow s h.1 hcur
    exact ⟨s', hs', uniform_uflow h hwhole hs', hsupply'⟩
  overrun s h hcur := by
    obtain ⟨s', hs', -, hsupply'⟩ := whole_overruns.overrun s h.1 hcur
    exact ⟨s', hs', uniform_underflow h hs', hsupply'⟩

/-- A character of an area can be put back. -/
def back (S : Supply α) : Bool := !S.peek.current.isEmpty

/-- The area is still there. -/
theorem sputbackc_area [DecidableEq α] {c : α} {cs : List α} (h : s.Whole)
    (hc : s.supply.current = c :: cs) :
    buf.sputbackc { s with areas := { s.areas with gcur := s.areas.gcur + 1 } } c =
      some (s, some c) := by
  have hload := load_source whole_source h hc
  have hchar : s.memory s.areas.gcur = c := Option.some_inj.mp hload
  have hle := h.2.1
  unfold Streambuf.sputbackc
  dsimp only [buf]
  rw [if_neg (by omega), Int.add_sub_cancel]
  simp only [Option.bind_eq_bind, Option.bind_some, hchar, ne_eq, not_true_eq_false, if_false]

theorem buf_backs [DecidableEq α] : (buf (α := α)).Backs Uniform supply early back where
  toOverruns := uniform_overruns
  put_back s s' c h hhead hs' := by
    have hwhole := h.1
    cases hcur : s.supply.current with
    | cons x cs =>
      obtain rfl : x = c := by
        rw [Supply.content, hcur] at hhead
        exact Option.some_inj.mp hhead
      have hne : s.areas.gcur ≠ s.areas.gend := fun heq => by
        rw [(empty_iff whole_source hwhole).mp heq] at hcur
        cases hcur
      have hne' : (buf.areas s).gcur ≠ (buf.areas s).gend := hne
      rw [Streambuf.sbumpc, if_pos hne'] at hs'
      cases hs'
      have hback : back s.supply = true := by
        rw [back, Supply.peek_of_ne (hcur ▸ List.cons_ne_nil _ cs), hcur]
        rfl
      exact ⟨s, some _, sputbackc_area hwhole hcur, h, hback.symm, by rw [hback]; rfl⟩
    | nil =>
      have hused : (buf.areas s).gcur = (buf.areas s).gend :=
        (empty_iff whole_source hwhole).mpr hcur
      rw [Streambuf.sbumpc, if_neg (not_not.mpr hused)] at hs'
      have hnext : s.supply = ⟨[], s.chunks⟩ := by
        rw [← hcur]
        rfl
      cases hchunks : s.chunks with
      | nil =>
        rw [hnext, hchunks] at hhead
        cases hhead
      | cons chunk chunks =>
        rw [hchunks] at hnext
        cases chunk with
        | single x =>
          have hs'' : s.uflow = some ({ s with chunks := chunks }, some x) := by
            rw [uflow, hchunks]
          rw [show buf.uflow s = s.uflow from rfl, hs''] at hs'
          cases hs'
          have hnone : s.areas.gbeg = s.areas.gcur := by
            rcases h.2 with hareas | ⟨hnone, -⟩
            · exact absurd (hchunks ▸ List.mem_cons_self) (hareas c)
            · exact hnone.trans hused.symm
          have hback : back s.supply = false := by rw [hnext]; rfl
          refine ⟨_, none, ?_, uniform_uflow h (whole_uflow hwhole ?_ hs'') hs'', hback.symm, ?_⟩
          · unfold Streambuf.sputbackc
            dsimp only [buf]
            rw [if_pos hnone]
          · exact buf_contract.sbumpc s _ (some c) hwhole.1
              (by rw [Streambuf.sbumpc, if_neg (not_not.mpr hused)]; exact hs'')
          · rw [hback, if_neg Bool.false_ne_true, hnext]
            exact congrArg (fun current => (Supply.mk current chunks).content) hcur
        | area x cs =>
          have hs'' : s.uflow = some ({ s.place (x :: cs) chunks with
              areas := { (s.place (x :: cs) chunks).areas with
                gcur := (s.place (x :: cs) chunks).areas.gcur + 1 } }, some x) := by
            rw [uflow, hchunks]
          rw [show buf.uflow s = s.uflow from rfl, hs''] at hs'
          cases hs'
          have hplace := whole_place hwhole hchunks
          have hsupply := supply_place s (c :: cs) chunks
          have hback : back s.supply = true := by rw [hnext]; rfl
          refine ⟨_, some c, sputbackc_area hplace (congrArg Supply.current hsupply),
            uniform_underflow h (by rw [underflow, hchunks]), hback.symm, ?_⟩
          rw [hback, if_pos rfl, hnext, hsupply]
          rfl

end Pipe

end Kuhllib.Cxxrt
