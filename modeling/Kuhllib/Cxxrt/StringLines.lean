import Kuhllib.Cxxrt.StringExtraction

/-!
# `getline` for strings

The size of the first get area decides which one of two loops runs. The loop that takes blocks
looks at the number of characters between two blocks only, and calls `underflow` behind a block
without the delimiter. Characters that do not fit into the string are not appended; `append` throws
then, and nothing is given.

Results:
1. `getline_chars_eq`, `getline_blocks_eq`: what the loops do.
2. `getline_string_same`: when a line does not depend on how the characters are divided.
3. `strings_same_iff`: the same for both functions.
-/

namespace Kuhllib.Cxxrt

section

variable {ι σ α : Type} [DecidableEq α] (b : Streambuf σ α) (d : α) (max_size : Nat)

/-- The loop with blocks; the string, `nread`, and what is passed to `setstate`. -/
def getline_blocks : Nat → σ → List α → Nat → Option (σ × List α × Nat × Iostate)
  | 0, _, _, _ => none
  | fuel + 1, s, str, nread =>
    if nread < max_size then
      let a := b.areas s
      if a.gend < a.gcur then none
      else do
        let count := (a.gend - a.gcur).toNat
        let f ← find b s d a.gcur count
        match f with
        | none => do
          if max_size < str.length + count then none
          else do
            let cs ← b.read_chars s a.gcur count
            let (s, c) ← b.underflow (b.with_areas s { a with gcur := a.gend })
            if c.isNone then some (s, str ++ cs, nread + count, eofbit)
            else getline_blocks fuel s (str ++ cs) (nread + count)
        | some k =>
          if max_size < str.length + k then none
          else do
            let cs ← b.read_chars s a.gcur k
            some (b.with_areas s { a with gcur := a.gcur + (k + 1 : Nat) }, str ++ cs,
              nread + (k + 1), goodbit)
    else some (s, str, nread, goodbit)

/-- The loop with single characters; as many more can be read. -/
def getline_chars : Nat → σ → List α → Nat → Option (σ × List α × Nat × Iostate)
  | 0, s, str, nread => some (s, str, nread, goodbit)
  | k + 1, s, str, nread => do
    let (s, c) ← b.sbumpc s
    match c with
    | none => some (s, str, nread, eofbit)
    | some c =>
      if c ≠ d then getline_chars k s (str ++ [c]) (nread + 1)
      else some (s, str, nread + 1, goodbit)

variable (throws : ι → Bool)

/-- `getline(is, s, delim)`; the stream, the string, and whether it throws. -/
def getline_string (fuel : Nat) (is : Istream ι σ) (str : List α) :
    Option (Istream ι σ × List α × Bool) := do
  let (is, threw) ← is.sentry throws none
  if threw then some (is, str, true)
  else do
    let (is, str, nread, threw) ←
      if is.good then do
        let s ← is.m_sbuf
        let a := b.areas s
        let (s, str, nread, bits) ←
          if a.gend - a.gcur > 1 then getline_blocks b d max_size fuel s [] 0
          else getline_chars b d max_size s [] 0
        let (is, threw) := (is.with_sbuf s).mark bits
        some (is, str, nread, threw)
      else some (is, str, 0, false)
    if threw then some (is, str, true)
    else if nread = 0 || nread ≥ max_size then
      let (is, threw) := is.setstate failbit
      some (is, str, threw)
    else some (is, str, false)

end

section

variable {α : Type} [DecidableEq α]

/-- How many characters the loop with blocks takes if the string is full, and whether it notices
the end. -/
def blocks_full (d : α) (k : Nat) (S : Supply α) : Option (Nat × Bool) :=
  if (S.drop k).current.isEmpty then some (k, S.content.length = k)
  else if S.content[k]? = some d then some (k + 1, false)
  else none

/-- The same for both loops. -/
def line_full (d : α) (k : Nat) (S : Supply α) : Option (Nat × Bool) :=
  if 1 < S.current.length then blocks_full d k S else some (k, false)

/-- How many characters are taken, and whether the end is noticed. -/
def taken (full : Option (Nat × Bool)) (d : α) (k : Nat) (w : List α) : Option (Nat × Bool) :=
  let p := (line d k w).length
  if p = k then full
  else some (if p = w.length then (p, true) else (p + 1, false))

end

/-- The loop for a line comes to an end. -/
def LineEnds {α : Type} [DecidableEq α] (d : α) (k : Nat) (S : Supply α) : Prop :=
  1 < S.current.length → Unbroken k (line d k S.content).length S

/-- When two partitions give the same line. -/
structure SameLine {α : Type} [DecidableEq α] (d : α) (max_size : Nat) (S₁ S₂ : Supply α) :
    Prop where
  ends₁ : LineEnds d max_size S₁
  ends₂ : LineEnds d max_size S₂
  full : (line d max_size S₁.content).length = max_size →
    Agree (line_full d max_size S₁) (line_full d max_size S₂)

namespace StringLinesLemmas

open StringExtractionLemmas IstreamLemmas LineInputLemmas SourcesLemmas

section

variable {σ α : Type} [DecidableEq α] {b : Streambuf σ α} {ok : σ → Prop} {supply : σ → Supply α}
  {s : σ} {d : α} {max_size k m : Nat} {S : Supply α} {w cs str : List α}

/-! ## 1. The loops -/

/-- The line is not full. -/
theorem taken_nil {full : Option (Nat × Bool)} (d : α) (k : Nat) :
    taken full d (k + 1) ([] : List α) = some (0, true) := by
  rw [taken, line_nil]
  rfl

theorem taken_self {full : Option (Nat × Bool)} (d : α) (k : Nat) (w : List α) :
    taken full d (k + 1) (d :: w) = some (1, false) := by
  rw [taken, line_cons_self]
  rfl

theorem taken_cons {c : α} (hc : c ≠ d) (k : Nat) (w : List α) :
    taken (some (k + 1, false)) d (k + 1) (c :: w) =
      (taken (some (k, false)) d k w).map fun r => (r.1 + 1, r.2) := by
  unfold taken
  rw [line_cons_of_ne hc]
  simp only [List.length_cons, Nat.add_right_cancel_iff]
  split
  · rfl
  · split <;> rfl

theorem getline_chars_eq (h : b.Source ok supply) (hok : ok s) (k : Nat) (str : List α)
    (nread : Nat) :
    (getline_chars b d k s str nread).map (fun r => ((supply r.1).content, r.2)) =
      (taken (some (k, false)) d k (supply s).content).map fun r =>
        ((supply s).content.drop r.1, str ++ line d k (supply s).content, nread + r.1,
          if r.2 then eofbit else goodbit) := by
  induction k generalizing s str nread with
  | zero => simp [getline_chars, taken, line]
  | succ k ih =>
    obtain ⟨s₁, hs₁, hok₁, hsupply₁⟩ := sbumpc_source h hok
    have hcontent₁ : (supply s₁).content = (supply s).content.tail := by
      rw [hsupply₁, Supply.content_bump]
    rw [getline_chars, hs₁]
    simp only [Option.bind_eq_bind, Option.bind_some]
    cases hw : (supply s).content with
    | nil =>
      rw [hw] at hcontent₁
      rw [taken_nil, line_nil, List.append_nil]
      exact congrArg some (Prod.ext hcontent₁ rfl)
    | cons c w =>
      rw [hw] at hcontent₁
      simp only [List.head?_cons]
      by_cases hc : c = d
      · subst hc
        rw [if_neg (not_not.mpr rfl), taken_self, line_cons_self, List.append_nil]
        exact congrArg some (Prod.ext hcontent₁ rfl)
      · have hrest : (supply s₁).content = w := hcontent₁
        rw [if_pos hc, ih hok₁, hrest, taken_cons hc, line_cons_of_ne hc, Option.map_map]
        congr 1
        funext r
        simp only [Function.comp, List.drop_succ_cons, List.append_assoc, List.singleton_append,
          Nat.add_assoc, Nat.add_comm 1]

/-! The loop with blocks -/

theorem getline_blocks_full {fuel : Nat} (hfuel : 0 < fuel) {nread : Nat}
    (hfull : max_size ≤ nread) (s : σ) (str : List α) :
    getline_blocks b d max_size fuel s str nread = some (s, str, nread, goodbit) := by
  obtain ⟨fuel, rfl⟩ := Nat.exists_eq_succ_of_ne_zero (Nat.ne_of_gt hfuel)
  exact if_neg (Nat.not_lt_of_le hfull)

/-- A round with an area in which there is no delimiter. -/
theorem getline_blocks_round (h : b.Source ok supply) (hok : ok s) (hlt : str.length < max_size)
    (hd : d ∉ (supply s).current) (fuel : Nat) :
    getline_blocks b d max_size (fuel + 1) s str str.length =
      let n := (supply s).current.length
      if max_size < str.length + n then none
      else (b.underflow (b.with_areas s
          { b.areas s with gcur := (b.areas s).gcur + (n : Nat) })).bind fun r =>
        if r.2.isNone then some (r.1, str ++ (supply s).current, str.length + n, eofbit)
        else getline_blocks b d max_size fuel r.1 (str ++ (supply s).current) (str.length + n) := by
  have hsize := area_size h hok
  obtain ⟨hend, hread⟩ := h.area s hok
  rw [getline_blocks, if_pos hlt]
  dsimp only
  rw [if_neg (by omega), hsize, Int.toNat_natCast, find_eq hread, if_neg hd, hread, hend]
  rfl

/-- A round with an area in which there is the delimiter. -/
theorem getline_blocks_found (h : b.Source ok supply) (hok : ok s) (hlt : str.length < max_size)
    (hcur : (supply s).current = cs ++ d :: w) (hd : d ∉ cs) (fuel : Nat) :
    getline_blocks b d max_size (fuel + 1) s str str.length =
      if max_size < str.length + cs.length then none
      else some (b.with_areas s
        { b.areas s with gcur := (b.areas s).gcur + (cs.length + 1 : Nat) },
        str ++ cs, str.length + (cs.length + 1), goodbit) := by
  have hsize := area_size h hok
  obtain ⟨hend, hread⟩ := h.area s hok
  have hmem : d ∈ (supply s).current := by
    rw [hcur]
    exact List.mem_append_right _ List.mem_cons_self
  have hall : ∀ x ∈ cs, decide (x ≠ d) = true := fun x hx => decide_eq_true fun heq => hd (heq ▸ hx)
  have hwhile : (supply s).current.takeWhile (· ≠ d) = cs := by
    rw [hcur, List.takeWhile_append_of_pos hall, List.takeWhile_cons_of_neg (by simp),
      List.append_nil]
  have hcs := read_source (k := cs.length) h hok (by rw [hcur, List.length_append]; omega)
  rw [hcur, List.take_left] at hcs
  rw [getline_blocks, if_pos hlt]
  dsimp only
  rw [if_neg (by omega), hsize, Int.toNat_natCast, find_eq hread, if_pos hmem, hwhile]
  simp only [Option.bind_eq_bind, Option.bind_some]
  rw [hcs]
  rfl

/-- An area without characters is not used up. -/
theorem getline_blocks_stuck (h : b.Source ok supply) (hok : ok s) (hlt : str.length < max_size)
    (hsingle : (supply s).single_next = true) (fuel : Nat) :
    getline_blocks b d max_size fuel s str str.length = none := by
  induction fuel generalizing s str with
  | zero => rfl
  | succ fuel ih =>
    have hcur : (supply s).current = [] := by
      by_contra hne
      rw [Supply.single_next_of_ne hne] at hsingle
      cases hsingle
    have hround := getline_blocks_round (d := d) h hok hlt (by rw [hcur]; exact List.not_mem_nil)
      fuel
    rcases Supply.cases_next hcur with hs | ⟨c, cs, next, hs⟩ | ⟨c, next, hs⟩
    · rw [hs] at hsingle
      cases hsingle
    · rw [hs] at hsingle
      cases hsingle
    · obtain ⟨hok₁, hsupply₁⟩ := h.skip s 0 hok (Nat.zero_le _)
      have hsupply₁ := hsupply₁.trans (Supply.skip_eq_drop (Nat.zero_le _))
      obtain ⟨s₂, hs₂, hok₂, hsupply₂⟩ := h.underflow _ hok₁ (by rw [hsupply₁, hs]; rfl)
      dsimp only at hround
      rw [hcur, List.length_nil, hs₂, hsupply₁, hs, if_neg (by omega)] at hround
      rw [hround]
      have hrec := ih hok₂ hlt (by rw [hsupply₂, hsupply₁, hs]; rfl)
      simpa [Supply.drop, Supply.content, Chunk.elems] using hrec

/-- An area without the delimiter, and more than fits into the string. -/
theorem taken_long (hd : d ∉ S.current) (hk : k < S.current.length) :
    taken (blocks_full d k S) d k S.content = none := by
  have hall : k ≤ S.content.length := by
    rw [Supply.content, List.length_append]
    omega
  have hnot : d ∉ S.content.take k := by
    rw [Supply.take_content (Nat.le_of_lt hk)]
    exact fun hmem => hd (List.mem_of_mem_take hmem)
  have hfull : (line d k S.content).length = k := by
    rw [line_of_not_mem hnot, List.length_take_of_le hall]
  have hcur : (S.drop k).current.isEmpty = false :=
    List.isEmpty_eq_false_iff.mpr (Supply.current_within hk)
  have hnext : S.content[k]? ≠ some d := by
    rw [Supply.content, List.getElem?_append_left hk]
    exact fun hmem => hd (List.mem_of_getElem? hmem)
  rw [taken, if_pos hfull, blocks_full, hcur, if_neg Bool.false_ne_true, if_neg hnext]

theorem line_found (hd : d ∉ cs) (k : Nat) : line d k (cs ++ d :: w) = cs.take k := by
  induction cs generalizing k with
  | nil => rw [List.nil_append, line_cons_self, List.take_nil]
  | cons c cs ih =>
    have hc : c ≠ d := fun heq => hd (heq ▸ List.mem_cons_self)
    cases k with
    | zero => rfl
    | succ k =>
      rw [List.cons_append, line_cons_of_ne hc, ih (fun hmem => hd (List.mem_cons_of_mem c hmem)),
        List.take_succ_cons]

/-- An area with the delimiter. -/
theorem taken_found (hcur : S.current = cs ++ d :: w) (hd : d ∉ cs) (k : Nat) :
    taken (blocks_full d k S) d k S.content =
      if k < cs.length then none else some (cs.length + 1, false) := by
  obtain ⟨v, hcontent⟩ : ∃ v, S.content = cs ++ d :: v := by
    rw [Supply.content, hcur, List.append_assoc, List.cons_append]
    exact ⟨_, rfl⟩
  have hlen : (line d k S.content).length = min k cs.length := by
    rw [hcontent, line_found hd, List.length_take]
  have hsize : S.current.length = cs.length + (w.length + 1) := by
    rw [hcur, List.length_append, List.length_cons]
  have hmore : S.content.length = cs.length + (v.length + 1) := by
    rw [hcontent, List.length_append, List.length_cons]
  unfold taken blocks_full
  rw [hlen]
  dsimp only
  rcases Nat.lt_or_ge cs.length k with hlt | hle
  · rw [if_neg (by omega), if_neg (by omega), if_neg (by omega), Nat.min_eq_right (by omega)]
  · have hcur' : (S.drop k).current.isEmpty = false :=
      List.isEmpty_eq_false_iff.mpr (Supply.current_within (by omega))
    rw [if_pos (by omega), hcur', if_neg Bool.false_ne_true, hcontent]
    rcases Nat.lt_or_eq_of_le hle with hlt | rfl
    · rw [if_pos hlt, if_neg]
      rw [List.getElem?_append_left hlt]
      exact fun hmem => hd (List.mem_of_getElem? hmem)
    · rw [if_neg (Nat.lt_irrefl _), if_pos]
      rw [List.getElem?_append_right (Nat.le_refl _), Nat.sub_self]
      rfl

/-- The area is used up, and others follow. -/
theorem taken_behind (hm : m ≤ S.content.length) (hd : d ∉ S.content.take m) (hk : 0 < k) :
    taken (blocks_full d (m + k) S) d (m + k) S.content =
      (taken (blocks_full d k (S.drop m).peek) d k (S.content.drop m)).map
        fun r => (m + r.1, r.2) := by
  have hlen : (S.content.take m).length = m := List.length_take_of_le hm
  have hcontent : (S.drop m).peek.content = S.content.drop m := by
    rw [Supply.content_peek, Supply.content_drop]
  have hall : m + (line d k (S.content.drop m)).length = S.content.length ↔
      (line d k (S.content.drop m)).length = (S.content.drop m).length := by
    rw [List.length_drop]
    omega
  have hend : S.content.length = m + k ↔ (S.content.drop m).length = k := by
    rw [List.length_drop]
    omega
  unfold taken blocks_full
  rw [line_add hd, hcontent, drop_behind S m hk, List.getElem?_drop]
  simp only [List.length_append, hlen, Nat.add_left_cancel_iff, hall, hend]
  split
  · split
    · rfl
    · split <;> rfl
  · split <;> rfl

/-- The area is used up, and is the last one. -/
theorem taken_end (hd : d ∉ S.current) (hk : S.current.length ≤ k)
    (hrest : S.content.drop S.current.length = []) :
    line d k S.content = S.current ∧
      taken (blocks_full d k S) d k S.content = some (S.current.length, true) := by
  obtain ⟨j, rfl⟩ := Nat.exists_eq_add_of_le hk
  have htake := Supply.take_content (Nat.le_refl S.current.length)
  rw [List.take_length] at htake
  have hall : S.content.length = S.current.length := by
    have hlen := congrArg List.length htake
    rw [List.length_take] at hlen
    have := List.drop_eq_nil_iff.mp hrest
    omega
  have hline : line d (S.current.length + j) S.content = S.current := by
    rw [line_add (by rwa [htake]), hrest, line_nil, htake, List.append_nil]
  refine ⟨hline, ?_⟩
  unfold taken blocks_full
  rw [hline]
  dsimp only
  split
  · next hfull =>
    rw [← hfull, Supply.current_used, hall]
    simp
  · rw [if_pos hall.symm]

/-- The delimiter is in the area. -/
theorem getline_blocks_area (h : b.Source ok supply) (hok : ok s) (hk : 0 < k)
    (hroom : str.length + k = max_size) (hmem : d ∈ (supply s).current) (fuel : Nat) :
    Unbroken k (line d k (supply s).content).length (supply s) ∧
      (getline_blocks b d max_size (fuel + 1) s str str.length).map
          (fun r => ((supply r.1).content, r.2)) =
        (taken (blocks_full d k (supply s)) d k (supply s).content).map fun r =>
          ((supply s).content.drop r.1, str ++ line d k (supply s).content, str.length + r.1,
            if r.2 then eofbit else goodbit) := by
  obtain ⟨cs, w, hw, hd⟩ := List.eq_append_cons_of_mem hmem
  have hmore : cs.length < (supply s).current.length := by
    rw [hw, List.length_append, List.length_cons]
    omega
  have hline : line d k (supply s).content = cs.take k := by
    rw [Supply.content, hw, List.append_assoc, List.cons_append, line_found hd]
  refine ⟨unbroken_area (.inr ?_), ?_⟩
  · rw [hline, List.length_take]
    omega
  · rw [getline_blocks_found h hok (by omega) hw hd, taken_found hw hd]
    by_cases hlong : k < cs.length
    · rw [if_pos hlong, if_pos (by omega)]
      rfl
    · have hall : cs.take k = cs := List.take_of_length_le (Nat.le_of_not_lt hlong)
      obtain ⟨-, hsupply₁⟩ := h.skip s (cs.length + 1) hok hmore
      rw [if_neg hlong, if_neg (by omega), Option.map_some, Option.map_some, hsupply₁,
        Supply.content_skip hmore, hline, hall]
      rfl

/-- The string is full, and the area is used up. -/
theorem taken_used (hd : d ∉ S.current) (hrest : S.content.drop S.current.length ≠ []) :
    line d S.current.length S.content = S.current ∧
      taken (blocks_full d S.current.length S) d S.current.length S.content =
        some (S.current.length, false) := by
  have htake : S.content.take S.current.length = S.current := by
    rw [Supply.take_content (Nat.le_refl _), List.take_length]
  have hnot : d ∉ S.content.take S.current.length := by rwa [htake]
  have hline : line d S.current.length S.content = S.current := by
    rw [line_of_not_mem hnot, htake]
  have hmore : S.content.length ≠ S.current.length := fun hlen =>
    hrest (List.drop_of_length_le (Nat.le_of_eq hlen))
  refine ⟨hline, ?_⟩
  rw [taken, hline, if_pos rfl, blocks_full, Supply.current_used, decide_eq_false hmore]
  rfl

/-- The induction is on the rounds. -/
theorem getline_blocks_eq (h : b.Source ok supply) (hok : ok s) (hcur : (supply s).current ≠ [])
    (hk : 0 < k) (hroom : str.length + k = max_size) (fuel : Nat) :
    (Unbroken k (line d k (supply s).content).length (supply s) →
      (supply s).content.length < fuel →
      (getline_blocks b d max_size fuel s str str.length).map
          (fun r => ((supply r.1).content, r.2)) =
        (taken (blocks_full d k (supply s)) d k (supply s).content).map fun r =>
          ((supply s).content.drop r.1, str ++ line d k (supply s).content, str.length + r.1,
            if r.2 then eofbit else goodbit)) ∧
    (¬Unbroken k (line d k (supply s).content).length (supply s) →
      getline_blocks b d max_size fuel s str str.length = none) := by
  induction fuel generalizing s k str with
  | zero => exact ⟨fun _ hfuel => absurd hfuel (Nat.not_lt_zero _), fun _ => rfl⟩
  | succ fuel ih =>
    have hlt : str.length < max_size := by omega
    have hsize : 0 < (supply s).current.length := List.length_pos_iff.mpr hcur
    by_cases hmem : d ∈ (supply s).current
    · obtain ⟨hunbroken, hrun⟩ := getline_blocks_area h hok hk hroom hmem fuel
      exact ⟨fun _ _ => hrun, fun hbroken => absurd hunbroken hbroken⟩
    · have hround := getline_blocks_round h hok hlt hmem fuel
      dsimp only at hround
      rw [hround]
      by_cases hlong : k < (supply s).current.length
      · -- the area does not fit into the string
        rw [if_pos (by omega), taken_long hmem hlong]
        exact ⟨fun _ _ => rfl, fun _ => rfl⟩
      · have hle := Nat.le_of_not_lt hlong
        obtain ⟨s₂, hs₂, hok₂, hsupply₂, hcontent₂⟩ := underflow_used h hok
        have htake : (supply s).content.take (supply s).current.length = (supply s).current := by
          rw [Supply.take_content (Nat.le_refl _), List.take_length]
        have hall := Supply.length_current_le (supply s)
        rw [if_neg (by omega), hs₂, Option.bind_some]
        simp only [Option.isNone_iff_eq_none, List.head?_eq_none_iff]
        by_cases hrest : (supply s).content.drop (supply s).current.length = []
        · obtain ⟨hline, htaken⟩ := taken_end hmem hle hrest
          rw [if_pos hrest, hline, htaken, Option.map_some, Option.map_some, hcontent₂]
          exact ⟨fun _ _ => rfl, fun hbroken => absurd (unbroken_end hrest) hbroken⟩
        · have hstr : str.length + (supply s).current.length =
              (str ++ (supply s).current).length := (List.length_append).symm
          rw [if_neg hrest, hstr]
          obtain ⟨j, hj⟩ : ∃ j, k = (supply s).current.length + j := Nat.exists_eq_add_of_le hle
          rcases Nat.eq_zero_or_pos j with rfl | hpos
          · -- the string is full
            obtain rfl : k = (supply s).current.length := hj
            obtain ⟨hline, hfull⟩ := taken_used hmem hrest
            refine ⟨fun _ hfuel => ?_,
              fun hbroken => absurd (unbroken_area (.inl (Nat.le_refl _))) hbroken⟩
            rw [getline_blocks_full (by omega) (by omega), hfull, hline, Option.map_some,
              Option.map_some, hcontent₂, hstr]
            rfl
          · subst hj
            have hnot : d ∉ (supply s).content.take (supply s).current.length := by rwa [htake]
            have hline := line_add hnot j
            have hlen := congrArg List.length hline
            rw [List.length_append, htake] at hlen
            by_cases hsingle : (supply s₂).current = []
            · -- the next character comes without an area
              have hnext : ((supply s).drop (supply s).current.length).single_next = true := by
                refine Supply.single_next_of_used (Supply.current_used _) ?_ (hsupply₂ ▸ hsingle)
                rwa [Supply.content_drop]
              refine ⟨fun h => ?_, fun _ => ?_⟩
              · exact absurd ((h (supply s).current.length (by omega) (by omega)).symm.trans hnext)
                  Bool.false_ne_true
              · refine getline_blocks_stuck h hok₂ (by omega) ?_ fuel
                rw [hsupply₂, Supply.single_next_peek, hnext]
            · have hroom' : (str ++ (supply s).current).length + j = max_size := by omega
              have hrec := ih hok₂ hsingle hpos hroom'
              rw [hcontent₂, hsupply₂] at hrec
              rw [hlen, unbroken_behind (by omega), Nat.add_sub_cancel_left,
                taken_behind hall hnot hpos, hline, htake, Option.map_map]
              refine ⟨fun hunbroken hfuel => ?_, hrec.2⟩
              rw [hrec.1 hunbroken (by rw [List.length_drop]; omega)]
              congr 1
              funext r
              simp only [Function.comp, List.drop_drop, List.append_assoc, ← hstr, Nat.add_assoc]

end

/-! ## 2. The stream -/

section

variable {α : Type} [DecidableEq α] {d : α} {k : Nat} {S : Supply α}

theorem length_line_full (hfull : (line d k S.content).length = k) {r : Nat × Bool}
    (hr : line_full d k S = some r) : k ≤ r.1 ∧ r.1 ≤ S.content.length := by
  have hle := (length_line_le d k S.content).2
  unfold line_full blocks_full at hr
  split at hr
  · split at hr
    · cases hr
      exact ⟨Nat.le_refl k, hfull ▸ hle⟩
    · split at hr
      · next hd =>
        cases hr
        exact ⟨Nat.le_succ k, (List.getElem?_eq_some_iff.mp hd).1⟩
      · cases hr
  · cases hr
    exact ⟨Nat.le_refl k, hfull ▸ hle⟩

end

section

variable {α : Type}

/-- What can be seen of a call decides what is left, the string, `nread` and what is set. -/
def line_marked (exceptions : Iostate) (max_size : Nat) (r : List α × List α × Nat × Iostate) :
    Iostate × List α × List α × Bool :=
  let m := marked exceptions r.2.2.2 (r.2.2.1 = 0 || r.2.2.1 ≥ max_size)
  (m.1, r.1, r.2.1, m.2)

/-- What can be seen of a call that takes characters. -/
def line_seen (exceptions : Iostate) (max_size : Nat) (w l : List α) (r : Nat × Bool) :
    Iostate × List α × List α × Bool :=
  line_marked exceptions max_size (w.drop r.1, l, r.1, if r.2 then eofbit else goodbit)

theorem line_seen_inj {exceptions : Iostate} {max_size : Nat} {w l : List α} {r r' : Nat × Bool}
    (hr : r.1 ≤ w.length) (hr' : r'.1 ≤ w.length)
    (h : line_seen exceptions max_size w l r = line_seen exceptions max_size w l r') : r = r' := by
  obtain ⟨hmarked, hrest⟩ := Prod.ext_iff.mp h
  have hleft := congrArg List.length (Prod.ext_iff.mp hrest).1
  dsimp only [line_seen, line_marked] at hmarked hleft
  rw [List.length_drop, List.length_drop] at hleft
  obtain hcount : r.1 = r'.1 := by omega
  rw [hcount] at hmarked
  exact Prod.ext hcount (end_bits_inj hmarked)

end

section

variable {ι σ α : Type} [DecidableEq α] {b : Streambuf σ α} {ok : σ → Prop}
  {supply : σ → Supply α} {throws : ι → Bool} {is : Istream ι σ} {s : σ} {d : α}
  {max_size fuel : Nat}

theorem getline_string_failed {is' : Istream ι σ} {threw : Bool}
    (hsentry : is.sentry throws none = some (is', threw)) (hbuf : is'.m_sbuf = some s)
    (hgood : is'.good = false) (str : List α) :
    (getline_string b d max_size throws fuel is str).map (seen supply) =
      some ((failed is' threw).1, (supply s).content, str, (failed is' threw).2) := by
  unfold getline_string failed
  rw [hsentry]
  simp only [Option.bind_eq_bind, Option.bind_some]
  cases threw with
  | true => exact congrArg some (Prod.ext rfl (Prod.ext (left_of_some hbuf) rfl))
  | false =>
    obtain ⟨f, hset⟩ := setstate_eq (hbuf ▸ Option.some_ne_none s) failbit
    rw [if_neg Bool.false_ne_true, hgood, if_neg Bool.false_ne_true, hset,
      if_neg Bool.false_ne_true, if_neg Bool.false_ne_true]
    exact congrArg some (Prod.ext rfl (Prod.ext (left_of_some hbuf) rfl))

/-- What can be seen of the loop decides what can be seen of the call. -/
theorem getline_string_passes (h : b.Source ok supply) (hok : ok s) (hbuf : is.m_sbuf = some s)
    (hread : is.Reads throws) (str : List α) :
    (getline_string b d max_size throws fuel is str).map (seen supply) =
      ((if 1 < (supply s).current.length then getline_blocks b d max_size fuel s [] 0
        else getline_chars b d max_size s [] 0).map fun r => ((supply r.1).content, r.2)).map
        (line_marked is.m_exceptions max_size) := by
  have hstate : is.m_state = goodbit := of_decide_eq_true hread.1
  have hlong : (b.areas s).gend - (b.areas s).gcur > 1 ↔ 1 < (supply s).current.length := by
    rw [area_size h hok]
    omega
  unfold getline_string
  rw [sentry_good hread.1 hread.2]
  simp only [Option.bind_eq_bind, Option.bind_some, Bool.false_eq_true, if_false, hread.1, if_true,
    hbuf, hlong]
  by_cases hlong₁ : 1 < (supply s).current.length
  · rw [if_pos hlong₁, if_pos hlong₁]
    cases getline_blocks b d max_size fuel s [] 0 with
    | none => rfl
    | some r =>
      exact marks_eq hstate r.1 r.2.2.2 (r.2.2.1 = 0 || r.2.2.1 ≥ max_size) fun threw =>
        (r.2.1, threw)
  · rw [if_neg hlong₁, if_neg hlong₁]
    cases getline_chars b d max_size s [] 0 with
    | none => rfl
    | some r =>
      exact marks_eq hstate r.1 r.2.2.2 (r.2.2.1 = 0 || r.2.2.1 ≥ max_size) fun threw =>
        (r.2.1, threw)

/-- The loops come to an end, or they do not. -/
theorem getline_string_read (h : b.Source ok supply) (hok : ok s) (hbuf : is.m_sbuf = some s)
    (hread : is.Reads throws) (hmax : 0 < max_size) (hfuel : (supply s).content.length < fuel)
    (str : List α) :
    let S := supply s
    (LineEnds d max_size S →
      (getline_string b d max_size throws fuel is str).map (seen supply) =
        (taken (line_full d max_size S) d max_size S.content).map
          (line_seen is.m_exceptions max_size S.content (line d max_size S.content))) ∧
    (¬LineEnds d max_size S →
      (getline_string b d max_size throws fuel is str).map (seen supply) = none) := by
  have hseen : line_seen is.m_exceptions max_size (supply s).content
      (line d max_size (supply s).content) = line_marked is.m_exceptions max_size ∘ fun r =>
        ((supply s).content.drop r.1, [] ++ line d max_size (supply s).content, 0 + r.1,
          if r.2 then eofbit else goodbit) := by
    funext r
    simp only [line_seen, Function.comp, List.nil_append, Nat.zero_add]
  dsimp only
  rw [getline_string_passes h hok hbuf hread, hseen, ← Option.map_map]
  unfold LineEnds line_full
  by_cases hlong : 1 < (supply s).current.length
  · have hcur : (supply s).current ≠ [] := List.length_pos_iff.mp (Nat.lt_of_succ_lt hlong)
    have hroom : ([] : List α).length + max_size = max_size := Nat.zero_add max_size
    obtain ⟨hends, hstuck⟩ := getline_blocks_eq (d := d) h hok hcur hmax hroom fuel
    rw [if_pos hlong, if_pos hlong, imp_iff_right hlong]
    refine ⟨fun hunbroken => ?_, fun hbroken => ?_⟩
    · exact congrArg _ (hends hunbroken hfuel)
    · rw [List.length_nil] at hstuck
      rw [hstuck hbroken]
      rfl
  · rw [if_neg hlong, if_neg hlong]
    refine ⟨fun _ => ?_, fun hnot => absurd (fun h => absurd h hlong) hnot⟩
    exact congrArg _ (getline_chars_eq h hok max_size [] 0)

end

section

variable {ι σ₁ σ₂ α : Type} [DecidableEq α] {b₁ : Streambuf σ₁ α} {b₂ : Streambuf σ₂ α}
  {ok₁ : σ₁ → Prop} {ok₂ : σ₂ → Prop} {supply₁ : σ₁ → Supply α} {supply₂ : σ₂ → Supply α}
  {throws : ι → Bool} {s₁ : σ₁} {s₂ : σ₂} {max_size fuel₁ fuel₂ : Nat}

theorem agree_map {β γ : Type} {x y : Option β} (f : β → γ) (h : Agree x y) :
    Agree (x.map f) (y.map f) := by
  obtain ⟨v, hx, hy⟩ := h
  exact ⟨f v, by rw [hx, Option.map_some], by rw [hy, Option.map_some]⟩

/-- The lines are read. -/
theorem getline_string_both (h₁ : b₁.Source ok₁ supply₁) (h₂ : b₂.Source ok₂ supply₂)
    (hok₁ : ok₁ s₁) (hok₂ : ok₂ s₂) (hcontent : (supply₁ s₁).content = (supply₂ s₂).content)
    (hmax : 0 < max_size) (hfuel₁ : (supply₁ s₁).content.length < fuel₁)
    (hfuel₂ : (supply₂ s₂).content.length < fuel₂) {is : Istream ι Unit}
    (hread : is.Reads throws) (d : α) (str : List α) :
    Agree ((getline_string b₁ d max_size throws fuel₁ (is.on s₁) str).map (seen supply₁))
      ((getline_string b₂ d max_size throws fuel₂ (is.on s₂) str).map (seen supply₂)) ↔
      SameLine d max_size (supply₁ s₁) (supply₂ s₂) := by
  have hread₁ : (is.on s₁).Reads throws := hread
  have hread₂ : (is.on s₂).Reads throws := hread
  obtain ⟨hends₁, hstuck₁⟩ := getline_string_read (d := d) h₁ hok₁ rfl hread₁ hmax hfuel₁ str
  obtain ⟨hends₂, hstuck₂⟩ := getline_string_read (d := d) h₂ hok₂ rfl hread₂ hmax hfuel₂ str
  rw [← hcontent] at hends₂
  constructor
  · intro hagree
    have hhalts₁ : LineEnds d max_size (supply₁ s₁) := by
      by_contra hnot
      exact not_agree_none (.inl (hstuck₁ hnot)) hagree
    have hhalts₂ : LineEnds d max_size (supply₂ s₂) := by
      by_contra hnot
      exact not_agree_none (.inr (hstuck₂ hnot)) hagree
    refine ⟨hhalts₁, hhalts₂, fun hfull => ?_⟩
    rw [hends₁ hhalts₁, hends₂ hhalts₂, taken, taken, if_pos hfull, if_pos hfull] at hagree
    obtain ⟨v, hv₁, hv₂⟩ := hagree
    obtain ⟨r₁, hr₁, hseen₁⟩ := Option.map_eq_some_iff.mp hv₁
    obtain ⟨r₂, hr₂, hseen₂⟩ := Option.map_eq_some_iff.mp hv₂
    have hle₁ := (length_line_full hfull hr₁).2
    have hle₂ := (length_line_full (hcontent ▸ hfull) hr₂).2
    obtain rfl := line_seen_inj hle₁ (hcontent ▸ hle₂) (hseen₁.trans hseen₂.symm)
    exact ⟨r₁, hr₁, hr₂⟩
  · intro h
    rw [hends₁ h.ends₁, hends₂ h.ends₂]
    refine agree_map _ ?_
    unfold taken
    dsimp only
    split
    · next hfull => exact h.full hfull
    · exact ⟨_, rfl, rfl⟩

end

end StringLinesLemmas

open StringLinesLemmas StringExtractionLemmas IstreamLemmas

/-- When the line does not depend on how the characters are divided. -/
theorem getline_string_same {ι σ₁ σ₂ α : Type} [DecidableEq α] {b₁ : Streambuf σ₁ α}
    {b₂ : Streambuf σ₂ α} {ok₁ : σ₁ → Prop} {ok₂ : σ₂ → Prop} {supply₁ : σ₁ → Supply α}
    {supply₂ : σ₂ → Supply α} (h₁ : b₁.Source ok₁ supply₁) (h₂ : b₂.Source ok₂ supply₂)
    {s₁ : σ₁} {s₂ : σ₂} (hok₁ : ok₁ s₁) (hok₂ : ok₂ s₂)
    (hcontent : (supply₁ s₁).content = (supply₂ s₂).content) {fuel₁ fuel₂ : Nat}
    (hfuel₁ : (supply₁ s₁).content.length < fuel₁) (hfuel₂ : (supply₂ s₂).content.length < fuel₂)
    {max_size : Nat} (hmax : 0 < max_size) (throws : ι → Bool) (is : Istream ι Unit) (d : α)
    (str : List α) :
    Agree ((getline_string b₁ d max_size throws fuel₁ (is.on s₁) str).map (seen supply₁))
      ((getline_string b₂ d max_size throws fuel₂ (is.on s₂) str).map (seen supply₂)) ↔
      (is.Reads throws → SameLine d max_size (supply₁ s₁) (supply₂ s₂)) := by
  by_cases hread : is.Reads throws
  · rw [imp_iff_right hread]
    exact getline_string_both h₁ h₂ hok₁ hok₂ hcontent hmax hfuel₁ hfuel₂ hread d str
  · refine iff_of_true ?_ fun h => absurd h hread
    have hread₁ : ¬(is.on s₁).Reads throws := hread
    have hread₂ : ¬(is.on s₂).Reads throws := hread
    obtain ⟨is₁, threw₁, hsentry₁, hbuf₁, hgood₁, hfailed₁⟩ := sentry_unread rfl hread₁ none
    obtain ⟨is₂, threw₂, hsentry₂, hbuf₂, hgood₂, hfailed₂⟩ := sentry_unread rfl hread₂ none
    refine (agree_some (getline_string_failed hsentry₁ hbuf₁ hgood₁ str)
      (getline_string_failed hsentry₂ hbuf₂ hgood₂ str)).mpr ?_
    rw [hfailed₁, hfailed₂, unread_on, hcontent]

/-- When strings and lines do not depend on how the characters are divided. -/
theorem strings_same_iff {ι σ₁ σ₂ α : Type} [DecidableEq α] {b₁ : Streambuf σ₁ α}
    {b₂ : Streambuf σ₂ α} {ok₁ : σ₁ → Prop} {ok₂ : σ₂ → Prop} {supply₁ : σ₁ → Supply α}
    {supply₂ : σ₂ → Supply α} {early₁ early₂ : Supply α → Supply α × Option α}
    {back₁ back₂ : Supply α → Bool} (h₁ : b₁.Backs ok₁ supply₁ early₁ back₁)
    (h₂ : b₂.Backs ok₂ supply₂ early₂ back₂) {s₁ : σ₁} {s₂ : σ₂} (hok₁ : ok₁ s₁) (hok₂ : ok₂ s₂)
    (hcontent : (supply₁ s₁).content = (supply₂ s₂).content) {fuel₁ fuel₂ : Nat}
    (hfuel₁ : (supply₁ s₁).content.length < fuel₁) (hfuel₂ : (supply₂ s₂).content.length < fuel₂)
    {max_size : Nat} (hmax : 0 < max_size) (is_space : α → Bool) (throws : ι → Bool)
    (is : Istream ι Unit) (width : BitVec 64) (d : α) (str : List α) :
    (Agree ((extract_string b₁ is_space throws max_size fuel₁ (is.on s₁) width str).map
          (seen supply₁))
        ((extract_string b₂ is_space throws max_size fuel₂ (is.on s₂) width str).map
          (seen supply₂)) ↔
      (is.Reads throws → refused max_size width = false →
        SameString is_space early₁ early₂ back₁ back₂ max_size (at_most width)
          (is.skipped is_space (supply₁ s₁)) (is.skipped is_space (supply₂ s₂)))) ∧
    (Agree ((getline_string b₁ d max_size throws fuel₁ (is.on s₁) str).map (seen supply₁))
        ((getline_string b₂ d max_size throws fuel₂ (is.on s₂) str).map (seen supply₂)) ↔
      (is.Reads throws → SameLine d max_size (supply₁ s₁) (supply₂ s₂))) :=
  ⟨extract_string_same h₁ h₂ hok₁ hok₂ hcontent hfuel₁ hfuel₂ is_space throws max_size is width str,
    getline_string_same h₁.toSource h₂.toSource hok₁ hok₂ hcontent hfuel₁ hfuel₂ hmax throws is d
      str⟩

/-- The word is as long as the width, and ends with the area. -/
theorem strings_same_iff_example :
    let s₁ := (Pipe.new [] []).place ['a', 'b'] [.area 'c' []]
    let s₂ := Pipe.new [] [.single 'a', .single 'b', .single 'c']
    let is : Istream Unit Unit := ⟨⟨skipws, none, goodbit, goodbit, none⟩, 0⟩
    Agree ((extract_string Pipe.buf (· == ' ') (fun _ => false) 9 9 (is.on s₁) 2 []).map
          (seen Pipe.supply))
        ((extract_string Pipe.buf (· == ' ') (fun _ => false) 9 9 (is.on s₂) 2 []).map
          (seen Pipe.supply)) ∧
      Agree ((getline_string Pipe.buf 'c' 9 (fun _ => false) 9 (is.on s₁) []).map
          (seen Pipe.supply))
        ((getline_string Pipe.buf 'c' 9 (fun _ => false) 9 (is.on s₂) []).map
          (seen Pipe.supply)) := by
  intro s₁ s₂ is
  have hok₁ : s₁.Uniform := by
    refine ⟨⟨?_, by decide, by decide⟩, .inl fun c hmem => ?_⟩
    · exact ⟨by decide, by decide, by decide, by decide, by decide, by decide⟩
    · cases List.mem_singleton.mp hmem
  have hok₂ : s₂.Uniform := by
    refine ⟨⟨Pipe.ok_new (by decide) (by decide), by decide, by decide⟩,
      .inr ⟨rfl, fun c cs hmem => ?_⟩⟩
    simp [s₂, Pipe.new] at hmem
  have hfuel₁ : s₁.supply.content.length < 9 := by decide
  have hfuel₂ : s₂.supply.content.length < 9 := by decide
  have hmax : 0 < 9 := by decide
  obtain ⟨hstring, hline⟩ := strings_same_iff Pipe.buf_backs Pipe.buf_backs hok₁ hok₂ (by decide)
    hfuel₁ hfuel₂ hmax (· == ' ') (fun _ => false) is 2 'c' []
  refine ⟨hstring.mpr fun _ _ => ?_, hline.mpr fun _ => ?_⟩
  · refine ⟨by decide, fun _ => by decide, fun hlong => ?_, fun _ => by decide, fun hlt => ?_⟩
    · exact absurd hlong (by decide)
    · exact absurd hlt (by decide)
  · refine ⟨fun _ => by decide, fun hlong => ?_, fun hfull => ?_⟩
    · exact absurd hlong (by decide)
    · exact absurd hfull (by decide)

/-- The end is noticed behind an area only, and behind an area there is no other. -/
theorem not_strings_same :
    let s₁ := (Pipe.new [] []).place ['a', 'b'] []
    let s₂ := Pipe.new [] [.single 'a', .single 'b']
    let s₃ := (Pipe.new [] []).place ['a', 'b'] [.single 'c']
    let s₄ := Pipe.new [] [.single 'a', .single 'b', .single 'c']
    let is : Istream Unit Unit := ⟨⟨skipws, none, goodbit, goodbit, none⟩, 0⟩
    ¬Agree ((extract_string Pipe.buf (· == ' ') (fun _ => false) 9 9 (is.on s₁) 2 []).map
          (seen Pipe.supply))
        ((extract_string Pipe.buf (· == ' ') (fun _ => false) 9 9 (is.on s₂) 2 []).map
          (seen Pipe.supply)) ∧
      ¬Agree ((getline_string Pipe.buf 'c' 9 (fun _ => false) 9 (is.on s₃) []).map
          (seen Pipe.supply))
        ((getline_string Pipe.buf 'c' 9 (fun _ => false) 9 (is.on s₄) []).map
          (seen Pipe.supply)) := by
  intro s₁ s₂ s₃ s₄ is
  constructor
  · have hstate₁ : (extract_string Pipe.buf (· == ' ') (fun _ => false) 9 9 (is.on s₁) 2 []).map
        (fun r => (seen Pipe.supply r).1) = some eofbit := by decide
    have hstate₂ : (extract_string Pipe.buf (· == ' ') (fun _ => false) 9 9 (is.on s₂) 2 []).map
        (fun r => (seen Pipe.supply r).1) = some goodbit := by decide
    rintro ⟨v, hv₁, hv₂⟩
    have heq := congrArg (Option.map Prod.fst) (hv₁.trans hv₂.symm)
    rw [Option.map_map, Option.map_map] at heq
    exact absurd (hstate₁.symm.trans (heq.trans hstate₂)) (by decide)
  · have hok₃ : s₃.Ok :=
      ⟨by decide, by decide, by decide, by decide, by decide, by decide⟩
    have hok₄ : s₄.Ok := Pipe.ok_new (by decide) (by decide)
    intro hagree
    have hsame := (getline_string_same Pipe.buf_source Pipe.buf_source hok₃ hok₄ (by decide)
      (by decide) (by decide) (by decide) _ is 'c' []).mp hagree ⟨rfl, rfl⟩
    exact absurd (hsame.ends₁ (by decide)) (by decide)

end Kuhllib.Cxxrt
