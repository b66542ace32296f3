import Kuhllib.Cxxrt.BlockTransfer

/-!
# Sources

A buffer that is read gives the characters of a supply: those of the get area, then those that
`underflow` makes available, as an area or as a single character without one. `underflow` is only
called where the get area is used up.

Results:
1. `sgetc_source`, `sbumpc_source`, `snextc_source`: single calls.
2. `find_eq`, `skip_ws_source`: looking for a character, and skipping spaces.
3. `Pipe.buf_source`: the device is a source.
-/

namespace Kuhllib.Cxxrt

/-- The buffer gives the characters of a supply. -/
structure Streambuf.Source {σ α : Type} (b : Streambuf σ α) (ok : σ → Prop)
    (supply : σ → Supply α) : Prop where
  areas_with : ∀ s a, b.areas (b.with_areas s a) = a
  load_with : ∀ s a p, b.load (b.with_areas s a) p = b.load s p
  area : ∀ s, ok s → (b.areas s).gend = (b.areas s).gcur + (supply s).current.length ∧
    b.read_chars s (b.areas s).gcur (supply s).current.length = some (supply s).current
  skip : ∀ s k, ok s → k ≤ (supply s).current.length →
    ok (b.with_areas s { b.areas s with gcur := (b.areas s).gcur + k }) ∧
    supply (b.with_areas s { b.areas s with gcur := (b.areas s).gcur + k }) = (supply s).skip k
  underflow : ∀ s, ok s → (supply s).current = [] → ∃ s',
    b.underflow s = some (s', (supply s).content.head?) ∧ ok s' ∧ supply s' = (supply s).fill
  uflow : ∀ s, ok s → (supply s).current = [] → ∃ s',
    b.uflow s = some (s', (supply s).content.head?) ∧ ok s' ∧ supply s' = (supply s).bump

section

variable {σ α : Type} [DecidableEq α] (b : Streambuf σ α)

/-- `traits_type::find(p, n, c)`; how far behind `p` the character is. -/
def find (s : σ) (c : α) (p : Int) : Nat → Option (Option Nat)
  | 0 => some none
  | n + 1 => do
    let x ← b.load s p
    if x = c then some (some 0)
    else do
      let r ← find s c (p + 1) n
      some (r.map (· + 1))

end

section

variable {σ α : Type} (b : Streambuf σ α) (is_space : α → Bool)

/-- The loop of `_CS_skip_ws` with the current character. -/
def Streambuf.skip_ws_loop : Nat → σ → Option α → Option (σ × Bool)
  | 0, _, _ => none
  | fuel + 1, s, c =>
    match c with
    | none => some (s, true)
    | some c =>
      if is_space c then do
        let (s, c) ← b.snextc s
        skip_ws_loop fuel s c
      else some (s, false)

/-- `_CS_skip_ws`, and whether it finds the end. -/
def Streambuf.skip_ws (fuel : Nat) (s : σ) : Option (σ × Bool) := do
  let (s, c) ← b.sgetc s
  b.skip_ws_loop is_space fuel s c

end

namespace SourcesLemmas

open BlockTransferLemmas StringbufLemmas

section

variable {σ α : Type} {b : Streambuf σ α} {ok : σ → Prop} {supply : σ → Supply α} {s : σ}

/-! ## 1. Single calls -/

theorem read_chars_take {p : Int} {n k : Nat} {cs : List α} (h : b.read_chars s p n = some cs)
    (hk : k ≤ n) : b.read_chars s p k = some (cs.take k) := by
  induction k generalizing p n cs with
  | zero => rfl
  | succ k ih =>
    cases n with
    | zero => cases hk
    | succ n =>
      rw [Streambuf.read_chars] at h ⊢
      obtain ⟨c, hc, hrest⟩ := Option.bind_eq_some_iff.mp h
      obtain ⟨ds, hds, heq⟩ := Option.bind_eq_some_iff.mp hrest
      cases heq
      rw [hc, List.take_succ_cons]
      simp only [Option.bind_eq_bind, Option.bind_some]
      rw [ih hds (Nat.le_of_succ_le_succ hk)]
      rfl

theorem read_with (h : b.Source ok supply) (a : Areas) (p : Int) (k : Nat) :
    b.read_chars (b.with_areas s a) p k = b.read_chars s p k := by
  induction k generalizing p with
  | zero => rfl
  | succ k ih => rw [Streambuf.read_chars, Streambuf.read_chars, h.load_with, ih]

theorem load_chars {p : Int} {n k : Nat} {cs : List α} (h : b.read_chars s p n = some cs)
    (hk : k < n) : b.load s (p + k) = cs[k]? := by
  induction k generalizing p n cs with
  | zero =>
    obtain ⟨n, rfl⟩ := Nat.exists_eq_succ_of_ne_zero (Nat.ne_of_gt hk)
    rw [Streambuf.read_chars] at h
    obtain ⟨c, hc, hrest⟩ := Option.bind_eq_some_iff.mp h
    obtain ⟨ds, -, heq⟩ := Option.bind_eq_some_iff.mp hrest
    cases heq
    rw [Nat.cast_zero, Int.add_zero, hc]
    rfl
  | succ k ih =>
    obtain ⟨n, rfl⟩ := Nat.exists_eq_succ_of_ne_zero (Nat.ne_of_gt (Nat.zero_lt_of_lt hk))
    rw [Streambuf.read_chars] at h
    obtain ⟨c, -, hrest⟩ := Option.bind_eq_some_iff.mp h
    obtain ⟨ds, hds, heq⟩ := Option.bind_eq_some_iff.mp hrest
    cases heq
    rw [← shift, ih hds (Nat.lt_of_succ_lt_succ hk)]
    rfl

/-- Characters of the area. -/
theorem read_source (h : b.Source ok supply) (hok : ok s) {k : Nat}
    (hk : k ≤ (supply s).current.length) :
    b.read_chars s (b.areas s).gcur k = some ((supply s).current.take k) :=
  read_chars_take (h.area s hok).2 hk

theorem load_source (h : b.Source ok supply) (hok : ok s) {c : α} {cs : List α}
    (hc : (supply s).current = c :: cs) : b.load s (b.areas s).gcur = some c := by
  have hread := read_source h hok (k := 1) (by rw [hc]; exact Nat.succ_pos _)
  rw [Streambuf.read_chars, hc] at hread
  obtain ⟨x, hx, hrest⟩ := Option.bind_eq_some_iff.mp hread
  cases hrest
  exact hx

theorem empty_iff (h : b.Source ok supply) (hok : ok s) :
    (b.areas s).gcur = (b.areas s).gend ↔ (supply s).current = [] := by
  rw [(h.area s hok).1, ← List.length_eq_zero_iff]
  omega

theorem area_size (h : b.Source ok supply) (hok : ok s) :
    (b.areas s).gend - (b.areas s).gcur = (supply s).current.length := by
  rw [(h.area s hok).1, add_sub_cancel_left]

theorem head_content {S : Supply α} {c : α} {cs : List α} (h : S.current = c :: cs) :
    S.content.head? = some c := by
  rw [Supply.content, h]
  rfl

theorem sgetc_source (h : b.Source ok supply) (hok : ok s) : ∃ s',
    b.sgetc s = some (s', (supply s).content.head?) ∧ ok s' ∧ supply s' = (supply s).peek := by
  unfold Streambuf.sgetc
  cases hc : (supply s).current with
  | nil =>
    rw [if_pos ((empty_iff h hok).mpr hc).symm, Supply.peek_of_nil hc]
    exact h.underflow s hok hc
  | cons c cs =>
    have hne : (supply s).current ≠ [] := hc ▸ List.cons_ne_nil c cs
    rw [if_neg fun he => hne ((empty_iff h hok).mp he.symm), load_source h hok hc,
      head_content hc, Supply.peek_of_ne hne]
    exact ⟨s, rfl, hok, rfl⟩

/-- `underflow` is called when the area is used up. -/
theorem underflow_used (h : b.Source ok supply) (hok : ok s) : ∃ s',
    b.underflow (b.with_areas s { b.areas s with
        gcur := (b.areas s).gcur + ((supply s).current.length : Nat) }) =
      some (s', ((supply s).content.drop (supply s).current.length).head?) ∧ ok s' ∧
    supply s' = ((supply s).drop (supply s).current.length).peek ∧
    (supply s').content = (supply s).content.drop (supply s).current.length := by
  have hused := Supply.current_used (supply s)
  obtain ⟨hok₁, hsupply₁⟩ := h.skip s (supply s).current.length hok (Nat.le_refl _)
  rw [Supply.skip_eq_drop (Nat.le_refl _)] at hsupply₁
  obtain ⟨s', hs', hok', hsupply'⟩ := h.underflow _ hok₁ (by rw [hsupply₁, hused])
  rw [hsupply₁] at hs' hsupply'
  rw [← Supply.peek_of_nil hused] at hsupply'
  rw [Supply.content_drop] at hs'
  refine ⟨s', hs', hok', hsupply', ?_⟩
  rw [hsupply', Supply.content_peek, Supply.content_drop]

theorem bump_of_cons {S : Supply α} {c : α} {cs : List α} (h : S.current = c :: cs) :
    S.skip 1 = S.bump := by
  obtain ⟨current, next⟩ := S
  cases h
  rfl

theorem sbumpc_source (h : b.Source ok supply) (hok : ok s) : ∃ s',
    b.sbumpc s = some (s', (supply s).content.head?) ∧ ok s' ∧ supply s' = (supply s).bump := by
  unfold Streambuf.sbumpc
  cases hc : (supply s).current with
  | nil =>
    rw [if_neg (not_not.mpr ((empty_iff h hok).mpr hc))]
    exact h.uflow s hok hc
  | cons c cs =>
    have hne : (supply s).current ≠ [] := hc ▸ List.cons_ne_nil c cs
    obtain ⟨hok', hsupply⟩ := h.skip s 1 hok (by rw [hc]; exact Nat.succ_pos _)
    rw [if_pos fun he => hne ((empty_iff h hok).mp he), load_source h hok hc, head_content hc]
    exact ⟨_, rfl, hok', hsupply.trans (bump_of_cons hc)⟩

theorem snextc_source (h : b.Source ok supply) (hok : ok s) : ∃ s',
    b.snextc s = some (s', (supply s).content.tail.head?) ∧ ok s' ∧
      supply s' = (supply s).bump.peek := by
  unfold Streambuf.snextc
  dsimp only
  rw [area_size h hok]
  cases hc : (supply s).current with
  | nil =>
    obtain ⟨s₁, hs₁, hok₁, hsupply₁⟩ := sbumpc_source h hok
    obtain ⟨s₂, hs₂, hok₂, hsupply₂⟩ := sgetc_source h hok₁
    rw [hsupply₁, Supply.content_bump] at hs₂
    rw [if_pos (by rfl), hs₁]
    cases hhead : (supply s).content with
    | nil =>
      have hend : supply s = ⟨[], []⟩ := by
        rcases Supply.cases_next hc with hs | ⟨c, cs, next, hs⟩ | ⟨c, next, hs⟩
        · exact hs
        · rw [hs] at hhead
          cases hhead
        · rw [hs] at hhead
          cases hhead
      refine ⟨s₁, rfl, hok₁, ?_⟩
      rw [hsupply₁, hend]
      rfl
    | cons c cs =>
      rw [hhead] at hs₂
      refine ⟨s₂, ?_, hok₂, hsupply₂.trans (by rw [hsupply₁])⟩
      simp only [Option.bind_eq_bind, Option.bind_some, List.head?_cons, Option.isNone_some,
        Bool.false_eq_true, if_false]
      exact hs₂
  | cons c cs =>
    obtain ⟨hok₁, hsupply₁⟩ := h.skip s 1 hok (by rw [hc]; exact Nat.succ_pos _)
    have hbump : (b.areas s).gbump 1 = { b.areas s with gcur := (b.areas s).gcur + (1 : Nat) } :=
      gbump_eq ⟨by decide, by decide⟩
    rw [← hbump, bump_of_cons hc] at hsupply₁
    rw [← hbump] at hok₁
    have hne : ((c :: cs).length : Int) ≠ 0 := Int.natCast_ne_zero.mpr (Nat.succ_ne_zero _)
    rw [if_neg hne]
    split
    · obtain ⟨s₂, hs₂, hok₂, hsupply₂⟩ := sgetc_source h hok₁
      rw [hsupply₁, Supply.content_bump] at hs₂
      exact ⟨s₂, hs₂, hok₂, hsupply₂.trans (by rw [hsupply₁])⟩
    · next hlen =>
      cases cs with
      | nil => exact absurd rfl hlen
      | cons d ds =>
        have hcurrent : (supply s).bump.current = d :: ds := by
          rw [← bump_of_cons hc, Supply.skip, hc]
          rfl
        have hload := load_source h hok₁ (hsupply₁ ▸ hcurrent)
        rw [hload]
        refine ⟨_, ?_, hok₁, ?_⟩
        · rw [← Supply.content_bump, head_content hcurrent]
          rfl
        · rw [hsupply₁, Supply.peek_of_ne (hcurrent ▸ List.cons_ne_nil d ds)]

/-! ## 2. Loops -/

theorem find_eq [DecidableEq α] {c : α} {p : Int} {n : Nat} {cs : List α}
    (h : b.read_chars s p n = some cs) :
    find b s c p n = some (if c ∈ cs then some (cs.takeWhile (· ≠ c)).length else none) := by
  induction n generalizing p cs with
  | zero =>
    cases h
    rw [if_neg List.not_mem_nil]
    rfl
  | succ n ih =>
    rw [Streambuf.read_chars] at h
    obtain ⟨x, hx, hrest⟩ := Option.bind_eq_some_iff.mp h
    obtain ⟨ds, hds, heq⟩ := Option.bind_eq_some_iff.mp hrest
    cases heq
    rw [find, hx]
    simp only [Option.bind_eq_bind, Option.bind_some]
    by_cases hxc : x = c
    · rw [if_pos hxc, if_pos (hxc ▸ List.mem_cons_self), List.takeWhile_cons_of_neg (by simpa)]
      rfl
    · rw [if_neg hxc, ih hds, List.takeWhile_cons_of_pos (by simpa)]
      by_cases hmem : c ∈ ds
      · rw [if_pos hmem, if_pos (List.mem_cons_of_mem _ hmem)]
        rfl
      · have hnot : c ∉ x :: ds := fun hc => (List.mem_cons.mp hc).elim (fun he => hxc he.symm) hmem
        rw [if_neg hmem, if_neg hnot]
        rfl

theorem skip_ws_loop_source (h : b.Source ok supply) (hok : ok s) (is_space : α → Bool)
    {fuel : Nat} {S : Supply α} (hS : supply s = S.peek) (hfuel : S.content.length < fuel) :
    ∃ s', b.skip_ws_loop is_space fuel s S.content.head? =
        some (s', (S.content.dropWhile is_space).isEmpty) ∧ ok s' ∧
      supply s' = (S.drop (S.content.takeWhile is_space).length).peek := by
  induction fuel generalizing s S with
  | zero => cases hfuel
  | succ fuel ih =>
    cases hw : S.content with
    | nil => exact ⟨s, rfl, hok, hS⟩
    | cons c w =>
      rw [List.head?_cons, Streambuf.skip_ws_loop]
      dsimp only
      cases hc : is_space c with
      | false =>
        rw [List.dropWhile_cons_of_neg (Bool.eq_false_iff.mp hc),
          List.takeWhile_cons_of_neg (Bool.eq_false_iff.mp hc)]
        exact ⟨s, rfl, hok, hS⟩
      | true =>
        obtain ⟨s₁, hs₁, hok₁, hsupply₁⟩ := snextc_source h hok
        rw [hS, Supply.content_peek, ← Supply.content_bump] at hs₁
        rw [hS, Supply.bump_peek] at hsupply₁
        have hrest : S.bump.content = w := by
          rw [Supply.content_bump, hw]
          rfl
        rw [hw] at hfuel
        obtain ⟨s', hloop, hok', hsupply'⟩ :=
          ih hok₁ hsupply₁ (hrest ▸ Nat.lt_of_succ_lt_succ hfuel)
        rw [hrest] at hloop hs₁ hsupply'
        rw [if_pos rfl, hs₁, List.dropWhile_cons_of_pos hc, List.takeWhile_cons_of_pos hc]
        exact ⟨s', hloop, hok', hsupply'⟩

/-- The spaces at the beginning are skipped. -/
theorem skip_ws_source (h : b.Source ok supply) (hok : ok s) (is_space : α → Bool) {fuel : Nat}
    (hfuel : (supply s).content.length < fuel) : ∃ s', b.skip_ws is_space fuel s =
        some (s', ((supply s).content.dropWhile is_space).isEmpty) ∧ ok s' ∧
      supply s' = ((supply s).drop ((supply s).content.takeWhile is_space).length).peek := by
  obtain ⟨s₁, hs₁, hok₁, hsupply₁⟩ := sgetc_source h hok
  rw [Streambuf.skip_ws, hs₁]
  exact skip_ws_loop_source h hok₁ is_space hsupply₁ hfuel

end

end SourcesLemmas

/-! ## 3. The device -/

namespace Pipe

open SourcesLemmas

variable {α : Type} {s : Pipe α}

/-- The characters from an address on. -/
def chars (memory : Int → α) (p : Int) (k : Nat) : List α :=
  (List.range k).map fun i : Nat => memory (p + i)

/-- What is left. -/
def supply (s : Pipe α) : Supply α where
  current := chars s.memory s.areas.gcur (s.areas.gend - s.areas.gcur).toNat
  next := s.chunks

theorem length_chars (memory : Int → α) (p : Int) (k : Nat) : (chars memory p k).length = k := by
  rw [chars, List.length_map, List.length_range]

theorem getElem_chars (memory : Int → α) (p : Int) {k i : Nat}
    (hi : i < (chars memory p k).length) :
    (chars memory p k)[i] = memory (p + i) := by simp [chars]

theorem chars_succ (memory : Int → α) (p : Int) (k : Nat) :
    chars memory p (k + 1) = memory p :: chars memory (p + 1) k := by
  rw [chars, List.range_succ_eq_map, List.map_cons, List.map_map, Nat.cast_zero, Int.add_zero]
  congr 2
  funext i
  rw [Function.comp_apply, BlockTransferLemmas.shift]

theorem drop_chars (memory : Int → α) (p : Int) (j k : Nat) :
    (chars memory p (j + k)).drop j = chars memory (p + j) k := by
  induction j generalizing p with
  | zero => rw [Nat.zero_add, Nat.cast_zero, Int.add_zero, List.drop_zero]
  | succ j ih =>
    rw [Nat.add_right_comm, chars_succ, List.drop_succ_cons, ih, BlockTransferLemmas.shift]

theorem read_chars_eq (s : Pipe α) (p : Int) (k : Nat) :
    buf.read_chars s p k = some (chars s.memory p k) := by
  induction k generalizing p with
  | zero => rfl
  | succ k ih =>
    rw [Streambuf.read_chars, ih, chars_succ]
    rfl

theorem chars_place (s : Pipe α) (cs : List α) (chunks : List (Chunk α)) :
    chars (s.place cs chunks).memory (-cs.length) cs.length = cs := by
  refine List.ext_getElem (length_chars ..) fun i hi hi' => ?_
  rw [getElem_chars]
  show (if 0 ≤ (-(cs.length : Int) + i) + cs.length then
    cs[((-(cs.length : Int) + i) + cs.length).toNat]? else none).getD _ = cs[i]
  rw [neg_add_cancel_comm, if_pos (Int.natCast_nonneg i), Int.toNat_natCast,
    List.getElem?_eq_getElem hi', Option.getD_some]

theorem supply_place (s : Pipe α) (cs : List α) (chunks : List (Chunk α)) :
    (s.place cs chunks).supply = ⟨cs, chunks⟩ := by
  have hsize : ((0 : Int) - -cs.length).toNat = cs.length := by omega
  show Supply.mk (chars _ (-cs.length) ((0 : Int) - -cs.length).toNat) chunks = _
  rw [hsize, chars_place]

/-- Behind the first characters of the area. -/
theorem supply_skip {k : Nat} (hk : k ≤ s.supply.current.length) :
    supply { s with areas := { s.areas with gcur := s.areas.gcur + k } } = s.supply.skip k := by
  have hle : k ≤ (s.areas.gend - s.areas.gcur).toNat := by rwa [supply, length_chars] at hk
  have hsize : (s.areas.gend - s.areas.gcur).toNat =
      k + (s.areas.gend - (s.areas.gcur + k)).toNat := by omega
  unfold Supply.skip supply
  dsimp only
  rw [hsize, drop_chars]

theorem supply_bump {c : α} {cs : List α} {chunks : List (Chunk α)}
    (hs : s.supply = ⟨c :: cs, chunks⟩) :
    supply { s with areas := { s.areas with gcur := s.areas.gcur + 1 } } = ⟨cs, chunks⟩ := by
  have hskip := supply_skip (s := s) (k := 1) (by rw [hs]; exact Nat.succ_pos _)
  rw [hs] at hskip
  exact hskip

theorem buf_source : (buf (α := α)).Source Ok supply where
  areas_with _ _ := rfl
  load_with _ _ _ := rfl
  area s h := by
    have horder := h.get_order
    refine ⟨?_, ?_⟩
    · show s.areas.gend = s.areas.gcur + ((chars _ _ _).length : Nat)
      rw [length_chars]
      omega
    · rw [read_chars_eq]
      show some (chars _ _ (chars _ _ _).length) = _
      rw [length_chars]
      rfl
  skip s k h hk := by
    have hle : k ≤ (s.areas.gend - s.areas.gcur).toNat := by rwa [supply, length_chars] at hk
    have hshort := h.get_short
    refine ⟨{ h with get_order := ?_, get_short := ?_ }, supply_skip hk⟩
    · show s.areas.gcur + k ≤ s.areas.gend
      have horder := h.get_order
      omega
    · show s.areas.gend - (s.areas.gcur + k) < 2 ^ 31
      omega
  underflow s h hc := by
    rcases Supply.cases_next hc with hs | ⟨c, cs, chunks, hs⟩ | ⟨c, chunks, hs⟩
    · have hchunks : s.chunks = [] := congrArg Supply.next hs
      exact ⟨s, by simp [buf, underflow, hchunks, hs, Supply.content], h, by rw [hs]; rfl⟩
    · have hchunks : s.chunks = .area c cs :: chunks := congrArg Supply.next hs
      refine ⟨s.place (c :: cs) chunks, ?_, ?_, ?_⟩
      · simp [buf, underflow, hchunks, hs, Supply.content, Chunk.elems]
      · exact place_ok h hchunks
      · rw [hs, supply_place]
        rfl
    · have hchunks : s.chunks = .single c :: chunks := congrArg Supply.next hs
      exact ⟨s, by simp [buf, underflow, hchunks, hs, Supply.content, Chunk.elems], h,
        by rw [hs]; rfl⟩
  uflow s h hc := by
    rcases Supply.cases_next hc with hs | ⟨c, cs, chunks, hs⟩ | ⟨c, chunks, hs⟩
    · have hchunks : s.chunks = [] := congrArg Supply.next hs
      exact ⟨s, by simp [buf, uflow, hchunks, hs, Supply.content], h, by rw [hs]; rfl⟩
    · have hchunks : s.chunks = .area c cs :: chunks := congrArg Supply.next hs
      have hempty : (buf.areas s).gcur = (buf.areas s).gend := by
        have horder := h.get_order
        have hlen := congrArg List.length hc
        rw [supply, length_chars, List.length_nil] at hlen
        show s.areas.gcur = s.areas.gend
        omega
      have huflow : buf.uflow s = some ({ s.place (c :: cs) chunks with
          areas := { (s.place (c :: cs) chunks).areas with
            gcur := (s.place (c :: cs) chunks).areas.gcur + 1 } }, some c) := by
        show s.uflow = _
        rw [uflow, hchunks]
      refine ⟨_, by rw [huflow, hs]; rfl, buf_contract.sbumpc s _ (some c) h ?_, ?_⟩
      · rw [Streambuf.sbumpc, if_neg (not_not.mpr hempty), huflow]
      · rw [supply_bump (supply_place s (c :: cs) chunks), hs]
        rfl
    · have hchunks : s.chunks = .single c :: chunks := congrArg Supply.next hs
      refine ⟨{ s with chunks := chunks }, ?_, ?_, ?_⟩
      · simp [buf, uflow, hchunks, hs, Supply.content, Chunk.elems]
      · exact { h with
          chunks := fun chunk hmem => h.chunks chunk (hchunks ▸ List.mem_cons_of_mem _ hmem) }
      · rw [hs]
        exact congrArg (Supply.mk · chunks) (congrArg Supply.current hs)

/-- The characters that are put back fit in, too. -/
def Whole (s : Pipe α) : Prop :=
  s.Ok ∧ s.areas.gbeg ≤ s.areas.gcur ∧ s.areas.gend - s.areas.gbeg < 2 ^ 31

theorem whole_place {s : Pipe α} (h : s.Whole) {c : α} {cs : List α} {chunks : List (Chunk α)}
    (hchunks : s.chunks = .area c cs :: chunks) : (s.place (c :: cs) chunks).Whole :=
  ⟨place_ok h.1 hchunks, Int.le_refl _, (place_ok h.1 hchunks).get_short⟩

theorem whole_underflow {s s' : Pipe α} {r : Option α} (h : s.Whole)
    (hs' : s.underflow = some (s', r)) : s'.Whole := by
  unfold underflow at hs'
  split at hs'
  · cases hs'
    exact h
  · cases hs'
    exact h
  · next hchunks =>
    cases hs'
    exact whole_place h hchunks

theorem whole_uflow {s s' : Pipe α} {r : Option α} (h : s.Whole) (hok' : s'.Ok)
    (hs' : s.uflow = some (s', r)) : s'.Whole := by
  unfold uflow at hs'
  split at hs'
  · cases hs'
    exact h
  · cases hs'
    exact ⟨hok', h.2⟩
  · next hchunks =>
    cases hs'
    obtain ⟨-, hle, hshort⟩ := whole_place h hchunks
    exact ⟨hok', Int.le_trans hle (Int.le_add_one (Int.le_refl _)), hshort⟩

theorem whole_back {s : Pipe α} (h : s.Whole) (hne : s.areas.gbeg ≠ s.areas.gcur) :
    Whole { s with areas := { s.areas with gcur := s.areas.gcur - 1 } } := by
  obtain ⟨hok, hle, hshort⟩ := h
  have hle' : s.areas.gbeg ≤ s.areas.gcur - 1 := Int.le_sub_one_of_lt (lt_of_le_of_ne hle hne)
  have horder := hok.get_order
  refine ⟨{ hok with get_order := ?_, get_short := ?_ }, hle', hshort⟩
  · show s.areas.gcur - 1 ≤ s.areas.gend
    omega
  · show s.areas.gend - (s.areas.gcur - 1) < 2 ^ 31
    omega

theorem whole_source : (buf (α := α)).Source Whole supply where
  areas_with _ _ := rfl
  load_with _ _ _ := rfl
  area s h := buf_source.area s h.1
  skip s k h hk := by
    obtain ⟨hok', hsupply'⟩ := buf_source.skip s k h.1 hk
    exact ⟨⟨hok', Int.le_trans h.2.1 (Int.le_add_of_nonneg_right (Int.natCast_nonneg k)), h.2.2⟩,
      hsupply'⟩
  underflow s h hcur := by
    obtain ⟨s', hs', -, hsupply'⟩ := buf_source.underflow s h.1 hcur
    exact ⟨s', hs', whole_underflow h hs', hsupply'⟩
  uflow s h hcur := by
    obtain ⟨s', hs', hok', hsupply'⟩ := buf_source.uflow s h.1 hcur
    exact ⟨s', hs', whole_uflow h hok' hs', hsupply'⟩

end Pipe

end Kuhllib.Cxxrt
