import Kuhllib.Cxxrt.BufferIterators

/-!
# Sinks that are full at some point

A sink takes so many characters and refuses all others. What is written to it in blocks is what
single characters are, so all functions use up the same.

Results:
1. `put_each_sink`, `sputn_sink`: what is left, and who notices what is refused.
2. `num_copy_area_sink`, `fill_n_area_sink`: the same for the iterators.
-/

namespace Kuhllib.Cxxrt

/-- The buffer takes `left` more characters. -/
structure Streambuf.Sink {σ α : Type} (b : Streambuf σ α) (ok : σ → Prop) (left : σ → Nat) : Prop
    extends b.Lawful ok where
  takes : ∀ s c, ok s →
    ∃ s', b.sputc s c = some (s', if 0 < left s then some c else none) ∧ left s' = left s - 1

namespace SinksLemmas

open BufferIteratorsLemmas OstreambufIterator

variable {σ α : Type} {b : Streambuf σ α} {ok : σ → Prop} {left : σ → Nat} {s : σ} {cs : List α}

/-! ## 1. The buffer -/

theorem put_each_sink (h : b.Sink ok left) (hok : ok s) (cs : List α) : ∃ s',
    put_each b s cs = some (s', decide (left s < cs.length)) ∧ ok s' ∧
      left s' = left s - cs.length := by
  induction cs generalizing s with
  | nil => exact ⟨s, rfl, hok, rfl⟩
  | cons c cs ih =>
    obtain ⟨s₁, hput, hleft⟩ := h.takes s c hok
    obtain ⟨s₂, hrest, hok₂, hleft₂⟩ := ih (h.sputc s c s₁ _ hok hput)
    refine ⟨s₂, ?_, hok₂, ?_⟩
    · rw [put_each, hput]
      simp only [Option.bind_eq_bind, Option.bind_some, hrest, hleft, List.length_cons]
      split
      · next hpos =>
        have hiff : left s - 1 < cs.length ↔ left s < cs.length + 1 := by omega
        simp [hiff]
      · next hzero =>
        rw [Nat.eq_zero_of_not_pos hzero]
        simp
    · rw [hleft₂, hleft, List.length_cons, Nat.sub_sub, Nat.add_comm 1]

/-- A block is taken as a whole. -/
theorem block_sink (h : b.Sink ok left) (hok : ok s)
    (hroom : ∀ i : Nat, i < cs.length → (b.areas s).pcur + i ≠ (b.areas s).pend) : ∃ s',
      b.write_chars s (b.areas s).pcur cs = some s' ∧
      put_each b s cs = some (b.with_areas s'
        { b.areas s with pcur := (b.areas s).pcur + cs.length }, false) ∧
      cs.length ≤ left s ∧
      ok (b.with_areas s' { b.areas s with pcur := (b.areas s).pcur + cs.length }) ∧
      left (b.with_areas s' { b.areas s with pcur := (b.areas s).pcur + cs.length }) =
        left s - cs.length := by
  obtain ⟨s₁, hput, hok₁, hleft₁⟩ := put_each_sink h hok cs
  have hwrite := put_each_write h.toLawful hroom
  rw [hput] at hwrite
  obtain ⟨s', hs', heq⟩ := Option.map_eq_some_iff.mp hwrite.symm
  obtain ⟨rfl, htaken⟩ := Prod.mk.inj heq
  have hle := Nat.not_lt.mp (of_decide_eq_false htaken.symm)
  exact ⟨s', hs', htaken ▸ hput, hle, hok₁, hleft₁⟩

theorem xsputn_loop_sink (h : b.Sink ok left) {fuel : Nat} (hok : ok s) (hfuel : cs.length ≤ fuel)
    (hshort : Short b s cs) (count : Nat) : ∃ s',
      b.xsputn_loop fuel s cs count = some (s', count + min (left s) cs.length) ∧
        left s' = left s - cs.length := by
  induction fuel generalizing cs s count with
  | zero =>
    obtain rfl := List.length_eq_zero_iff.mp (Nat.le_zero.mp hfuel)
    exact ⟨s, by rw [List.length_nil, Nat.min_zero]; rfl, rfl⟩
  | succ fuel ih =>
    cases cs with
    | nil => exact ⟨s, by rw [List.length_nil, Nat.min_zero]; rfl, rfl⟩
    | cons c cs =>
      rw [Streambuf.xsputn_loop]
      dsimp only
      split
      · next hne =>
        obtain ⟨k, hk, hpos, hle, hbump, hroom⟩ := block_eq h.toLawful hok hshort hne
        have htake : ((c :: cs).take k).length = k := List.length_take_of_le hle
        obtain ⟨s₁, hwrite, hput, hall, hok₁, hleft₁⟩ := block_sink h hok hroom
        rw [htake] at hput hall hok₁ hleft₁
        have hdrop : ((c :: cs).drop k).length = (c :: cs).length - k := List.length_drop
        have hfuel₁ : ((c :: cs).drop k).length ≤ fuel := by
          rw [hdrop]
          exact Nat.le_of_lt_succ (Nat.lt_of_lt_of_le (Nat.sub_lt (Nat.succ_pos _) hpos) hfuel)
        have hshort₁ : Short b s ((c :: cs).take k ++ (c :: cs).drop k) := by
          rwa [List.take_append_drop]
        obtain ⟨s', hloop, hleft'⟩ :=
          ih hok₁ hfuel₁ (short_put_each hshort₁ hput) (count + k)
        refine ⟨s', ?_, ?_⟩
        · rw [hk, if_neg (Int.not_lt.mpr (Int.natCast_nonneg k)), Int.toNat_natCast, hwrite, hbump]
          rw [hleft₁, hdrop, Nat.sub_min_sub_right, Nat.add_assoc,
            Nat.add_sub_cancel' (Nat.le_min.mpr ⟨hall, hle⟩)] at hloop
          exact hloop
        · rw [hleft', hleft₁, hdrop, Nat.sub_sub, Nat.add_sub_cancel' hle]
      · obtain ⟨s₁, hput, hleft₁⟩ := h.takes s c hok
        rw [hput]
        simp only [Option.bind_eq_bind, Option.bind_some]
        by_cases hpos : 0 < left s
        · obtain ⟨s', hloop, hleft'⟩ := ih (h.sputc s c s₁ _ hok hput)
            (Nat.le_of_succ_le_succ hfuel) (hshort.2 s₁ _ hput) (count + 1)
          refine ⟨s', ?_, ?_⟩
          · rw [if_pos hpos]
            simp only [Option.isNone_some, Bool.false_eq_true, if_false, hloop, hleft₁,
              List.length_cons]
            congr 2
            omega
          · rw [hleft', hleft₁, List.length_cons, Nat.sub_sub, Nat.add_comm 1]
        · have hzero := Nat.eq_zero_of_not_pos hpos
          refine ⟨s₁, ?_, ?_⟩
          · rw [if_neg hpos, hzero, Nat.zero_min]
            rfl
          · rw [hleft₁, hzero, Nat.zero_sub, Nat.zero_sub]

/-- As many characters as there is room for. -/
theorem sputn_sink (h : b.Sink ok left) (hok : ok s) (hshort : Short b s cs) : ∃ s',
    b.sputn s cs = some (s', min (left s) cs.length) ∧ left s' = left s - cs.length := by
  unfold Streambuf.sputn
  dsimp only
  split
  · next hlt =>
    have hroom : ∀ i : Nat, i < cs.length → (b.areas s).pcur + i ≠ (b.areas s).pend :=
      fun i hi => by omega
    obtain ⟨s', hwrite, -, hall, -, hleft'⟩ := block_sink h hok hroom
    have hbump : (b.areas s).pbump cs.length =
        { b.areas s with pcur := (b.areas s).pcur + cs.length } := by
      refine pbump_eq ⟨Int.natCast_nonneg _, ?_⟩
      cases cs with
      | nil => exact (by decide : (0 : Int) < 2 ^ 31)
      | cons c cs => rcases hshort.1 with hs | hs <;> omega
    rw [hwrite, hbump, Nat.min_eq_right hall]
    exact ⟨_, rfl, hleft'⟩
  · obtain ⟨s', hloop, hleft'⟩ := xsputn_loop_sink h hok (Nat.le_refl _) hshort 0
    rw [Nat.zero_add] at hloop
    exact ⟨s', hloop, hleft'⟩

/-! ## 2. The iterators -/

theorem num_copy_area_sink (h : b.Sink ok left) (it : OstreambufIterator σ) (hok : ok it.m_sbuf)
    (hlen : cs.length < 2 ^ 31) : ∃ s', it.num_copy_area b cs =
        some ⟨s', it.fail || decide (left it.m_sbuf < cs.length)⟩ ∧ ok s' ∧
      left s' = left it.m_sbuf - cs.length := by
  obtain ⟨s', hput, hok', hleft'⟩ := put_each_sink h hok cs
  refine ⟨s', ?_, hok', hleft'⟩
  rw [num_copy_area_eq h.toLawful hlen, copy_eq, hput]
  rfl

/-- What is refused is not noticed. -/
theorem fill_n_area_sink (h : b.Sink ok left) (it : OstreambufIterator σ) (hok : ok it.m_sbuf)
    (n : Int) (fill : α) : ∃ s', it.fill_n_area b n fill = some ⟨s', it.fail⟩ ∧ ok s' ∧
      left s' = left it.m_sbuf - n.toNat := by
  obtain ⟨s', hput, hok', hleft'⟩ := put_each_sink h hok (List.replicate n.toNat fill)
  rw [List.length_replicate] at hleft'
  refine ⟨s', ?_, hok', hleft'⟩
  unfold fill_n_area
  rw [fill_n_area_eq h.toLawful fill (Nat.le_refl _), hput]
  rfl

end SinksLemmas

end Kuhllib.Cxxrt
