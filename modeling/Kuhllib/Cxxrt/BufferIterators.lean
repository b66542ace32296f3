import Kuhllib.Cxxrt.IntegerStreams

/-!
# `ostreambuf_iterator`: the overloads that write to the put area

The general algorithms assign one character after the other to the iterator, which keeps in mind
whether the buffer refused one. The overloads write blocks to the put area and call `sputc` where
there is no room. Two of them ignore what it returns.

Results:
1. `put_each_block`: a block is what single characters are, as long as there is room.
2. `fill_n_area_eq`, `copy_area_eq`, `num_copy_area_eq`: the characters that are written.
3. `overloads_agree_iff`: when `failed()` is right, too.
-/

namespace Kuhllib.Cxxrt

/-- An iterator, and the buffer it points to. -/
structure OstreambufIterator (σ : Type) where
  m_sbuf : σ
  fail : Bool

namespace OstreambufIterator

variable {σ α : Type} (b : Streambuf σ α)

/-- `*it = c; ++it;`. -/
def assign (it : OstreambufIterator σ) (c : α) : Option (OstreambufIterator σ) := do
  let (s, r) ← b.sputc it.m_sbuf c
  some ⟨s, if r.isNone then true else it.fail⟩

/-- The general `_CS_copy` and `_CS_num_copy`. -/
def copy (it : OstreambufIterator σ) : List α → Option (OstreambufIterator σ)
  | [] => some it
  | c :: cs => do
    let it ← it.assign b c
    it.copy cs

/-- The loop of the general `_CS_fill_n`. -/
def fill_n_loop (fill : α) (it : OstreambufIterator σ) : Nat → Option (OstreambufIterator σ)
  | 0 => some it
  | n + 1 => do
    let it ← it.assign b fill
    it.fill_n_loop fill n

def fill_n (it : OstreambufIterator σ) (n : Int) (fill : α) : Option (OstreambufIterator σ) :=
  it.fill_n_loop b fill n.toNat

/-- The loop of the overload of `_CS_fill_n`. Each round writes at least one character. -/
def fill_n_area_loop (fill : α) : Nat → Int → σ → Option σ
  | 0, _, s => some s
  | fuel + 1, n, s =>
    if 0 < n then
      let a := b.areas s
      let t := to_int (a.pend - a.pcur)
      if 0 < t then do
        let t := if t > n then n else t
        let s ← b.write_chars s a.pcur (List.replicate t.toNat fill)
        fill_n_area_loop fill fuel (n - t) (b.with_areas s (a.pbump t))
      else do
        let (s, _) ← b.sputc s fill
        fill_n_area_loop fill fuel (n - 1) s
    else some s

def fill_n_area (it : OstreambufIterator σ) (n : Int) (fill : α) :
    Option (OstreambufIterator σ) := do
  some { it with m_sbuf := ← fill_n_area_loop b fill n.toNat n it.m_sbuf }

/-- The loop of the overload of `_CS_copy`. -/
def copy_area_loop : Nat → List α → σ → Option σ
  | 0, _, s => some s
  | fuel + 1, cs, s =>
    match cs with
    | [] => some s
    | c :: cs =>
      let a := b.areas s
      let n := a.pend - a.pcur
      if n ≠ 0 then
        let n := if ((c :: cs).length : Int) < n then ((c :: cs).length : Int) else n
        if n < 0 then none
        else do
          let s ← b.write_chars s a.pcur ((c :: cs).take n.toNat)
          copy_area_loop fuel ((c :: cs).drop n.toNat) (b.with_areas s (a.pbump n))
      else do
        let (s, _) ← b.sputc s c
        copy_area_loop fuel cs s

def copy_area (it : OstreambufIterator σ) (cs : List α) : Option (OstreambufIterator σ) := do
  some { it with m_sbuf := ← copy_area_loop b cs.length cs it.m_sbuf }

/-- The overload of `_CS_num_copy`. -/
def num_copy_area (it : OstreambufIterator σ) (cs : List α) : Option (OstreambufIterator σ) :=
  let a := b.areas it.m_sbuf
  if (cs.length : Int) < a.pend - a.pcur then do
    let s ← b.write_chars (b.with_areas it.m_sbuf (a.pbump cs.length)) a.pcur cs
    some { it with m_sbuf := s }
  else it.copy b cs

end OstreambufIterator

/-- What the general algorithm does the overload does, too. -/
def Agrees {σ : Type} (overload general : Option (OstreambufIterator σ)) : Prop :=
  ∀ it, general = some it → overload = some it

/-- The buffer takes all these characters. -/
def Accepts {σ α : Type} (b : Streambuf σ α) (s : σ) (cs : List α) : Prop :=
  ∀ s' failed, put_each b s cs = some (s', failed) → failed = false

/-- The characters that are left, or the room for them, are fewer than `2 ^ 31`, whenever one of
them is put. -/
def Short {σ α : Type} (b : Streambuf σ α) : σ → List α → Prop
  | _, [] => True
  | s, c :: cs =>
    ((c :: cs).length < 2 ^ 31 ∨ (b.areas s).pend - (b.areas s).pcur < 2 ^ 31) ∧
      ∀ s' r, b.sputc s c = some (s', r) → Short b s' cs

/-! ## 1. Blocks -/

/-- The pointers are members of their own, and `ok` holds from construction on: it keeps
the next pointer from passing the end. -/
structure Streambuf.Lawful {σ α : Type} (b : Streambuf σ α) (ok : σ → Prop) : Prop where
  areas_with : ∀ s a, b.areas (b.with_areas s a) = a
  with_with : ∀ s a a', b.with_areas (b.with_areas s a) a' = b.with_areas s a'
  with_self : ∀ s, b.with_areas s (b.areas s) = s
  areas_store : ∀ s p c s', b.store s p c = some s' → b.areas s' = b.areas s
  store_with : ∀ s a p c, b.store (b.with_areas s a) p c = (b.store s p c).map (b.with_areas · a)
  order : ∀ s, ok s → (b.areas s).pcur ≤ (b.areas s).pend
  sputc : ∀ s c s' r, ok s → b.sputc s c = some (s', r) → ok s'

namespace BufferIteratorsLemmas

open OstreambufIterator StringbufLemmas

variable {σ α : Type} {b : Streambuf σ α} {ok : σ → Prop} {s s' : σ} {cs : List α}
  {it : OstreambufIterator σ}

theorem copy_eq (it : OstreambufIterator σ) (cs : List α) : it.copy b cs =
    (put_each b it.m_sbuf cs).map fun r => ⟨r.1, it.fail || r.2⟩ := by
  induction cs generalizing it with
  | nil => simp [copy, put_each]
  | cons c cs ih =>
    rw [copy, put_each, assign]
    cases hput : b.sputc it.m_sbuf c with
    | none => rfl
    | some r =>
      obtain ⟨s, r⟩ := r
      simp only [Option.bind_eq_bind, Option.bind_some]
      rw [ih]
      cases put_each b s cs with
      | none => rfl
      | some q => cases r <;> simp

theorem fill_n_eq (it : OstreambufIterator σ) (n : Int) (fill : α) :
    it.fill_n b n fill = it.copy b (List.replicate n.toNat fill) := by
  unfold fill_n
  induction n.toNat generalizing it with
  | zero => rfl
  | succ n ih =>
    rw [fill_n_loop, List.replicate_succ, copy]
    exact congrArg _ (funext fun it => ih it)

theorem write_chars_with (h : b.Lawful ok) (a : Areas) (p : Int) (cs : List α) (s : σ) :
    b.write_chars (b.with_areas s a) p cs = (b.write_chars s p cs).map (b.with_areas · a) := by
  induction cs generalizing s p with
  | nil => rfl
  | cons c cs ih =>
    simp only [Streambuf.write_chars, h.store_with, Option.bind_eq_bind]
    cases b.store s p c with
    | none => rfl
    | some s' => exact ih (p + 1) s'

/-- Single characters fill the put area as a block does. -/
theorem put_each_block (h : b.Lawful ok) (cs ds : List α)
    (hroom : ∀ i : Nat, i < cs.length → (b.areas s).pcur + i ≠ (b.areas s).pend) :
    put_each b s (cs ++ ds) = (b.write_chars s (b.areas s).pcur cs).bind fun s' =>
      put_each b (b.with_areas s' { b.areas s with pcur := (b.areas s).pcur + cs.length }) ds := by
  induction cs generalizing s with
  | nil =>
    show put_each b s ds = put_each b (b.with_areas s { b.areas s with
      pcur := (b.areas s).pcur + (0 : Nat) }) ds
    rw [Nat.cast_zero, Int.add_zero, h.with_self]
  | cons c cs ih =>
    have hne : (b.areas s).pcur ≠ (b.areas s).pend := by
      have := hroom 0 (Nat.succ_pos _)
      rwa [Nat.cast_zero, Int.add_zero] at this
    rw [List.cons_append, put_each, Streambuf.sputc, Streambuf.write_chars]
    dsimp only
    rw [if_neg hne]
    cases hstore : b.store s (b.areas s).pcur c with
    | none => rfl
    | some s₁ =>
      simp only [Option.bind_eq_bind, Option.bind_some, Option.isNone_some, Bool.false_or]
      have hnext : ∀ i : Nat, (b.areas s).pcur + 1 + (i : Int) =
          (b.areas s).pcur + ((i + 1 : Nat) : Int) := by
        intro i
        rw [Nat.cast_add, Nat.cast_one, Int.add_assoc, Int.add_comm 1]
      have hrec := ih (s := b.with_areas s₁ { b.areas s with pcur := (b.areas s).pcur + 1 })
        (fun i hi => by
          rw [h.areas_with, hnext]
          exact hroom (i + 1) (Nat.succ_lt_succ hi))
      rw [h.areas_with, write_chars_with h] at hrec
      simp only [hrec, Option.bind_map]
      cases b.write_chars s₁ ((b.areas s).pcur + 1) cs with
      | none => rfl
      | some s₂ =>
        simp only [Option.bind_some, Function.comp_apply, h.with_with, hnext, List.length_cons]
        cases put_each b _ ds <;> rfl

theorem ok_put_each (h : b.Lawful ok) {failed : Bool} (hok : ok s)
    (hput : put_each b s cs = some (s', failed)) : ok s' := by
  induction cs generalizing s failed with
  | nil =>
    cases hput
    exact hok
  | cons c cs ih =>
    simp only [put_each, Option.bind_eq_bind, Option.bind_eq_some_iff] at hput
    obtain ⟨⟨s₁, r⟩, hs₁, ⟨s₂, failed₂⟩, hs₂, heq⟩ := hput
    cases heq
    exact ih (h.sputc s c s₁ r hok hs₁) hs₂

theorem short_put_each {ds : List α} {failed : Bool} (hshort : Short b s (cs ++ ds))
    (hput : put_each b s cs = some (s', failed)) : Short b s' ds := by
  induction cs generalizing s failed with
  | nil =>
    cases hput
    exact hshort
  | cons c cs ih =>
    simp only [put_each, Option.bind_eq_bind, Option.bind_eq_some_iff] at hput
    obtain ⟨⟨s₁, r⟩, hs₁, ⟨s₂, failed₂⟩, hs₂, heq⟩ := hput
    cases heq
    exact ih (hshort.2 s₁ r hs₁) hs₂

/-- One block for some of the characters. -/
theorem put_each_write (h : b.Lawful ok)
    (hroom : ∀ i : Nat, i < cs.length → (b.areas s).pcur + i ≠ (b.areas s).pend) :
    put_each b s cs = (b.write_chars s (b.areas s).pcur cs).map fun s' =>
      (b.with_areas s' { b.areas s with pcur := (b.areas s).pcur + cs.length }, false) := by
  have hblock := put_each_block h cs [] hroom
  rw [List.append_nil] at hblock
  rw [hblock, Option.map_eq_bind]
  rfl

theorem pbump_eq {a : Areas} {n : Int} (hn : 0 ≤ n ∧ n < 2 ^ 31) :
    a.pbump n = { a with pcur := a.pcur + n } := by
  rw [Areas.pbump, to_int_eq ⟨Int.le_trans (by decide) hn.1, hn.2⟩]

theorem put_each_cons_fst (c : α) (cs : List α) :
    (put_each b s (c :: cs)).map Prod.fst =
      (b.sputc s c).bind fun r => (put_each b r.1 cs).map Prod.fst := by
  rw [put_each]
  cases b.sputc s c with
  | none => rfl
  | some r =>
    obtain ⟨s₁, r⟩ := r
    simp only [Option.bind_eq_bind, Option.bind_some]
    cases put_each b s₁ cs <;> rfl

theorem short_of_length (hlen : cs.length < 2 ^ 31) : Short b s cs := by
  induction cs generalizing s with
  | nil => trivial
  | cons c cs ih => exact ⟨.inl hlen, fun _ _ _ => ih (Nat.lt_of_succ_lt hlen)⟩

/-! ## 2. What is written -/

theorem to_int_lt (n : Int) : to_int n < 2 ^ 31 := by
  have := Int.bmod_lt (x := n) (m := 2 ^ 32) (by decide)
  unfold to_int
  omega

/-- There is room for what `_CS_fill_n` writes at once. -/
theorem fill_room {a : Areas} {k : Nat} (hk : (k : Int) ≤ to_int (a.pend - a.pcur)) :
    ∀ i : Nat, i < k → a.pcur + i ≠ a.pend := by
  intro i hi he
  have hlt := to_int_lt (a.pend - a.pcur)
  have hlow : (-2 ^ 31 : Int) ≤ i := Int.le_trans (by decide) (Int.natCast_nonneg i)
  have hhigh : (i : Int) < 2 ^ 31 := Int.lt_of_lt_of_le (Int.ofNat_lt.mpr hi) (by omega)
  have hdiff : a.pend - a.pcur = i := by omega
  rw [hdiff, to_int_eq ⟨hlow, hhigh⟩] at hk
  exact absurd (Int.ofNat_lt.mpr hi) (Int.not_lt.mpr hk)

theorem fill_n_area_eq (h : b.Lawful ok) (fill : α) {fuel : Nat} {n : Int}
    (hfuel : n.toNat ≤ fuel) : fill_n_area_loop b fill fuel n s =
      (put_each b s (List.replicate n.toNat fill)).map Prod.fst := by
  induction fuel generalizing n s with
  | zero =>
    rw [Nat.le_zero.mp hfuel]
    rfl
  | succ fuel ih =>
    rw [fill_n_area_loop]
    split
    · next hn =>
      dsimp only
      split
      · next ht =>
        generalize hk : (if to_int ((b.areas s).pend - (b.areas s).pcur) > n then n
          else to_int ((b.areas s).pend - (b.areas s).pcur)) = t
        have hlt := to_int_lt ((b.areas s).pend - (b.areas s).pcur)
        obtain ⟨k, rfl⟩ : ∃ k : Nat, t = k := Int.eq_ofNat_of_zero_le (by split at hk <;> omega)
        have hle : 0 < k ∧ (k : Int) ≤ n ∧
            (k : Int) ≤ to_int ((b.areas s).pend - (b.areas s).pcur) := by
          split at hk <;> omega
        have hsplit : List.replicate n.toNat fill =
            List.replicate k fill ++ List.replicate (n - k).toNat fill := by
          rw [List.replicate_append_replicate]
          congr 1
          omega
        rw [hsplit, put_each_block h _ _ (by
          rw [List.length_replicate]
          exact fill_room hle.2.2), Int.toNat_natCast, pbump_eq ⟨by omega, by omega⟩,
          List.length_replicate, Option.map_bind]
        exact congrArg _ (funext fun s' => ih (by omega))
      · obtain ⟨m, hm⟩ : ∃ m : Nat, n.toNat = m + 1 := ⟨n.toNat - 1, by omega⟩
        rw [hm, List.replicate_succ, put_each_cons_fst]
        refine congrArg _ (funext fun r => ?_)
        rw [ih (by omega)]
        congr 3
        omega
    · next hn =>
      rw [Int.toNat_of_nonpos (Int.not_lt.mp hn)]
      rfl

/-- The block that is written at once. -/
theorem block_eq (h : b.Lawful ok) (hok : ok s) {c : α} (hshort : Short b s (c :: cs))
    (hne : (b.areas s).pend - (b.areas s).pcur ≠ 0) : ∃ k : Nat,
      (if ((c :: cs).length : Int) < (b.areas s).pend - (b.areas s).pcur then
        ((c :: cs).length : Int) else (b.areas s).pend - (b.areas s).pcur) = k ∧
      0 < k ∧ k ≤ (c :: cs).length ∧
      (b.areas s).pbump k = { b.areas s with pcur := (b.areas s).pcur + k } ∧
      ∀ i : Nat, i < ((c :: cs).take k).length → (b.areas s).pcur + i ≠ (b.areas s).pend := by
  have horder := h.order s hok
  have hlen : (c :: cs).length = cs.length + 1 := rfl
  generalize hk : (if ((c :: cs).length : Int) < (b.areas s).pend - (b.areas s).pcur then
    ((c :: cs).length : Int) else (b.areas s).pend - (b.areas s).pcur) = t
  obtain ⟨k, rfl⟩ : ∃ k : Nat, t = k := Int.eq_ofNat_of_zero_le (by split at hk <;> omega)
  have hle : 0 < k ∧ k ≤ (c :: cs).length ∧
      (k : Int) ≤ (b.areas s).pend - (b.areas s).pcur := by
    split at hk <;> omega
  have hk31 : (k : Int) < 2 ^ 31 := by
    rcases hshort.1 with hs | hs <;> omega
  refine ⟨k, rfl, hle.1, hle.2.1, pbump_eq ⟨Int.natCast_nonneg k, hk31⟩, ?_⟩
  rw [List.length_take_of_le hle.2.1]
  omega

theorem copy_area_eq (h : b.Lawful ok) {fuel : Nat} (hok : ok s) (hfuel : cs.length ≤ fuel)
    (hshort : Short b s cs) :
    copy_area_loop b fuel cs s = (put_each b s cs).map Prod.fst := by
  induction fuel generalizing cs s with
  | zero =>
    obtain rfl := List.length_eq_zero_iff.mp (Nat.le_zero.mp hfuel)
    rfl
  | succ fuel ih =>
    cases cs with
    | nil => rfl
    | cons c cs =>
      rw [copy_area_loop]
      dsimp only
      split
      · next hne =>
        obtain ⟨k, hk, hpos, hle, hbump, hroom⟩ := block_eq h hok hshort hne
        have htake : ((c :: cs).take k).length = k := List.length_take_of_le hle
        have hwrite := put_each_write h hroom
        have hblock := put_each_block h ((c :: cs).take k) ((c :: cs).drop k) hroom
        rw [List.take_append_drop, htake] at hblock
        rw [htake] at hwrite
        rw [hk, if_neg (Int.not_lt.mpr (Int.natCast_nonneg k)), Int.toNat_natCast, hbump, hblock,
          Option.map_bind]
        cases hs' : b.write_chars s (b.areas s).pcur ((c :: cs).take k) with
        | none => rfl
        | some s' =>
          rw [hs'] at hwrite
          refine ih (ok_put_each h hok hwrite) ?_ ?_
          · rw [List.length_drop]
            exact Nat.le_of_lt_succ (Nat.lt_of_lt_of_le (Nat.sub_lt (Nat.succ_pos _) hpos) hfuel)
          · refine short_put_each ?_ hwrite
            rw [List.take_append_drop]
            exact hshort
      · rw [put_each_cons_fst]
        cases hput : b.sputc s c with
        | none => rfl
        | some r =>
          exact ih (h.sputc s c r.1 r.2 hok hput) (Nat.le_of_succ_le_succ hfuel)
            (hshort.2 r.1 r.2 hput)

/-- Fewer than `2 ^ 31` characters. -/
theorem num_copy_area_eq (h : b.Lawful ok) (hlen : cs.length < 2 ^ 31) :
    it.num_copy_area b cs = it.copy b cs := by
  unfold num_copy_area
  dsimp only
  split
  · next hlt =>
    have hroom : ∀ i : Nat, i < cs.length →
        (b.areas it.m_sbuf).pcur + i ≠ (b.areas it.m_sbuf).pend := fun i hi => by omega
    rw [copy_eq, put_each_write h hroom, write_chars_with h,
      pbump_eq ⟨Int.natCast_nonneg _, Int.ofNat_lt.mpr hlen⟩, Option.map_map]
    cases b.write_chars it.m_sbuf (b.areas it.m_sbuf).pcur cs with
    | none => rfl
    | some s' => simp [Function.comp_apply]
  · rfl

/-! ## 3. The results -/

/-- The overload writes what the general algorithm does and leaves `fail`. -/
theorem agrees_iff_accepts (cs : List α) :
    Agrees ((put_each b it.m_sbuf cs).map fun r => { it with m_sbuf := r.1 }) (it.copy b cs) ↔
      it.fail = true ∨ Accepts b it.m_sbuf cs := by
  unfold Agrees Accepts
  rw [copy_eq]
  cases put_each b it.m_sbuf cs with
  | none => exact iff_of_true nofun (.inr nofun)
  | some r =>
    obtain ⟨s', failed⟩ := r
    constructor
    · intro h
      have heq := congrArg OstreambufIterator.fail (Option.some.inj (h _ rfl))
      cases hfail : it.fail with
      | true => exact .inl rfl
      | false =>
        rw [hfail] at heq
        refine .inr fun s₁ failed₁ he => ?_
        cases he
        exact heq.symm
    · rintro h it' he
      cases he
      rcases h with hfail | hall
      · simp [hfail]
      · simp [hall s' failed rfl]

/-- More characters leave the next pointer behind. -/
theorem num_copy_area_agrees (h : b.Lawful ok) (cs : List α) :
    Agrees (it.num_copy_area b cs) (it.copy b cs) ↔
      ((cs.length : Int) < (b.areas it.m_sbuf).pend - (b.areas it.m_sbuf).pcur →
        it.copy b cs ≠ none → cs.length < 2 ^ 31) := by
  by_cases hlen : cs.length < 2 ^ 31
  · rw [num_copy_area_eq h hlen]
    exact iff_of_true (fun _ he => he) fun _ _ => hlen
  unfold num_copy_area
  dsimp only
  split
  · next hlt =>
    have hroom : ∀ i : Nat, i < cs.length →
        (b.areas it.m_sbuf).pcur + i ≠ (b.areas it.m_sbuf).pend := fun i hi => by omega
    rw [copy_eq, put_each_write h hroom, write_chars_with h, Option.map_map]
    cases b.write_chars it.m_sbuf (b.areas it.m_sbuf).pcur cs with
    | none => exact iff_of_true nofun fun _ hne => absurd rfl hne
    | some s' =>
      refine iff_of_false (fun hagrees => hlen ?_) fun hshort => hlen (hshort hlt (by simp))
      have heq := congrArg (fun it => (b.areas (OstreambufIterator.m_sbuf it)).pcur)
        (Option.some.inj (hagrees _ rfl))
      simp only [h.areas_with, Areas.pbump, Function.comp_apply] at heq
      have hint : to_int cs.length = cs.length := add_left_cancel heq
      exact Int.ofNat_lt.mp (hint ▸ to_int_lt cs.length)
  · next hge => exact iff_of_true (fun _ he => he) fun hlt => absurd hlt hge

end BufferIteratorsLemmas

open BufferIteratorsLemmas OstreambufIterator

section

variable {σ α : Type} {b : Streambuf σ α} {ok : σ → Prop} {it : OstreambufIterator σ}

/-- The overloads of `_CS_fill_n` and of `_CS_copy` do what the general algorithms do exactly if
the buffer takes all characters, or the iterator has failed before. A block is counted as an `int`,
in `_CS_num_copy`, too. -/
theorem overloads_agree_iff (h : b.Lawful ok) (hok : ok it.m_sbuf) :
    (∀ n fill, Agrees (it.fill_n_area b n fill) (it.fill_n b n fill) ↔
      it.fail = true ∨ Accepts b it.m_sbuf (List.replicate n.toNat fill)) ∧
    (∀ cs, Short b it.m_sbuf cs → (Agrees (it.copy_area b cs) (it.copy b cs) ↔
      it.fail = true ∨ Accepts b it.m_sbuf cs)) ∧
    ∀ cs, Agrees (it.num_copy_area b cs) (it.copy b cs) ↔
      ((cs.length : Int) < (b.areas it.m_sbuf).pend - (b.areas it.m_sbuf).pcur →
        it.copy b cs ≠ none → cs.length < 2 ^ 31) := by
  refine ⟨fun n fill => ?_, fun cs hshort => ?_, num_copy_area_agrees h⟩
  · have heq : it.fill_n_area b n fill = (put_each b it.m_sbuf (List.replicate n.toNat fill)).map
        fun r => { it with m_sbuf := r.1 } := by
      unfold fill_n_area
      rw [fill_n_area_eq h fill (Nat.le_refl _)]
      cases put_each b it.m_sbuf (List.replicate n.toNat fill) <;> rfl
    rw [heq, fill_n_eq]
    exact agrees_iff_accepts _
  · have heq : it.copy_area b cs = (put_each b it.m_sbuf cs).map
        fun r => { it with m_sbuf := r.1 } := by
      unfold copy_area
      rw [copy_area_eq h hok (Nat.le_refl _) hshort]
      cases put_each b it.m_sbuf cs <;> rfl
    rw [heq]
    exact agrees_iff_accepts cs

end

/-! ## 4. A device -/

/-- A buffer whose calls of `overflow` are given: whether the character is taken, and the size of
the next put area. Behind the last one all characters are refused. -/
structure Device (α : Type) where
  areas : Areas
  memory : Int → α
  taken : List α
  script : List (Bool × Nat)

namespace Device

variable {α : Type}

/-- The characters in the put area. -/
def pending (s : Device α) : List α :=
  (List.range (s.areas.pcur - s.areas.pbeg).toNat).map fun i => s.memory (s.areas.pbeg + i)

def overflow (s : Device α) (c : Option α) : Option (Device α × Option α) :=
  match s.script with
  | [] => some (s, none)
  | (takes, size) :: script =>
    let c := if takes then c else none
    some ({ s with
      areas := s.areas.setp 0 size
      taken := s.taken ++ s.pending ++ c.toList
      script := script }, c)

def buf : Streambuf (Device α) α where
  areas := areas
  with_areas s a := { s with areas := a }
  load s p := some (s.memory p)
  store s p c := some { s with memory := Function.update s.memory p c }
  underflow s := some (s, none)
  uflow s := some (s, none)
  pbackfail s _ := some (s, none)
  overflow := overflow

theorem buf_lawful : (buf (α := α)).Lawful fun s => s.areas.pcur ≤ s.areas.pend where
  areas_with _ _ := rfl
  with_with _ _ _ := rfl
  with_self _ := rfl
  areas_store _ _ _ _ h := by
    cases h
    rfl
  store_with _ _ _ _ := rfl
  order _ h := h
  sputc s c s' r hok h := by
    unfold Streambuf.sputc at h
    dsimp only at h
    split at h
    · simp only [buf, overflow] at h
      split at h
      · cases h
        exact hok
      · cases h
        exact Int.natCast_nonneg _
    · next hne =>
      cases h
      exact Int.add_one_le_of_lt (lt_of_le_of_ne hok hne)

theorem write_chars_some (s : Device α) (p : Int) (cs : List α) :
    ∃ s', buf.write_chars s p cs = some s' := by
  induction cs generalizing s p with
  | nil => exact ⟨s, rfl⟩
  | cons c cs ih => exact ih _ (p + 1)

/-- A put area that begins at 0. -/
def new (size : Nat) (script : List (Bool × Nat)) : Device Char :=
  ⟨⟨0, 0, 0, 0, 0, size⟩, fun _ => ' ', [], script⟩

end Device

open Device

/-- Put areas of one, two and three characters for `hello`. -/
theorem overloads_agree_iff_example :
    let it : OstreambufIterator (Device Char) := ⟨new 1 [(true, 2), (true, 3)], false⟩
    Agrees (it.fill_n_area buf 5 '*') (it.fill_n buf 5 '*') ∧
      Agrees (it.copy_area buf "hello".toList) (it.copy buf "hello".toList) ∧
      Agrees (it.num_copy_area buf "hello".toList) (it.copy buf "hello".toList) := by
  intro it
  obtain ⟨hfill, hcopy, hnum⟩ := @overloads_agree_iff _ _ _ _ it buf_lawful
    (show (0 : Int) ≤ 1 by decide)
  refine ⟨(hfill 5 '*').mpr (.inr fun s' failed h => ?_),
    (hcopy _ (short_of_length (by decide))).mpr (.inr fun s' failed h => ?_),
    (hnum _).mpr fun _ _ => by decide⟩
  · exact (Prod.mk.inj (Option.some.inj h)).2.symm
  · exact (Prod.mk.inj (Option.some.inj h)).2.symm

/-- No character is taken. -/
def full : OstreambufIterator (Device Char) := ⟨new 0 [], false⟩

def roomy : OstreambufIterator (Device Char) := ⟨new (2 ^ 31 + 1) [], false⟩

/-- What is refused is not noticed, and `2 ^ 31` characters are more than an `int` holds. -/
theorem not_overloads_agree :
    ((full.fill_n buf 1 '*').map OstreambufIterator.fail = some true ∧
      (full.fill_n_area buf 1 '*').map OstreambufIterator.fail = some false ∧
      (full.copy buf ['a']).map OstreambufIterator.fail = some true ∧
      (full.copy_area buf ['a']).map OstreambufIterator.fail = some false) ∧
    ¬ Agrees (roomy.num_copy_area buf (List.replicate (2 ^ 31) 'a'))
      (roomy.copy buf (List.replicate (2 ^ 31) 'a')) := by
  refine ⟨⟨rfl, rfl, rfl, rfl⟩, fun h => ?_⟩
  have hlength : (List.replicate (2 ^ 31) 'a').length = 2 ^ 31 := List.length_replicate
  have hroom : ∀ i : Nat, i < (List.replicate (2 ^ 31) 'a').length →
      (buf.areas roomy.m_sbuf).pcur + i ≠ (buf.areas roomy.m_sbuf).pend := by
    intro i hi
    rw [hlength] at hi
    show (0 : Int) + i ≠ ((2 ^ 31 + 1 : Nat) : Int)
    omega
  have hlt := (num_copy_area_agrees buf_lawful _).mp h ?_ ?_
  · rw [hlength] at hlt
    exact absurd hlt (Nat.lt_irrefl _)
  · rw [hlength]
    show ((2 ^ 31 : Nat) : Int) < ((2 ^ 31 + 1 : Nat) : Int) - (0 : Int)
    omega
  · obtain ⟨s', hs'⟩ := write_chars_some roomy.m_sbuf
      (buf.areas roomy.m_sbuf).pcur (List.replicate (2 ^ 31) 'a')
    rw [copy_eq, put_each_write buf_lawful hroom, hs']
    exact Option.some_ne_none _

end Kuhllib.Cxxrt
