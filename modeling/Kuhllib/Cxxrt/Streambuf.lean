import Mathlib.Algebra.Ring.Int.Defs
import Mathlib.Algebra.Ring.Nat
import Mathlib.Data.List.TakeDrop
import Mathlib.Data.Option.Basic

/-!
# `basic_streambuf`

A pointer is its address, the null pointer is 0. The functions give nothing where the
program reads or writes what is not allocated. A character as `int_type` is `some c`, and
`eof()` is `none`.

Results:
1. `sgetn_spec`: `sgetn` reads as many characters as single calls would.
2. `sputn_spec`: the same for writing.
-/

namespace Kuhllib.Cxxrt

/-- The conversion of a difference of pointers to `int`. -/
def to_int (n : Int) : Int := n.bmod (2 ^ 32)

/-- The get area and the put area. -/
structure Areas where
  gbeg : Int
  gcur : Int
  gend : Int
  pbeg : Int
  pcur : Int
  pend : Int
  deriving DecidableEq, Repr

namespace Areas

def null : Areas := ⟨0, 0, 0, 0, 0, 0⟩

def gbump (a : Areas) (n : Int) : Areas := { a with gcur := a.gcur + to_int n }

def pbump (a : Areas) (n : Int) : Areas := { a with pcur := a.pcur + to_int n }

def setg (a : Areas) (beg cur bufend : Int) : Areas :=
  { a with gbeg := beg, gcur := cur, gend := bufend }

def setp (a : Areas) (beg bufend : Int) : Areas :=
  { a with pbeg := beg, pcur := beg, pend := bufend }

end Areas

/-- The access to the areas and to memory, and the virtual functions of a class derived
from `basic_streambuf`. -/
structure Streambuf (σ α : Type) where
  areas : σ → Areas
  with_areas : σ → Areas → σ
  load : σ → Int → Option α
  store : σ → Int → α → Option σ
  underflow : σ → Option (σ × Option α)
  uflow : σ → Option (σ × Option α)
  pbackfail : σ → Option α → Option (σ × Option α)
  overflow : σ → Option α → Option (σ × Option α)

namespace Streambuf

variable {σ α : Type} (b : Streambuf σ α)

/-- `copy` from memory. -/
def read_chars (s : σ) (p : Int) : Nat → Option (List α)
  | 0 => some []
  | n + 1 => do
    let c ← b.load s p
    let cs ← read_chars s (p + 1) n
    some (c :: cs)

/-- `copy` to memory. -/
def write_chars (s : σ) (p : Int) : List α → Option σ
  | [] => some s
  | c :: cs => do
    let s ← b.store s p c
    write_chars s (p + 1) cs

def sgetc (s : σ) : Option (σ × Option α) :=
  if (b.areas s).gend = (b.areas s).gcur then b.underflow s
  else do
    let c ← b.load s (b.areas s).gcur
    some (s, some c)

def sbumpc (s : σ) : Option (σ × Option α) :=
  if (b.areas s).gcur ≠ (b.areas s).gend then do
    let c ← b.load s (b.areas s).gcur
    some (b.with_areas s { b.areas s with gcur := (b.areas s).gcur + 1 }, some c)
  else b.uflow s

def snextc (s : σ) : Option (σ × Option α) :=
  let n := (b.areas s).gend - (b.areas s).gcur
  if n = 0 then do
    let (s, c) ← b.sbumpc s
    if c.isNone then some (s, none) else b.sgetc s
  else
    let s := b.with_areas s ((b.areas s).gbump 1)
    if n = 1 then b.sgetc s
    else do
      let c ← b.load s (b.areas s).gcur
      some (s, some c)

/-- What `uflow` does unless it is overridden. -/
def base_uflow (s : σ) : Option (σ × Option α) := do
  let (s, c) ← b.underflow s
  if c.isNone then some (s, none)
  else do
    let c ← b.load s (b.areas s).gcur
    some (b.with_areas s { b.areas s with gcur := (b.areas s).gcur + 1 }, some c)

/-- The loop of `xsgetn` has read `got`. Each round reads at least one character. -/
def xsgetn_loop : Nat → Int → σ → List α → Option (σ × List α)
  | 0, _, s, got => some (s, got)
  | fuel + 1, n, s, got =>
    if got.length < n then
      let a := b.areas s
      if a.gcur ≠ a.gend then
        let bsize := a.gend - a.gcur
        let csize := n - got.length
        let csize := if bsize < csize then bsize else csize
        if csize < 0 then none
        else do
          let cs ← b.read_chars s a.gcur csize.toNat
          xsgetn_loop fuel n (b.with_areas s (a.gbump csize)) (got ++ cs)
      else do
        let (s, c) ← b.sbumpc s
        match c with
        | none => some (s, got)
        | some c => xsgetn_loop fuel n s (got ++ [c])
    else some (s, got)

/-- `sgetn(s, n)`; the characters read. -/
def sgetn (s : σ) (n : Int) : Option (σ × List α) := b.xsgetn_loop n.toNat n s []

def sputbackc [DecidableEq α] (s : σ) (c : α) : Option (σ × Option α) :=
  let a := b.areas s
  if a.gbeg = a.gcur then b.pbackfail s (some c)
  else do
    let c' ← b.load s (a.gcur - 1)
    if c ≠ c' then b.pbackfail s (some c)
    else some (b.with_areas s { a with gcur := a.gcur - 1 }, some c')

def sungetc (s : σ) : Option (σ × Option α) :=
  let a := b.areas s
  if a.gbeg = a.gcur then b.pbackfail s none
  else do
    let c ← b.load s (a.gcur - 1)
    some (b.with_areas s { a with gcur := a.gcur - 1 }, some c)

def sputc (s : σ) (c : α) : Option (σ × Option α) :=
  let a := b.areas s
  if a.pcur = a.pend then b.overflow s (some c)
  else do
    let s ← b.store s a.pcur c
    some (b.with_areas s { a with pcur := a.pcur + 1 }, some c)

/-- The loop of `xsputn` with the characters that are left; how many have been written. -/
def xsputn_loop : Nat → σ → List α → Nat → Option (σ × Nat)
  | 0, s, _, count => some (s, count)
  | fuel + 1, s, cs, count =>
    match cs with
    | [] => some (s, count)
    | c :: cs =>
      let a := b.areas s
      let t := a.pend - a.pcur
      if t ≠ 0 then
        let t := if ((c :: cs).length : Int) < t then ((c :: cs).length : Int) else t
        if t < 0 then none
        else do
          let s ← b.write_chars s a.pcur ((c :: cs).take t.toNat)
          xsputn_loop fuel (b.with_areas s (a.pbump t)) ((c :: cs).drop t.toNat) (count + t.toNat)
      else do
        let (s, r) ← b.sputc s c
        if r.isNone then some (s, count) else xsputn_loop fuel s cs (count + 1)

/-- `sputn(s, n)`; how many characters have been written. -/
def sputn (s : σ) (cs : List α) : Option (σ × Nat) :=
  let a := b.areas s
  if (cs.length : Int) < a.pend - a.pcur then do
    let s ← b.write_chars s a.pcur cs
    some (b.with_areas s (a.pbump cs.length), cs.length)
  else b.xsputn_loop cs.length s cs 0

end Streambuf

/-! ## What the single calls do -/

section

variable {σ α τ : Type}

/-- Up to `n` characters from a source. -/
def nexts (next : τ → Option (α × τ)) : Nat → τ → List α × τ
  | 0, t => ([], t)
  | n + 1, t =>
    match next t with
    | none => ([], t)
    | some (c, t') => ((nexts next n t').1.cons c, (nexts next n t').2)

/-- Characters into a sink until it takes no more; how many it has taken. -/
def puts (put : τ → α → Option τ) : τ → List α → τ × Nat
  | t, [] => (t, 0)
  | t, c :: cs =>
    match put t c with
    | none => (t, 0)
    | some t' => ((puts put t' cs).1, (puts put t' cs).2 + 1)

theorem nexts_none {next : τ → Option (α × τ)} {t : τ} (h : next t = none) (n : Nat) :
    nexts next n t = ([], t) := by
  cases n with
  | zero => rfl
  | succ n => rw [nexts, h]

theorem nexts_append {next : τ → Option (α × τ)} {t t' : τ} {cs : List α} {k : Nat}
    (h : nexts next k t = (cs, t')) (hk : cs.length = k) (n : Nat) :
    nexts next (k + n) t = (cs ++ (nexts next n t').1, (nexts next n t').2) := by
  induction k generalizing t cs with
  | zero =>
    cases h
    rw [Nat.zero_add]
    rfl
  | succ k ih =>
    rw [Nat.add_right_comm, nexts]
    rw [nexts] at h
    cases hnext : next t with
    | none =>
      rw [hnext] at h
      cases h
      cases hk
    | some x =>
      obtain ⟨c, u⟩ := x
      rw [hnext] at h
      cases h
      dsimp only
      rw [ih rfl (Nat.succ.inj hk)]
      rfl

theorem puts_append {put : τ → α → Option τ} {t t' : τ} {cs : List α}
    (h : puts put t cs = (t', cs.length)) (ds : List α) :
    puts put t (cs ++ ds) = ((puts put t' ds).1, cs.length + (puts put t' ds).2) := by
  induction cs generalizing t with
  | nil =>
    cases h
    rw [List.nil_append, List.length_nil, Nat.zero_add]
  | cons c cs ih =>
    rw [List.cons_append, puts]
    rw [puts] at h
    cases hput : put t c with
    | none =>
      rw [hput] at h
      cases h
    | some u =>
      rw [hput] at h
      dsimp only at h ⊢
      obtain ⟨hstate, hcount⟩ := Prod.mk.inj h
      rw [ih (Prod.ext hstate (Nat.succ.inj hcount)), List.length_cons, Nat.add_right_comm]

end

namespace Streambuf

variable {σ α τ : Type} (b : Streambuf σ α)

/-- The characters between `gcur` and `gend` come next, and `sbumpc` gives the next one
when there are none. `R n` holds where up to `n` more characters are to be read. -/
structure Reads (R : Nat → σ → τ → Prop) (next : τ → Option (α × τ)) : Prop where
  fewer : ∀ n s t, R (n + 1) s t → R n s t
  area : ∀ n s t, R n s t → (b.areas s).gcur ≠ (b.areas s).gend →
    (b.areas s).gcur < (b.areas s).gend ∧
    ∀ k : Nat, 0 < k → k ≤ n → (b.areas s).gcur + k ≤ (b.areas s).gend → ∃ cs t',
      b.read_chars s (b.areas s).gcur k = some cs ∧ nexts next k t = (cs, t') ∧ cs.length = k ∧
        R (n - k) (b.with_areas s ((b.areas s).gbump k)) t'
  bump : ∀ n s t, R (n + 1) s t → (b.areas s).gcur = (b.areas s).gend →
    (next t = none → ∃ s', b.sbumpc s = some (s', none) ∧ R n s' t) ∧
    ∀ c t', next t = some (c, t') → ∃ s', b.sbumpc s = some (s', some c) ∧ R n s' t'

variable {b}

theorem Reads.none_left {R : Nat → σ → τ → Prop} {next : τ → Option (α × τ)}
    (h : b.Reads R next) {n : Nat} {s : σ} {t : τ} (hR : R n s t) : R 0 s t := by
  induction n with
  | zero => exact hR
  | succ n ih => exact ih (h.fewer n s t hR)

theorem xsgetn_loop_spec {R : Nat → σ → τ → Prop} {next : τ → Option (α × τ)}
    (h : b.Reads R next) {n : Nat} (fuel : Nat) (s : σ) (t : τ) (got : List α)
    (hfuel : n ≤ got.length + fuel) (hR : R (n - got.length) s t) : ∃ s',
      b.xsgetn_loop fuel n s got = some (s', got ++ (nexts next (n - got.length) t).1) ∧
        R 0 s' (nexts next (n - got.length) t).2 := by
  induction fuel generalizing s t got with
  | zero =>
    rw [Nat.sub_eq_zero_of_le (show n ≤ got.length from hfuel)]
    exact ⟨s, by rw [nexts, List.append_nil]; rfl, h.none_left hR⟩
  | succ fuel ih =>
    rw [xsgetn_loop]
    split
    next hlt =>
      have hlt' : got.length < n := Int.ofNat_lt.mp hlt
      dsimp only
      split
      next hne =>
        obtain ⟨hpos, harea⟩ := h.area _ s t hR hne
        generalize hk : (if (b.areas s).gend - (b.areas s).gcur < (n : Int) - got.length then
          (b.areas s).gend - (b.areas s).gcur else (n : Int) - got.length) = csize
        obtain ⟨k, rfl⟩ : ∃ k : Nat, csize = k := Int.eq_ofNat_of_zero_le (by split at hk <;> omega)
        have hle : 0 < k ∧ k ≤ n - got.length ∧ (b.areas s).gcur + k ≤ (b.areas s).gend := by
          split at hk <;> omega
        obtain ⟨cs, t', hcs, hnexts, hlen, hR'⟩ := harea k hle.1 hle.2.1 hle.2.2
        have hrest : n - (got ++ cs).length = n - got.length - k := by
          rw [List.length_append, hlen, Nat.sub_sub]
        obtain ⟨s', hloop, hR''⟩ := ih _ t' (got ++ cs)
          (by rw [List.length_append]; omega) (hrest ▸ hR')
        have hsplit : n - got.length = k + (n - (got ++ cs).length) := by omega
        rw [hsplit, nexts_append hnexts hlen, ← List.append_assoc]
        refine ⟨s', ?_, hR''⟩
        rw [if_neg (by omega), Int.toNat_natCast, hcs]
        exact hloop
      next heq =>
        obtain ⟨m, hm⟩ : ∃ m, n - got.length = m + 1 := ⟨n - got.length - 1, by omega⟩
        rw [hm] at hR
        obtain ⟨heof, hchar⟩ := h.bump m s t hR (not_not.mp heq)
        cases hnext : next t with
        | none =>
          obtain ⟨s', hbump, hR'⟩ := heof hnext
          rw [nexts_none hnext, hbump, List.append_nil]
          exact ⟨s', rfl, h.none_left hR'⟩
        | some x =>
          obtain ⟨c, t'⟩ := x
          obtain ⟨s', hbump, hR'⟩ := hchar c t' hnext
          have hrest : n - (got ++ [c]).length = m := by
            rw [List.length_append, List.length_singleton]
            omega
          obtain ⟨s'', hloop, hR''⟩ := ih s' t' (got ++ [c])
            (by rw [List.length_append, List.length_singleton]; omega) (hrest ▸ hR')
          rw [hrest] at hloop hR''
          rw [hm, nexts, hnext, hbump]
          refine ⟨s'', ?_, hR''⟩
          rw [List.append_assoc] at hloop
          exact hloop
    next hge =>
      rw [Nat.sub_eq_zero_of_le (Nat.not_lt.mp fun hlt => hge (Int.ofNat_lt.mpr hlt))]
      exact ⟨s, by rw [nexts, List.append_nil], h.none_left hR⟩

/-- `sgetn` reads what single calls would read. -/
theorem sgetn_spec {R : Nat → σ → τ → Prop} {next : τ → Option (α × τ)} (h : b.Reads R next)
    {n : Nat} {s : σ} {t : τ} (hR : R n s t) :
    ∃ s', b.sgetn s n = some (s', (nexts next n t).1) ∧ R 0 s' (nexts next n t).2 :=
  xsgetn_loop_spec h n s t [] (Nat.le_add_left _ _) hR

variable (b)

/-- Characters can be written between `pcur` and `pend`, and `sputc` writes one when there
is no room. `R n` holds where `n` more characters are to be written. -/
structure Writes (R : Nat → σ → τ → Prop) (put : τ → α → Option τ) : Prop where
  fewer : ∀ n s t, R (n + 1) s t → R n s t
  area : ∀ n s t, R n s t → (b.areas s).pcur ≠ (b.areas s).pend →
    (b.areas s).pcur < (b.areas s).pend ∧
    ∀ cs : List α, cs.length ≤ n → (b.areas s).pcur + cs.length ≤ (b.areas s).pend →
      ∃ s' t', b.write_chars s (b.areas s).pcur cs = some s' ∧
        puts put t cs = (t', cs.length) ∧
          R (n - cs.length) (b.with_areas s' ((b.areas s).pbump cs.length)) t'
  putc : ∀ n s t c, R (n + 1) s t → (b.areas s).pcur = (b.areas s).pend →
    (put t c = none → ∃ s', b.sputc s c = some (s', none) ∧ R n s' t) ∧
    ∀ t', put t c = some t' → ∃ s', b.sputc s c = some (s', some c) ∧ R n s' t'

variable {b}

theorem Writes.none_left {R : Nat → σ → τ → Prop} {put : τ → α → Option τ}
    (h : b.Writes R put) {n : Nat} {s : σ} {t : τ} (hR : R n s t) : R 0 s t := by
  induction n with
  | zero => exact hR
  | succ n ih => exact ih (h.fewer n s t hR)

theorem xsputn_loop_spec {R : Nat → σ → τ → Prop} {put : τ → α → Option τ}
    (h : b.Writes R put) (fuel : Nat) (s : σ) (t : τ) (cs : List α) (count : Nat)
    (hfuel : cs.length ≤ fuel) (hR : R cs.length s t) : ∃ s',
      b.xsputn_loop fuel s cs count = some (s', count + (puts put t cs).2) ∧
        R 0 s' (puts put t cs).1 := by
  induction fuel generalizing s t cs count with
  | zero =>
    obtain rfl := List.length_eq_zero_iff.mp (Nat.le_zero.mp hfuel)
    exact ⟨s, rfl, hR⟩
  | succ fuel ih =>
    cases cs with
    | nil => exact ⟨s, rfl, hR⟩
    | cons c cs =>
      rw [xsputn_loop]
      dsimp only
      have hlen : (c :: cs).length = cs.length + 1 := List.length_cons
      split
      next hne =>
        obtain ⟨hpos, harea⟩ := h.area _ s t hR (by omega)
        generalize hk : (if ((c :: cs).length : Int) < (b.areas s).pend - (b.areas s).pcur then
          ((c :: cs).length : Int) else (b.areas s).pend - (b.areas s).pcur) = m
        obtain ⟨k, rfl⟩ : ∃ k : Nat, m = k := Int.eq_ofNat_of_zero_le (by split at hk <;> omega)
        have hle : 0 < k ∧ k ≤ (c :: cs).length ∧ (b.areas s).pcur + k ≤ (b.areas s).pend := by
          split at hk <;> omega
        have htake : ((c :: cs).take k).length = k := List.length_take_of_le hle.2.1
        obtain ⟨s', t', hwrite, hputs, hR'⟩ :=
          harea ((c :: cs).take k) (by rw [htake]; exact hle.2.1) (by rw [htake]; exact hle.2.2)
        have hsplit : puts put t (c :: cs) =
            ((puts put t' ((c :: cs).drop k)).1, k + (puts put t' ((c :: cs).drop k)).2) := by
          have happ := puts_append hputs ((c :: cs).drop k)
          rwa [List.take_append_drop, htake] at happ
        have hdrop : ((c :: cs).drop k).length = (c :: cs).length - k := List.length_drop
        rw [htake, ← hdrop] at hR'
        obtain ⟨s'', hloop, hR''⟩ := ih _ t' ((c :: cs).drop k) (count + k) (by omega) hR'
        rw [hsplit, ← Nat.add_assoc]
        refine ⟨s'', ?_, hR''⟩
        rw [if_neg (by omega), Int.toNat_natCast, hwrite]
        exact hloop
      next heq =>
        rw [hlen] at hR
        obtain ⟨hfail, hput⟩ := h.putc _ s t c hR (by omega)
        rw [puts]
        cases hnext : put t c with
        | none =>
          obtain ⟨s', hsputc, hR'⟩ := hfail hnext
          exact ⟨s', by rw [hsputc]; rfl, h.none_left hR'⟩
        | some t' =>
          obtain ⟨s', hsputc, hR'⟩ := hput t' hnext
          obtain ⟨s'', hloop, hR''⟩ := ih s' t' cs (count + 1) (Nat.le_of_succ_le_succ hfuel) hR'
          refine ⟨s'', ?_, hR''⟩
          rw [hsputc]
          rw [Nat.add_right_comm] at hloop
          exact hloop

/-- `sputn` writes what single calls would write. -/
theorem sputn_spec {R : Nat → σ → τ → Prop} {put : τ → α → Option τ} (h : b.Writes R put)
    {s : σ} {t : τ} {cs : List α} (hR : R cs.length s t) :
    ∃ s', b.sputn s cs = some (s', (puts put t cs).2) ∧ R 0 s' (puts put t cs).1 := by
  rw [sputn]
  split
  next hlt =>
    obtain ⟨-, harea⟩ := h.area _ s t hR (by omega)
    obtain ⟨s', t', hwrite, hputs, hR'⟩ := harea cs (Nat.le_refl _) (by omega)
    rw [hwrite, hputs]
    exact ⟨_, rfl, h.none_left hR'⟩
  next =>
    obtain ⟨s', hloop, hR'⟩ := xsputn_loop_spec h cs.length s t cs 0 (Nat.le_refl _) hR
    rw [Nat.zero_add] at hloop
    exact ⟨s', hloop, hR'⟩

end Streambuf

end Kuhllib.Cxxrt
