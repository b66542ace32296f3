import Kuhllib.Cxxrt.Cache
import Kuhllib.Lib.Numeral
import Mathlib.Data.List.TakeWhile

/-!
# `num_get`: integers

The iterators are the characters that are left. `get_next` is never called at the
end. `unsigned long` has 64 bits, and all arithmetic wraps.
-/

namespace Kuhllib.Cxxrt

inductive Basefield
  | oct
  | dec
  | hex
  | none
  deriving DecidableEq, Repr

def Basefield.base : Basefield → Nat
  | .oct => 8
  | .dec => 10
  | .hex => 16
  | .none => 17

/-! `numeric_limits<unsigned long>` -/

def digits : Nat := 8 * 8
def digits10 : Nat := 1 + (30103 * digits) / 100000
def ulong_max : Nat := 9223372036854775807 * 2 + 1

/-- What `_CS_get_integer` returns and sets. -/
structure Extracted where
  ok : Bool
  begin : List Int
  failbit : Bool
  eofbit : Bool
  val : Nat
  negative : Bool
  deriving DecidableEq, Repr

/-- Where the loop that reads the digits is left. -/
structure Reading where
  stopped : Bool
  begin : List Int
  count : Int
  val : Nat
  deriving DecidableEq, Repr

section

variable (t : Cache) (base : Nat)

/-- `while (cval == 0) if (!get_next(cval)) ..` -/
def skip_zeros : List Int → List Int
  | [] => []
  | c :: cs => if t.find c = 0 then skip_zeros cs else c :: cs

def init_count : Int :=
  if base = 10 then digits10 - 1
  else if base = 8 then (digits / 3 : Nat) - 1
  else if base = 16 then (digits / 4 : Nat) - 1
  else 0

/-- The loop with `get_next_counted`. -/
def read_digits (count : Int) (val : Nat) : List Int → Reading
  | [] => ⟨false, [], count, val⟩
  | c :: cs =>
    if t.find c < base then
      let val := (val * base + t.find c) % 2 ^ 64
      if count - 1 = 0 then ⟨false, c :: cs, count - 1, val⟩
      else read_digits (count - 1) val cs
    else ⟨true, c :: cs, count, val⟩

/-- `while (get_next(cval) && cval < base);` behind the current character. -/
def skip_digits : List Int → List Int
  | [] => []
  | c :: cs => if t.find c < base then skip_digits cs else c :: cs

def success (negative : Bool) (val : Nat) (begin : List Int) : Extracted :=
  ⟨true, begin, false, begin.isEmpty, val, negative⟩

def overflow (negative : Bool) (begin : List Int) : Extracted :=
  let begin := skip_digits t base begin.tail
  ⟨false, begin, false, begin.isEmpty, ulong_max, negative⟩

/-- The overflow check, where the current character is the last one read. -/
def check_overflow (negative : Bool) (val : Nat) (begin : List Int) : Extracted :=
  match begin.tail with
  | [] => success negative val []
  | c :: cs =>
    if t.find c < base then
      if val ≤ ulong_max / base ∧ t.find c ≤ ulong_max - val * base then
        match cs with
        | [] => success negative (val * base + t.find c) []
        | c' :: _ =>
          if t.find c' < base then overflow t base negative cs
          else success negative (val * base + t.find c) cs
      else overflow t base negative (c :: cs)
    else success negative val (c :: cs)

/-- From the leading zeros on. -/
def get_value (negative : Bool) (begin : List Int) : Extracted :=
  match skip_zeros t begin with
  | [] => ⟨true, [], false, true, 0, negative⟩
  | begin =>
    let r := read_digits t base (init_count base) 0 begin
    if r.stopped then ⟨true, r.begin, false, false, r.val, negative⟩
    else if r.count = 0 then check_overflow t base negative r.val r.begin
    else success negative r.val r.begin

end

section

variable (t : Cache)

/-- From the prefix of the base on. -/
def get_prefix (bf : Basefield) (negative : Bool) : List Int → Extracted
  | [] => ⟨false, [], true, true, 0, negative⟩
  | c :: cs =>
    if t.find c = 0 then
      match cs with
      | [] => ⟨true, [], false, true, 0, negative⟩
      | c' :: cs' =>
        if 16 ≤ bf.base then
          if t.find c' = CacheBase.hex then
            match cs' with
            | [] => ⟨true, [], false, true, 0, negative⟩
            | c'' :: _ =>
              if t.find c'' > 16 then ⟨true, cs', false, true, 0, negative⟩
              else get_value t 16 negative cs'
          else get_value t (if bf.base = 17 then 8 else bf.base) negative (c' :: cs')
        else get_value t bf.base negative (c' :: cs')
    else
      let base := if bf.base = 17 then 10 else bf.base
      if t.find c ≥ base then ⟨false, c :: cs, true, false, 0, negative⟩
      else get_value t base negative (c :: cs)

def get_integer (bf : Basefield) : List Int → Extracted
  | [] => ⟨false, [], true, true, 0, false⟩
  | c :: cs =>
    if t.find c = CacheBase.minus then get_prefix t bf true cs
    else if t.find c = CacheBase.plus then get_prefix t bf false cs
    else get_prefix t bf false (c :: cs)

/-- What `do_get` returns and sets. -/
structure Got (V : Type) where
  begin : List Int
  failbit : Bool
  eofbit : Bool
  val : V
  deriving DecidableEq, Repr

def long_min : Int := -9223372036854775807 - 1
def long_max : Int := 9223372036854775807

/-- `do_get` for `long`; `val` is what the target holds before. -/
def get_signed_integer (bf : Basefield) (begin : List Int) (val : Int) : Got Int :=
  let e := get_integer t bf begin
  let val :=
    if e.ok then
      if e.negative then
        if e.val > (-long_min).toNat then long_min else (-(e.val : Int)).bmod (2 ^ 64)
      else if e.val > long_max.toNat then long_max
      else e.val
    else if e.val = ulong_max then if e.negative then long_min else long_max
    else val
  ⟨e.begin, e.failbit, e.eofbit, val⟩

/-- The unsigned target types. -/
inductive Unsigned
  | short
  | int
  | long
  deriving DecidableEq, Repr

def Unsigned.max : Unsigned → Nat
  | .short => 32767 * 2 + 1
  | .int => 2147483647 * 2 + 1
  | .long => ulong_max

/-- `do_get` for the unsigned types. -/
def get_unsigned_integer (u : Unsigned) (bf : Basefield) (begin : List Int) (val : Nat) : Got Nat :=
  let e := get_integer t bf begin
  let val :=
    if e.ok then
      if e.val > u.max then u.max
      else if e.negative then (u.max + 1 - e.val) % (u.max + 1)
      else e.val
    else if e.val = ulong_max then u.max
    else val
  ⟨e.begin, e.failbit, e.eofbit, val⟩

end

/-! ## The digits -/

section

variable (t : Cache) (b : Nat)

def isDigit (c : Int) : Bool := t.find c < b

/-- The digits at the beginning. -/
def run (cs : List Int) : List Int := cs.takeWhile (isDigit t b)

def rest (cs : List Int) : List Int := cs.dropWhile (isDigit t b)

def runValue (cs : List Int) : Nat := Numeral.value b ((run t b cs).map t.find)

/-- The value of the run behind digits of value `v`. -/
def extend (v : Nat) (cs : List Int) : Nat := v * b ^ (run t b cs).length + runValue t b cs

/-- The least value of a numeral that does not fit, as far as the digits are counted:
21 digits to base 8. -/
def capacity : Nat := if b = 8 then 8 ^ 21 else 2 ^ 64

end

namespace NumGetLemmas

variable {t : Cache} {b : Nat}

theorem run_append_rest (cs : List Int) : run t b cs ++ rest t b cs = cs :=
  List.takeWhile_append_dropWhile

theorem run_cons {c : Int} (h : t.find c < b) (cs : List Int) :
    run t b (c :: cs) = c :: run t b cs ∧ rest t b (c :: cs) = rest t b cs := by
  simp [run, rest, isDigit, h]

theorem run_cons_stop {c : Int} (h : ¬ t.find c < b) (cs : List Int) :
    run t b (c :: cs) = [] ∧ rest t b (c :: cs) = c :: cs := by
  simp [run, rest, isDigit, h]

/-- The character behind the run is no digit. -/
theorem rest_head {c : Int} {cs cs' : List Int} (h : rest t b cs = c :: cs') : ¬ t.find c < b := by
  induction cs with
  | nil => cases h
  | cons x cs ih =>
    by_cases hx : t.find x < b
    · rw [(run_cons hx cs).2] at h
      exact ih h
    · rw [(run_cons_stop hx cs).2] at h
      cases h
      exact hx

theorem run_lt (cs : List Int) : ∀ d ∈ (run t b cs).map t.find, d < b := by
  intro d hd
  obtain ⟨c, hc, rfl⟩ := List.mem_map.mp hd
  have := List.mem_takeWhile_imp hc
  simpa [isDigit] using this

theorem runValue_lt (cs : List Int) : runValue t b cs < b ^ (run t b cs).length := by
  have := Numeral.value_lt (run_lt (t := t) (b := b) cs)
  rwa [List.length_map] at this

theorem extend_zero (cs : List Int) : extend t b 0 cs = runValue t b cs := by
  rw [extend, Nat.zero_mul, Nat.zero_add]

theorem extend_cons {c : Int} (h : t.find c < b) (v : Nat) (cs : List Int) :
    extend t b v (c :: cs) = extend t b (v * b + t.find c) cs := by
  have hrun := (run_cons h cs).1
  rw [extend, extend, runValue, hrun, List.map_cons, Numeral.value_cons, List.length_map,
    List.length_cons, pow_succ]
  unfold runValue
  ring

theorem extend_stop {c : Int} (h : ¬ t.find c < b) (v : Nat) (cs : List Int) :
    extend t b v (c :: cs) = v ∧ rest t b (c :: cs) = c :: cs := by
  obtain ⟨hrun, hrest⟩ := run_cons_stop h cs
  simp [extend, runValue, hrun, hrest]

theorem extend_nil (v : Nat) : extend t b v [] = v ∧ rest t b [] = [] := by
  simp [extend, run, runValue, rest]

theorem extend_append {ds : List Int} (h : ∀ c ∈ ds, t.find c < b) (v : Nat) (cs : List Int) :
    extend t b v (ds ++ cs) = extend t b (extend t b v ds) cs ∧
      rest t b (ds ++ cs) = rest t b cs := by
  induction ds generalizing v with
  | nil => exact ⟨by rw [(extend_nil v).1]; rfl, rfl⟩
  | cons d ds ih =>
    have hd := h d List.mem_cons_self
    obtain ⟨hvalue, hrest⟩ := ih (fun c hc => h c (List.mem_cons_of_mem _ hc)) (v * b + t.find d)
    rw [List.cons_append, extend_cons hd, extend_cons hd, (run_cons hd _).2]
    exact ⟨hvalue, hrest⟩

theorem run_all {ds : List Int} (h : ∀ c ∈ ds, t.find c < b) : run t b ds = ds :=
  List.takeWhile_eq_self_iff.mpr fun c hc => by simpa [isDigit] using h c hc

theorem le_extend (v : Nat) (cs : List Int) (hb : 0 < b) : v ≤ extend t b v cs :=
  Nat.le_add_right_of_le (Nat.le_mul_of_pos_right _ (Nat.pow_pos hb))

theorem skip_digits_eq (cs : List Int) : skip_digits t b cs = rest t b cs := by
  induction cs with
  | nil => rfl
  | cons c cs ih =>
    by_cases h : t.find c < b
    · rw [skip_digits, if_pos h, ih, (run_cons h cs).2]
    · rw [skip_digits, if_neg h, (run_cons_stop h cs).2]

/-- Leading zeros do not count. -/
theorem skip_zeros_spec (hb : 0 < b) (cs : List Int) :
    runValue t b (skip_zeros t cs) = runValue t b cs ∧
      rest t b (skip_zeros t cs) = rest t b cs ∧
      ∀ c cs', skip_zeros t cs = c :: cs' → t.find c ≠ 0 := by
  induction cs with
  | nil => exact ⟨rfl, rfl, fun c cs' h => by cases h⟩
  | cons c cs ih =>
    by_cases h : t.find c = 0
    · obtain ⟨hvalue, hrest, hne⟩ := ih
      obtain ⟨hrun, hrest'⟩ := run_cons (t := t) (b := b) (h ▸ hb) cs
      rw [skip_zeros, if_pos h]
      refine ⟨?_, by rw [hrest, hrest'], hne⟩
      rw [hvalue, runValue, runValue, hrun, List.map_cons, h, Numeral.value_zero_cons]
    · rw [skip_zeros, if_neg h]
      refine ⟨rfl, rfl, fun c' cs' he => ?_⟩
      cases he
      exact h

/-- The loop reads the run, or as many digits of it as are counted. -/
theorem read_digits_spec {k v : Nat} (hv : (v + 1) * b ^ (k + 1) ≤ 2 ^ 64) (cs : List Int) :
    ((run t b cs).length ≤ k ∧
      read_digits t b (k + 1) v cs =
        ⟨!(rest t b cs).isEmpty, rest t b cs, k + 1 - (run t b cs).length, extend t b v cs⟩) ∨
    ∃ ds c cs', cs = ds ++ c :: cs' ∧ ds.length = k ∧ (∀ c' ∈ ds ++ [c], t.find c' < b) ∧
      read_digits t b (k + 1) v cs = ⟨false, c :: cs', 0, extend t b v (ds ++ [c])⟩ := by
  induction cs generalizing k v with
  | nil =>
    left
    refine ⟨Nat.zero_le k, ?_⟩
    simp [read_digits, extend, run, rest, runValue]
  | cons c cs ih =>
    by_cases h : t.find c < b
    · obtain ⟨hrun, hrest⟩ := run_cons h cs
      have hnext : (v * b + t.find c + 1) * b ^ k ≤ 2 ^ 64 := by
        refine Nat.le_trans ?_ hv
        rw [pow_succ, Nat.mul_comm (b ^ k), ← Nat.mul_assoc]
        refine Nat.mul_le_mul_right _ ?_
        rw [Nat.add_mul]
        omega
      have hmod : (v * b + t.find c) % 2 ^ 64 = v * b + t.find c := by
        have hpos : 0 < b ^ k := Nat.pow_pos (Nat.zero_lt_of_lt h)
        exact Nat.mod_eq_of_lt (Nat.lt_of_lt_of_le (Nat.le_mul_of_pos_right _ hpos) hnext)
      cases k with
      | zero =>
        right
        refine ⟨[], c, cs, rfl, rfl, by simpa using h, ?_⟩
        simp only [read_digits, if_pos h, hmod, List.nil_append]
        rw [extend_cons h, (extend_nil _).1]
        rfl
      | succ k =>
        have hread : read_digits t b ((k + 1 : Nat) + 1) v (c :: cs) =
            read_digits t b (k + 1) (v * b + t.find c) cs := by
          rw [read_digits, if_pos h, hmod, Int.add_sub_cancel, if_neg (by omega)]
          rfl
        rw [hread]
        rcases ih hnext with ⟨hlt, he⟩ | ⟨ds, c', cs', rfl, hlen, hds, he⟩
        · left
          rw [he, hrun, hrest, List.length_cons, extend_cons h]
          refine ⟨by omega, ?_⟩
          congr 1
          omega
        · right
          refine ⟨c :: ds, c', cs', rfl, by rw [List.length_cons, hlen], ?_, ?_⟩
          · intro x hx
            rcases List.mem_cons.mp hx with rfl | hx
            · exact h
            · exact hds x hx
          · rw [he, List.cons_append, extend_cons h]
    · obtain ⟨hrun, hrest⟩ := run_cons_stop h cs
      left
      refine ⟨by rw [hrun]; exact Nat.zero_le k, ?_⟩
      rw [read_digits, if_neg h, extend, runValue, hrun, hrest]
      simp

/-- What a numeral gives that fits, and one that does not. -/
def extracted (negative : Bool) (n capacity : Nat) (begin : List Int) : Extracted :=
  ⟨decide (n < capacity), begin, false, begin.isEmpty, if n < capacity then n else ulong_max, negative⟩

section

variable {negative : Bool} {n v cap : Nat} {begin cs : List Int} {c : Int}

theorem success_eq (h : n < cap) : success negative n begin = extracted negative n cap begin := by
  rw [extracted, if_pos h, decide_eq_true h]
  rfl

theorem overflow_eq (h : cap ≤ n) (hc : t.find c < b) :
    overflow t b negative (c :: cs) = extracted negative n cap (rest t b (c :: cs)) := by
  rw [extracted, if_neg (Nat.not_lt.mpr h), decide_eq_false (Nat.not_lt.mpr h), (run_cons hc cs).2,
    overflow, List.tail_cons, skip_digits_eq]

/-- The counted digits have been read, and there may be more. The check is right if
one more digit fits when it fits into `unsigned long`, and two more do not fit. -/
theorem check_overflow_spec (hb : 0 < b) (hv : v < cap)
    (hone : ∀ d < b, v * b + d ≤ ulong_max ↔ v * b + d < cap)
    (htwo : ∀ d d', cap ≤ (v * b + d) * b + d') :
    check_overflow t b negative v (c :: cs) =
      extracted negative (extend t b v cs) cap (rest t b cs) := by
  unfold check_overflow
  rw [List.tail_cons]
  cases cs with
  | nil =>
    obtain ⟨he, hr⟩ := extend_nil (t := t) (b := b) v
    rw [he, hr]
    exact success_eq hv
  | cons c cs =>
    dsimp only
    by_cases hc : t.find c < b
    · have hfits : v ≤ ulong_max / b ∧ t.find c ≤ ulong_max - v * b ↔
          v * b + t.find c < cap := by
        rw [← hone _ hc, Nat.le_div_iff_mul_le hb]
        omega
      rw [if_pos hc]
      by_cases hfit : v * b + t.find c < cap
      · rw [if_pos (hfits.mpr hfit), extend_cons hc, (run_cons hc cs).2]
        cases cs with
        | nil =>
          obtain ⟨he, hr⟩ := extend_nil (t := t) (b := b) (v * b + t.find c)
          rw [he, hr]
          exact success_eq hfit
        | cons c' cs =>
          dsimp only
          by_cases hc' : t.find c' < b
          · rw [if_pos hc']
            refine overflow_eq ?_ hc'
            rw [extend_cons hc']
            exact Nat.le_trans (htwo _ _) (le_extend _ _ hb)
          · obtain ⟨he, hr⟩ := extend_stop hc' (v * b + t.find c) cs
            rw [if_neg hc', he, hr]
            exact success_eq hfit
      · rw [if_neg (mt hfits.mp hfit)]
        refine overflow_eq ?_ hc
        rw [extend_cons hc]
        exact Nat.le_trans (Nat.le_of_not_lt hfit) (le_extend _ _ hb)
    · obtain ⟨he, hr⟩ := extend_stop hc v cs
      rw [if_neg hc, he, hr]
      exact success_eq hv

/-- A numeral is read if the digits can be counted: `k + 1` digits fit, and so does one
more if it fits into `unsigned long`, but not two more. -/
theorem get_value_of {k : Nat} (hb : 0 < b) (hcount : init_count b = k + 1)
    (hread : b ^ (k + 1) ≤ 2 ^ 64) (hcap : b ^ (k + 1) ≤ cap) (htwo : cap ≤ b ^ (k + 2))
    (hone : ∀ v < b ^ (k + 1), ∀ d < b, v * b + d ≤ ulong_max ↔ v * b + d < cap) (cs : List Int) :
    get_value t b negative cs = extracted negative (runValue t b cs) cap (rest t b cs) := by
  obtain ⟨hvalue, hrest, hne⟩ := skip_zeros_spec (t := t) hb cs
  have hpos : 0 < cap := Nat.lt_of_lt_of_le (Nat.pow_pos hb) hcap
  rw [← hvalue, ← hrest, ← extend_zero]
  unfold get_value
  cases hskip : skip_zeros t cs with
  | nil =>
    obtain ⟨he, hr⟩ := extend_nil (t := t) (b := b) 0
    rw [he, hr]
    exact success_eq hpos
  | cons c cs =>
    have hc := hne c cs hskip
    dsimp only
    rw [hcount]
    rcases read_digits_spec (t := t) (b := b) (k := k) (v := 0) (by simpa using hread) (c :: cs) with
      ⟨hlen, he⟩ | ⟨ds, c', cs', hcs, hlen, hds, he⟩
    · have hlt : extend t b 0 (c :: cs) < cap := by
        rw [extend_zero]
        refine Nat.lt_of_lt_of_le (runValue_lt _) (Nat.le_trans ?_ hcap)
        exact Nat.pow_le_pow_right hb (by omega)
      rw [he]
      cases hr : rest t b (c :: cs) with
      | nil =>
        simp only [List.isEmpty_nil, Bool.not_true, Bool.false_eq_true, if_false]
        rw [if_neg (by omega)]
        exact success_eq hlt
      | cons x xs => exact success_eq hlt
    · have hcs' : c :: cs = (ds ++ [c']) ++ cs' := by rw [hcs, List.append_assoc]; rfl
      obtain ⟨hext, hrest'⟩ := extend_append hds 0 cs'
      have hall := run_all hds
      have hlength : (ds ++ [c']).length = k + 1 := by rw [List.length_append, hlen]; rfl
      have hlt : extend t b 0 (ds ++ [c']) < b ^ (k + 1) := by
        have := runValue_lt (t := t) (b := b) (ds ++ [c'])
        rwa [hall, hlength, ← extend_zero] at this
      -- the first digit is not zero
      have hge : b ^ k ≤ extend t b 0 (ds ++ [c']) := by
        obtain ⟨xs, hxs⟩ : ∃ xs, ds ++ [c'] = c :: xs := by
          cases ds with
          | nil =>
            cases hcs
            exact ⟨[], rfl⟩
          | cons d ds =>
            cases hcs
            exact ⟨ds ++ [c'], rfl⟩
        rw [extend_zero, runValue, hall, hxs, List.map_cons]
        have hk : k = (xs.map t.find).length := by
          rw [hxs, List.length_cons] at hlength
          rw [List.length_map]
          omega
        rw [hk]
        exact Numeral.le_value hc
      rw [hcs', hext, hrest', ← hcs', he]
      refine check_overflow_spec hb (Nat.lt_of_lt_of_le hlt hcap) (hone _ hlt) fun d d' => ?_
      refine Nat.le_trans htwo ?_
      rw [pow_succ, pow_succ]
      refine Nat.le_trans (Nat.mul_le_mul_right b ?_) (Nat.le_add_right _ _)
      exact Nat.le_trans (Nat.mul_le_mul_right b hge) (Nat.le_add_right _ _)

end

end NumGetLemmas

open NumGetLemmas

/-- The digits of a numeral to base 8, 10 or 16 are consumed. The value is theirs if it
is below the capacity, and the greatest one otherwise. -/
theorem get_value_spec {t : Cache} {b : Nat} (hb : b = 8 ∨ b = 10 ∨ b = 16) (negative : Bool)
    (cs : List Int) :
    get_value t b negative cs = extracted negative (runValue t b cs) (capacity b) (rest t b cs) := by
  rcases hb with rfl | rfl | rfl
  · refine get_value_of (k := 19) (by decide) (by decide) (by decide) (by decide) (by decide) ?_ cs
    intro v hv d hd
    unfold ulong_max capacity
    rw [if_pos rfl]
    omega
  · refine get_value_of (k := 18) (by decide) (by decide) (by decide) (by decide) (by decide) ?_ cs
    intro v hv d hd
    unfold ulong_max capacity
    rw [if_neg (by decide)]
    omega
  · refine get_value_of (k := 14) (by decide) (by decide) (by decide) (by decide) (by decide) ?_ cs
    intro v hv d hd
    unfold ulong_max capacity
    rw [if_neg (by decide)]
    omega

end Kuhllib.Cxxrt
