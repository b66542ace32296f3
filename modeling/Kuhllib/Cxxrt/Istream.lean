import Kuhllib.Cxxrt.Ios
import Kuhllib.Cxxrt.Sources

/-!
# `basic_istream`: unformatted input

The array that is read to is a function of the index. A function that the program does not return
from, and one that reads what is not allocated, gives nothing. What `tie()->flush()` does to the
tied stream is left out, but it may throw. The functions of the buffer do not throw.

Results:
1. `report_state`: what the state is behind a `try` block.
2. `sentry_good`, `sentry_skip`: what the sentry does with a good stream.
-/

namespace Kuhllib.Cxxrt

/-- The functions of `char_traits` that convert between characters and `int_type`. -/
structure CharTraits (α I : Type) where
  to_char_type : I → α
  to_int_type : α → I
  eof : I
  to_char_to_int : ∀ c, to_char_type (to_int_type c) = c
  to_int_ne_eof : ∀ c, to_int_type c ≠ eof

/-- `char_traits<char>`; the bytes are signed when they are converted otherwise. -/
def CharTraits.char : CharTraits (BitVec 8) Int where
  to_char_type i := BitVec.ofInt 8 i
  to_int_type c := c.toNat
  eof := -1
  to_char_to_int c := by simp
  to_int_ne_eof c := by omega

/-- `numeric_limits<streamsize>::max()`. -/
def streamsize_max : Int := 2 ^ 63 - 1

/-- A stream whose buffer is in the state `m_sbuf`. -/
structure Istream (ι σ : Type) extends Ios ι σ where
  m_gcount : Int
  deriving DecidableEq

namespace Istream

variable {ι σ : Type}

def with_sbuf (is : Istream ι σ) (s : σ) : Istream ι σ := { is with m_sbuf := some s }

def setstate (is : Istream ι σ) (state : Iostate) : Istream ι σ × Bool :=
  let (s, threw) := is.toIos.setstate state
  ({ is with toIos := s }, threw)

def process_exception (is : Istream ι σ) : Istream ι σ × Bool :=
  let (s, threw) := is.toIos.process_exception
  ({ is with toIos := s }, threw)

/-- `setstate(state)` at the end of a `try` block, unless nothing is to be set. -/
def report (is : Istream ι σ) (state : Iostate) : Istream ι σ × Bool :=
  if state = goodbit then (is, false)
  else
    let (is, threw) := is.setstate state
    if threw then is.process_exception else (is, false)

/-- `sentry(is, noskipws)`, and whether it throws. `throws` says whether it throws to flush a
stream, `skip` is `_CS_skip_ws` unless `noskipws` is true. -/
def sentry (throws : ι → Bool) (skip : Option (σ → Option (σ × Bool))) (is : Istream ι σ) :
    Option (Istream ι σ × Bool) :=
  if is.good then
    if is.m_tie.any throws then some is.process_exception
    else match skip with
      | none => some (is, false)
      | some skip =>
        if is.flags &&& skipws ≠ 0 then do
          let s ← is.m_sbuf
          let (s, ended) ← skip s
          some ((is.with_sbuf s).report (if ended then eofbit ||| failbit else goodbit))
        else some (is, false)
  else some (is, false)

def need_isentry (is : Istream ι σ) : Bool := is.fmtflags &&& (os_good ||| os_tie) ≠ 0

/-- `sentry(is, true, true)`, whether it throws, and its value. -/
def checked_sentry (throws : ι → Bool) (is : Istream ι σ) :
    Option (Istream ι σ × Bool × Bool) :=
  if is.flags &&& (os_good ||| os_tie) ≠ 0 then do
    let (is, threw) ← is.sentry throws none
    some (is, threw, is.good)
  else some (is, false, true)

end Istream

/-- `copy` to the array. -/
def copy_to {α : Type} (arr : Nat → α) (i : Nat) : List α → Nat → α
  | [] => arr
  | c :: cs => copy_to (Function.update arr i c) (i + 1) cs

namespace Istream

section

variable {ι σ α : Type} (b : Streambuf σ α) (throws : ι → Bool) (is : Istream ι σ)

/-! ## Single characters -/

/-- `_CS_get()`. -/
def get_slow : Option (Istream ι σ × Option α × Bool) := do
  let (is, threw, ok) ← is.checked_sentry throws
  if threw then some (is, none, true)
  else if ok then do
    let s ← is.m_sbuf
    let (s, c) ← b.sbumpc s
    let is := is.with_sbuf s
    match c with
    | none =>
      let (is, threw) := is.setstate (failbit ||| eofbit)
      if threw then
        let (is, threw) := is.process_exception
        some (is, none, threw)
      else some ({ is with m_gcount := 0 }, none, false)
    | some c => some ({ is with m_gcount := 1 }, some c, false)
  else
    let (is, threw) := is.setstate failbit
    some (is, none, threw)

/-- `get()`. -/
def get : Option (Istream ι σ × Option α × Bool) :=
  let is := { is with m_gcount := 1 }
  match is.m_sbuf with
  | none => some (is, none, false)
  | some s =>
    let a := b.areas s
    if is.need_isentry || a.gcur = a.gend then get_slow b throws is
    else do
      let c ← b.load s a.gcur
      some (is.with_sbuf (b.with_areas s { a with gcur := a.gcur + 1 }), some c, false)

/-- `get(c)`; what is stored. -/
def get_char : Option (Istream ι σ × Option α × Bool) := do
  let (is, threw) ← is.sentry throws none
  if threw then some (is, none, true)
  else if is.good then do
    let s ← is.m_sbuf
    let (s, c) ← b.sbumpc s
    let is := is.with_sbuf s
    match c with
    | none =>
      let (is, threw) := is.setstate (failbit ||| eofbit)
      if threw then
        let (is, threw) := is.process_exception
        some (is, none, threw)
      else some ({ is with m_gcount := 0 }, none, false)
    | some c => some ({ is with m_gcount := 1 }, some c, false)
  else
    let (is, threw) := is.setstate failbit
    some (is, none, threw)

/-- `ignore()`. -/
def ignore_one : Option (Istream ι σ × Bool) := do
  let (is, threw) ← is.sentry throws none
  if threw then some (is, true)
  else if is.good then do
    let s ← is.m_sbuf
    let (s, c) ← b.sbumpc s
    let is := is.with_sbuf s
    if c.isNone then
      let (is, threw) := is.setstate eofbit
      if threw then some is.process_exception else some ({ is with m_gcount := 0 }, false)
    else some ({ is with m_gcount := 1 }, false)
  else some (is, false)

def peek : Option (Istream ι σ × Option α × Bool) := do
  let is := { is with m_gcount := 0 }
  let (is, threw) ← is.sentry throws none
  if threw then
    let (is, threw) := is.process_exception
    some (is, none, threw)
  else if is.good then do
    let s ← is.m_sbuf
    let (s, c) ← b.sgetc s
    some (is.with_sbuf s, c, false)
  else some (is, none, false)

def putback [DecidableEq α] (c : α) : Option (Istream ι σ × Bool) := do
  let (is, threw) ← is.sentry throws none
  if threw then some (is, true)
  else if is.good then do
    let s ← is.m_sbuf
    let (s, r) ← b.sputbackc s c
    some ((is.with_sbuf s).report (if r.isNone then badbit else goodbit))
  else some (is.setstate failbit)

def unget : Option (Istream ι σ × Bool) := do
  let (is, threw) ← is.sentry throws none
  if threw then some (is, true)
  else if is.good then do
    let s ← is.m_sbuf
    let (s, r) ← b.sungetc s
    some ((is.with_sbuf s).report (if r.isNone then badbit else goodbit))
  else some (is.setstate failbit)

/-! ## Blocks -/

/-- `read(s, n)`; what is stored. -/
def read (n : Int) : Option (Istream ι σ × List α × Bool) := do
  let (is, threw) ← is.sentry throws none
  if threw then some (is, [], true)
  else if is.good then do
    let s ← is.m_sbuf
    let (s, cs) ← b.sgetn s n
    let is := { is.with_sbuf s with m_gcount := cs.length }
    let (is, threw) := is.report (if is.m_gcount < n then eofbit ||| failbit else goodbit)
    some (is, cs, threw)
  else
    let (is, threw) := { is with m_gcount := 0 }.setstate failbit
    some (is, [], threw)

/-- `in_avail()`. -/
def in_avail (showmanyc : σ → Int) (s : σ) : Int :=
  let a := b.areas s
  if a.gend ≠ a.gcur then a.gend - a.gcur else showmanyc s

/-- `readsome(s, n)`; what is stored. -/
def readsome (showmanyc : σ → Int) (n : Int) : Option (Istream ι σ × List α × Bool) := do
  let (is, threw) ← is.sentry throws none
  if threw then some (is, [], true)
  else if is.good then do
    let s ← is.m_sbuf
    let avail := in_avail b showmanyc s
    if avail = -1 then
      let (is, threw) := is.setstate eofbit
      if threw then
        let (is, threw) := is.process_exception
        some (is, [], threw)
      else some ({ is with m_gcount := 0 }, [], false)
    else if avail = 0 then some ({ is with m_gcount := 0 }, [], false)
    else do
      let n := if avail < n then avail else n
      let (s, cs) ← b.sgetn s n
      some ({ is.with_sbuf s with m_gcount := cs.length }, cs, false)
  else
    let (is, threw) := { is with m_gcount := 0 }.setstate failbit
    some (is, [], threw)

end

/-! ## Lines -/

section

variable {ι σ α : Type} [DecidableEq α] (b : Streambuf σ α) (throws : ι → Bool) (nul : α)

/-- The loop of `get(s, n, d)`: the buffer, where `s` points to, the array, and what is passed to
`setstate`. Each round stores at least one character, or is the last one. -/
def get_loop (n : Int) (d : α) :
    Nat → σ → Nat → (Nat → α) → Option (σ × Nat × (Nat → α) × Iostate)
  | 0, _, _, _ => none
  | fuel + 1, s, str, arr =>
    if (str : Int) = n - 1 then some (s, str, arr, goodbit)
    else
      let a := b.areas s
      let max := if a.gend - a.gcur > n - 1 - str then n - 1 - str else a.gend - a.gcur
      if max < 0 then none
      else if max = 0 then do
        let (s, c) ← b.underflow s
        match c with
        | none => some (s, str, arr, eofbit)
        | some c =>
          let arr := Function.update arr str c
          if c = d then some (s, str, arr, if str = 0 then failbit else goodbit)
          else do
            let (s, _) ← b.sbumpc s
            get_loop n d fuel s (str + 1) arr
      else do
        let f ← find b s d a.gcur max.toNat
        let count := f.getD max.toNat
        let s := b.with_areas s { a with gcur := a.gcur + count }
        let cs ← b.read_chars s a.gcur count
        let arr := copy_to arr str cs
        let str := str + count
        if (count : Int) < max then some (s, str, arr, if str = 0 then failbit else goodbit)
        else do
          let (s, _) ← b.underflow s
          get_loop n d fuel s str arr

/-- `get(s, n, d)`; the array. -/
def get_line (n : Int) (d : α) (arr : Nat → α) (is : Istream ι σ) :
    Option (Istream ι σ × (Nat → α) × Bool) := do
  let (is, threw) ← is.sentry throws none
  if threw then some (is, arr, true)
  else if is.good then do
    let s ← is.m_sbuf
    let (s, str, arr, bits) ←
      if n = 1 then some (s, 0, arr, failbit)
      else do
        let (s, c) ← b.sgetc s
        if c.isNone then some (s, 0, arr, failbit ||| eofbit)
        else get_loop b n d n.toNat s 0 arr
    -- the destructor of `_CS_finish`, which is called even if `setstate` throws
    let arr := Function.update arr str nul
    let (is, threw) := { is.with_sbuf s with m_gcount := str }.report bits
    some (is, arr, threw)
  else
    let (is, threw) := is.setstate failbit
    some (is, arr, threw)

/-- The loop of `getline(s, n, d)`. The fourth component is what `m_gcount` holds. -/
def getline_loop (n : Int) (d : α) :
    Nat → σ → Nat → (Nat → α) → Option (σ × Nat × (Nat → α) × Int × Iostate)
  | 0, _, _, _ => none
  | fuel + 1, s, str, arr =>
    if (str : Int) = n - 1 then do
      let (s, c) ← b.sgetc s
      if c = some d then do
        let (s, _) ← b.sbumpc s
        some (s, str, arr, 1, goodbit)
      else some (s, str, arr, 0, failbit)
    else
      let a := b.areas s
      let max := if a.gend - a.gcur > n - 1 - str then n - 1 - str else a.gend - a.gcur
      if max < 0 then none
      else if max = 0 then do
        let (s, c) ← b.sbumpc s
        match c with
        | none => some (s, str, arr, 0, eofbit)
        | some c =>
          let arr := Function.update arr str c
          if c = d then some (s, str, arr, 1, goodbit)
          else getline_loop n d fuel s (str + 1) arr
      else do
        let f ← find b s d a.gcur max.toNat
        let count := f.getD max.toNat
        let cs ← b.read_chars s a.gcur count
        let arr := copy_to arr str cs
        let str := str + count
        if (count : Int) < max then do
          let c ← b.load s (a.gcur + count)
          if c = d then
            some (b.with_areas s { a with gcur := a.gcur + (count + 1 : Nat) }, str, arr, 1,
              goodbit)
          else some (b.with_areas s { a with gcur := a.gcur + count }, str, arr, 0, goodbit)
        else do
          let (s, _) ← b.underflow (b.with_areas s { a with gcur := a.gcur + count })
          getline_loop n d fuel s str arr

/-- `getline(s, n, d)`; the array. -/
def getline (n : Int) (d : α) (arr : Nat → α) (is : Istream ι σ) :
    Option (Istream ι σ × (Nat → α) × Bool) := do
  let (is, threw) ← is.sentry throws none
  if threw then some (is, arr, true)
  else if is.good then do
    let s ← is.m_sbuf
    let (s, str, arr, gcount, bits) ←
      if n = 1 then some (s, 0, arr, (0 : Int), failbit)
      else do
        let (s, c) ← b.sgetc s
        if c.isNone then some (s, 0, arr, 0, failbit ||| eofbit)
        else getline_loop b n d n.toNat s 0 arr
    -- the destructor of `_CS_getline_finish`
    let arr := Function.update arr str nul
    let (is, threw) := { is.with_sbuf s with m_gcount := gcount + str }.report bits
    some (is, arr, threw)
  else
    let (is, threw) := is.setstate failbit
    some (is, arr, threw)

/-- The loop of `get(sb, d)`: both buffers, whether a character was inserted, and whether the last
one that was looked at is the end. -/
def get_to_loop {τ : Type} (to_sb : Streambuf τ α) (d : α) :
    Nat → σ → τ → Bool → Option (σ × τ × Bool × Bool)
  | 0, _, _, _ => none
  | fuel + 1, s, t, inserted => do
    let (s, c) ← b.sgetc s
    match c with
    | none => some (s, t, inserted, true)
    | some c =>
      if c = d then some (s, t, inserted, false)
      else do
        let (t, r) ← to_sb.sputc t c
        if r.isNone then some (s, t, inserted, false)
        else do
          let (s, _) ← b.sbumpc s
          get_to_loop to_sb d fuel s t true

/-- `get(sb, d)`; the buffer that is written to. -/
def get_to {τ : Type} (to_sb : Streambuf τ α) (d : α) (fuel : Nat) (t : τ) (is : Istream ι σ) :
    Option (Istream ι σ × τ × Bool) := do
  let (is, threw) ← is.sentry throws none
  if threw then some (is, t, true)
  else if is.good then do
    let s ← is.m_sbuf
    let (s, t, inserted, ended) ← get_to_loop b to_sb d fuel s t false
    let (is, threw) := (is.with_sbuf s).report
      ((if ended then eofbit else goodbit) ||| (if inserted then goodbit else failbit))
    some (is, t, threw)
  else
    let (is, threw) := is.setstate failbit
    some (is, t, threw)

/-! ## Ignoring -/

variable {I : Type} [DecidableEq I] (tr : CharTraits α I)

/-- The loop of `ignore(n, c)`, with `m_gcount`. A counter that overflows is undefined. -/
def ignore_loop (n : Int) (c : I) : Nat → σ → Int → Option (σ × Int × Iostate)
  | 0, _, _ => none
  | fuel + 1, s, gcount =>
    if gcount < n ∨ n = streamsize_max then
      let a := b.areas s
      let max := a.gend - a.gcur
      if max = 0 then do
        let (s, i) ← b.sbumpc s
        match i with
        | none => some (s, gcount, eofbit)
        | some x =>
          if gcount = streamsize_max then none
          else if tr.to_int_type x = c then some (s, gcount + 1, goodbit)
          else ignore_loop n c fuel s (gcount + 1)
      else
        let max := if n - gcount < max then n - gcount else max
        if max < 0 then none
        else do
          let f ← find b s (tr.to_char_type c) a.gcur max.toNat
          match f with
          | none =>
            ignore_loop n c fuel (b.with_areas s { a with gcur := a.gcur + max }) (gcount + max)
          | some f =>
            some (b.with_areas s { a with gcur := a.gcur + (f + 1 : Nat) },
              gcount + (f + 1 : Nat), goodbit)
    else some (s, gcount, goodbit)

/-- `ignore(n, c)`. -/
def ignore (n : Int) (c : I) (fuel : Nat) (is : Istream ι σ) : Option (Istream ι σ × Bool) := do
  let (is, threw) ← is.sentry throws none
  if threw then some (is, true)
  else if is.good then do
    let s ← is.m_sbuf
    let (s, x) ← b.sgetc s
    let (s, gcount, bits) ←
      if x.isNone then some (s, 0, eofbit) else ignore_loop b tr n c fuel s 0
    some ({ is.with_sbuf s with m_gcount := gcount }.report bits)
  else some (is, false)

end

/-- What is left behind the spaces that the sentry skips. -/
def skipped {ι σ α : Type} (is : Istream ι σ) (is_space : α → Bool) (S : Supply α) : Supply α :=
  if is.flags &&& skipws ≠ 0 then (S.drop (S.content.takeWhile is_space).length).peek else S

/-- The characters that are left. -/
def left {ι σ α : Type} (supply : σ → Supply α) (is : Istream ι σ) : List α :=
  is.m_sbuf.elim [] fun s => (supply s).content

end Istream

/-! ## What happens to the state -/

namespace IstreamLemmas

open Istream SourcesLemmas

variable {ι σ : Type} {throws : ι → Bool} {is : Istream ι σ} {s : σ}

theorem clear_eq (x : Ios ι σ) (h : x.m_sbuf ≠ none) (state : Iostate) : ∃ f,
    x.clear state = ({ x with fmtflags := f, m_state := state },
      decide (state &&& x.m_exceptions ≠ 0)) := by
  have hsome : x.m_sbuf.isNone = false := by
    rw [Option.isNone_eq_false_iff, Option.isSome_iff_ne_none]
    exact h
  unfold Ios.clear
  simp only [hsome, Bool.false_eq_true, if_false]
  split
  · next hthrow => exact ⟨x.fmtflags, by rw [decide_eq_true hthrow]⟩
  · next hthrow =>
    rw [decide_eq_false hthrow]
    split
    · exact ⟨_, rfl⟩
    · exact ⟨_, rfl⟩

theorem setstate_eq (h : is.m_sbuf ≠ none) (state : Iostate) : ∃ f,
    is.setstate state = ({ is with fmtflags := f, m_state := is.m_state ||| state },
      decide ((is.m_state ||| state) &&& is.m_exceptions ≠ 0)) := by
  obtain ⟨f, hclear⟩ := clear_eq is.toIos h (is.m_state ||| state)
  refine ⟨f, ?_⟩
  unfold Istream.setstate Ios.setstate
  rw [hclear]

theorem process_exception_eq (is : Istream ι σ) : ∃ f, is.process_exception =
    ({ is with fmtflags := f, m_state := is.m_state ||| badbit },
      decide (is.m_exceptions &&& badbit ≠ 0)) := ⟨_, rfl⟩

/-- A handler adds `badbit`. -/
theorem report_eq (h : is.m_sbuf ≠ none) (state : Iostate) : ∃ f added,
    (is.report state).1 = { is with
      fmtflags := f, m_state := is.m_state ||| state ||| added } ∧
    (added = goodbit ∨ added = badbit) ∧
    (is.m_exceptions = goodbit → is.report state = ({ is with
      fmtflags := f, m_state := is.m_state ||| state }, false)) := by
  unfold Istream.report
  split
  · next hgood =>
    refine ⟨is.fmtflags, goodbit, ?_, .inl rfl, fun _ => ?_⟩
    · rw [hgood]
      simp [goodbit]
    · rw [hgood]
      simp [goodbit]
  · obtain ⟨f, hset⟩ := setstate_eq h state
    rw [hset]
    dsimp only
    split
    · next hthrow =>
      refine ⟨_, badbit, rfl, .inr rfl, fun hexc => ?_⟩
      rw [hexc] at hthrow
      exact absurd hthrow (by simp [goodbit])
    · refine ⟨f, goodbit, ?_, .inl rfl, fun _ => rfl⟩
      simp [goodbit]

/-- The other bits are those that are set. -/
theorem report_state (h : is.m_sbuf ≠ none) (state : Iostate) {bit : Iostate}
    (hbit : badbit &&& bit = 0) :
    (is.report state).1.m_state &&& bit = (is.m_state ||| state) &&& bit := by
  obtain ⟨f, added, heq, hadded, -⟩ := report_eq h state
  rw [heq]
  show (is.m_state ||| state ||| added) &&& bit = _
  rw [BitVec.and_or_distrib_right]
  rcases hadded with rfl | rfl
  · simp [goodbit]
  · rw [hbit]
    exact BitVec.or_zero

theorem report_sbuf (h : is.m_sbuf ≠ none) (state : Iostate) :
    (is.report state).1.m_sbuf = is.m_sbuf ∧ (is.report state).1.m_gcount = is.m_gcount := by
  obtain ⟨f, added, heq, -⟩ := report_eq h state
  rw [heq]
  exact ⟨rfl, rfl⟩

theorem sentry_good (hgood : is.good = true) (htie : is.m_tie.any throws = false) :
    is.sentry throws none = some (is, false) := by
  unfold Istream.sentry
  rw [if_pos hgood, htie]
  rfl

theorem good_or (state : Iostate) : goodbit ||| state = state := BitVec.zero_or

theorem good_eof : ¬(goodbit &&& eofbit ≠ 0) := by decide

theorem good_fail : ¬(goodbit &&& failbit ≠ 0) := by decide

theorem eof_eof : eofbit &&& eofbit ≠ 0 := by decide

theorem eof_fail : ¬(eofbit &&& failbit ≠ 0) := by decide

theorem fail_eof : ¬(failbit &&& eofbit ≠ 0) := by decide

theorem fail_fail : failbit &&& failbit ≠ 0 := by decide

theorem both_eof : (failbit ||| eofbit) &&& eofbit ≠ 0 := by decide

theorem both_fail : (failbit ||| eofbit) &&& failbit ≠ 0 := by decide

/-- Bits that are set stay set. -/
theorem setstate_keeps (h : is.m_sbuf ≠ none) (state : Iostate) {bit : Iostate}
    (hbit : is.m_state &&& bit ≠ 0) : (is.setstate state).1.m_state &&& bit ≠ 0 := by
  obtain ⟨f, heq⟩ := setstate_eq h state
  rw [heq]
  show (is.m_state ||| state) &&& bit ≠ 0
  rw [BitVec.and_or_distrib_right]
  exact fun hzero => hbit (BitVec.or_eq_zero_iff.mp hzero).1

theorem setstate_sbuf (h : is.m_sbuf ≠ none) (state : Iostate) :
    (is.setstate state).1.m_sbuf = is.m_sbuf ∧ (is.setstate state).1.m_gcount = is.m_gcount := by
  obtain ⟨f, heq⟩ := setstate_eq h state
  rw [heq]
  exact ⟨rfl, rfl⟩

theorem not_good (bit : Iostate) (hbit : is.m_state &&& bit ≠ 0) : is.good = false := by
  refine decide_eq_false fun hgood => hbit ?_
  rw [hgood]
  exact BitVec.zero_and

theorem with_sbuf_self (hbuf : is.m_sbuf = some s) : is.with_sbuf s = is := by
  obtain ⟨⟨fmtflags, m_sbuf, m_state, m_exceptions, m_tie⟩, m_gcount⟩ := is
  cases hbuf
  rfl

section

variable {α : Type} {b : Streambuf σ α} {ok : σ → Prop} {supply : σ → Supply α}
  {is_space : α → Bool}

theorem left_of_some (hbuf : is.m_sbuf = some s) : is.left supply = (supply s).content := by
  rw [left, hbuf]
  rfl

theorem content_skipped (S : Supply α) : (is.skipped is_space S).content =
    if is.flags &&& skipws ≠ 0 then S.content.dropWhile is_space else S.content := by
  unfold skipped
  split
  · rw [Supply.content_peek, Supply.content_drop]
    calc S.content.drop (S.content.takeWhile is_space).length
        = (S.content.takeWhile is_space ++ S.content.dropWhile is_space).drop
            (S.content.takeWhile is_space).length := by rw [List.takeWhile_append_dropWhile]
      _ = S.content.dropWhile is_space := List.drop_left
  · rfl

theorem length_skipped (S : Supply α) :
    (is.skipped is_space S).content.length ≤ S.content.length := by
  rw [content_skipped]
  split
  · exact (List.dropWhile_sublist _).length_le
  · exact Nat.le_refl _

variable (is_space)

/-- The sentry skips spaces, and reports the end. -/
theorem sentry_skip (h : b.Source ok supply) (hok : ok s) (hbuf : is.m_sbuf = some s)
    (hgood : is.good = true) (htie : is.m_tie.any throws = false) {fuel : Nat}
    (hfuel : (supply s).content.length < fuel) : ∃ s', ok s' ∧
      supply s' = is.skipped is_space (supply s) ∧
      is.sentry throws (some (b.skip_ws is_space fuel)) =
        some ((is.with_sbuf s').report (if is.flags &&& skipws ≠ 0 ∧
          (is.skipped is_space (supply s)).content = [] then eofbit ||| failbit else goodbit)) := by
  unfold Istream.sentry
  rw [if_pos hgood, htie, content_skipped]
  unfold skipped
  simp only [Bool.false_eq_true, if_false]
  by_cases hskip : is.flags &&& skipws ≠ 0
  · obtain ⟨s', hs', hok', hsupply'⟩ := skip_ws_source h hok is_space hfuel
    refine ⟨s', hok', by rw [hsupply', if_pos hskip], ?_⟩
    rw [if_pos hskip, hbuf]
    simp only [Option.bind_eq_bind, Option.bind_some, hs', List.isEmpty_iff, hskip, true_and,
      if_true, ne_eq, not_false_eq_true]
  · refine ⟨s, hok, by rw [if_neg hskip], ?_⟩
    rw [if_neg hskip, if_neg fun hand => hskip hand.1, with_sbuf_self hbuf]
    rfl

/-- There is nothing but spaces. -/
theorem sentry_ended (h : b.Source ok supply) (hok : ok s) (hbuf : is.m_sbuf = some s)
    (hgood : is.good = true) (htie : is.m_tie.any throws = false) {fuel : Nat}
    (hfuel : (supply s).content.length < fuel) (hskip : is.flags &&& skipws ≠ 0)
    (hw : (is.skipped is_space (supply s)).content = []) : ∃ is' s' threw,
      is.sentry throws (some (b.skip_ws is_space fuel)) = some (is', threw) ∧
        is'.m_sbuf = some s' ∧ ok s' ∧ supply s' = is.skipped is_space (supply s) ∧
        is'.m_state &&& eofbit ≠ 0 ∧ is'.m_state &&& failbit ≠ 0 := by
  obtain ⟨s₁, hok₁, hsupply₁, hsentry⟩ :=
    sentry_skip is_space h hok hbuf hgood htie hfuel
  rw [if_pos ⟨hskip, hw⟩] at hsentry
  have hne : (is.with_sbuf s₁).m_sbuf ≠ none := Option.some_ne_none s₁
  have hstate : (is.with_sbuf s₁).m_state = goodbit := of_decide_eq_true hgood
  refine ⟨((is.with_sbuf s₁).report (eofbit ||| failbit)).1, s₁,
    ((is.with_sbuf s₁).report (eofbit ||| failbit)).2, hsentry, (report_sbuf hne _).1, hok₁,
    hsupply₁, ?_, ?_⟩
  · rw [report_state hne _ (by decide), hstate]
    decide
  · rw [report_state hne _ (by decide), hstate]
    decide

/-- There is something to read. -/
theorem sentry_passes (h : b.Source ok supply) (hok : ok s) (hbuf : is.m_sbuf = some s)
    (hgood : is.good = true) (htie : is.m_tie.any throws = false) {fuel : Nat}
    (hfuel : (supply s).content.length < fuel)
    (hw : is.flags &&& skipws ≠ 0 → (is.skipped is_space (supply s)).content ≠ []) : ∃ s', ok s' ∧
      supply s' = is.skipped is_space (supply s) ∧
      is.sentry throws (some (b.skip_ws is_space fuel)) = some (is.with_sbuf s', false) := by
  obtain ⟨s₁, hok₁, hsupply₁, hsentry⟩ :=
    sentry_skip is_space h hok hbuf hgood htie hfuel
  rw [if_neg fun hand => hw hand.1 hand.2] at hsentry
  exact ⟨s₁, hok₁, hsupply₁, hsentry⟩

end

end IstreamLemmas

/-- A stream that reads from the device. -/
def Pipe.stream {α : Type} (s : Pipe α) : Istream Unit (Pipe α) :=
  ⟨⟨skipws, some s, goodbit, goodbit, none⟩, 0⟩

end Kuhllib.Cxxrt
