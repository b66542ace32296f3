import Mathlib.Data.BitVec
import Mathlib.Data.List.Induction
import Mathlib.Logic.Function.Basic

/-!
# `basic_ios`: the flags that skip the sentry

`need_osentry` reads hidden bits of the format flags. They are to be set while the stream
is not good, or has a tie.

The values of `fmtflags` and `iostate` are those of the bits their enumerators have; a
bitmask `~` is the complement in these bits. Callbacks are not called.

Results:
1. `print_eq`, `put_eq`: on a coherent stream the sentry makes no difference.
2. `coherent_iff`: the operations that keep all streams coherent.
-/

namespace Kuhllib.Cxxrt

/-! `ios_base::fmtflags` and `ios_base::iostate` -/

abbrev Fmt := BitVec 24

def skipws : Fmt := 0x1000
def dec : Fmt := 0x9
def unitbuf : Fmt := 0x2000
def os_good : Fmt := 0x100000
def os_tie : Fmt := 0x200000
def os_check : Fmt := 0x302000
def fmtmask : Fmt := 0x00ffff

abbrev Iostate := BitVec 3

def goodbit : Iostate := 0
def badbit : Iostate := 1
def eofbit : Iostate := 2
def failbit : Iostate := 4

/-- A stream. Streams are named by `ι`, stream buffers by `B`. -/
structure Ios (ι B : Type) where
  fmtflags : Fmt
  m_sbuf : Option B
  m_state : Iostate
  m_exceptions : Iostate
  m_tie : Option ι
  deriving DecidableEq

namespace Ios

variable {ι B : Type}

def need_osentry (s : Ios ι B) : Bool := s.fmtflags &&& os_check ≠ 0

def good (s : Ios ι B) : Bool := s.m_state = goodbit

def fail (s : Ios ι B) : Bool := s.m_state &&& (failbit ||| badbit) ≠ 0

def flags (s : Ios ι B) : Fmt := s.fmtflags &&& fmtmask

def setf (s : Ios ι B) (f : Fmt) : Ios ι B := { s with fmtflags := s.fmtflags ||| f }

/-- `setf(f, m)`. -/
def setf_field (s : Ios ι B) (f m : Fmt) : Ios ι B :=
  { s with fmtflags := (s.fmtflags &&& ~~~m) ||| (m &&& f) }

def unsetf (s : Ios ι B) (m : Fmt) : Ios ι B := { s with fmtflags := s.fmtflags &&& ~~~m }

/-- The stream, and whether `failure` is thrown. -/
def clear (s : Ios ι B) (state : Iostate) : Ios ι B × Bool :=
  let s := { s with m_state := if s.m_sbuf.isNone then state ||| badbit else state }
  if s.m_state &&& s.m_exceptions ≠ 0 then (s, true)
  else if s.m_state = goodbit then (s.unsetf os_good, false)
  else (s.setf os_good, false)

def setstate (s : Ios ι B) (state : Iostate) : Ios ι B × Bool := s.clear (s.m_state ||| state)

/-- `exceptions(exceptions)`. -/
def set_exceptions (s : Ios ι B) (exceptions : Iostate) : Ios ι B × Bool :=
  let s := { s with m_exceptions := exceptions }
  s.clear s.m_state

/-- In a handler; whether it throws again. -/
def process_exception (s : Ios ι B) : Ios ι B × Bool :=
  let s := { s with m_state := s.m_state ||| badbit }
  let s := s.setf os_good
  (s, s.m_exceptions &&& badbit ≠ 0)

def init (s : Ios ι B) (sb : Option B) : Ios ι B :=
  let s := { s with m_sbuf := sb, m_state := if sb.isNone then badbit else goodbit }
  let s := if sb.isNone then s.setf os_good else s
  { s with m_exceptions := goodbit, m_tie := none }

/-- `rdbuf(sb)`. -/
def set_rdbuf (s : Ios ι B) (sb : Option B) : Ios ι B × Bool :=
  { s with m_sbuf := sb }.clear goodbit

/-- `tie(tie)`. -/
def set_tie (s : Ios ι B) (tie : Option ι) : Ios ι B :=
  let s := { s with m_tie := tie }
  if tie.isNone then s.unsetf os_tie else s.setf os_tie

/-- `basic_ios()`. -/
def basic_ios : Ios ι B :=
  let s : Ios ι B := ⟨dec ||| skipws, none, badbit, goodbit, none⟩
  s.setf os_good

/-- `basic_ios(sb)`. -/
def basic_ios_on (sb : Option B) : Ios ι B :=
  let s : Ios ι B :=
    ⟨dec ||| skipws, sb, if sb.isNone then badbit else goodbit, goodbit, none⟩
  let s := if sb.isNone then s.setf os_good else s
  s.init sb

end Ios

/-! ## The operations -/

variable {ι B : Type}

/-- The operations on a stream. -/
inductive IosOp (ι B : Type)
  | init (sb : Option B)
  | rdbuf (sb : Option B)
  | tie (t : Option ι)
  | flags (f : Fmt)
  | setf (f : Fmt)
  | setf_field (f m : Fmt)
  | unsetf (m : Fmt)
  | clear (state : Iostate)
  | setstate (state : Iostate)
  | exceptions (exceptions : Iostate)
  | process_exception
  | copyfmt (cpy : ι)
  deriving DecidableEq

/-- All streams. -/
abbrev Streams (ι B : Type) := ι → Ios ι B

section

variable [DecidableEq ι]

/-- `copyfmt(cpy)`, where the stream may be copied to itself. -/
def copyfmt (s : Streams ι B) (i cpy : ι) : Streams ι B × Bool :=
  let s := Function.update s i ((s i).set_tie (s cpy).m_tie)
  let s := Function.update s i { s i with fmtflags := (s cpy).fmtflags }
  let (x, threw) := (s i).set_exceptions (s cpy).m_exceptions
  (Function.update s i x, threw)

/-- What an operation does, and whether it throws. -/
def IosOp.run (s : Streams ι B) (i : ι) : IosOp ι B → Streams ι B × Bool
  | .init sb => (Function.update s i ((s i).init sb), false)
  | .rdbuf sb => ((s i).set_rdbuf sb).map (Function.update s i) id
  | .tie t => (Function.update s i ((s i).set_tie t), false)
  | .flags f => (Function.update s i { s i with fmtflags := f }, false)
  | .setf f => (Function.update s i ((s i).setf f), false)
  | .setf_field f m => (Function.update s i ((s i).setf_field f m), false)
  | .unsetf m => (Function.update s i ((s i).unsetf m), false)
  | .clear state => ((s i).clear state).map (Function.update s i) id
  | .setstate state => ((s i).setstate state).map (Function.update s i) id
  | .exceptions e => ((s i).set_exceptions e).map (Function.update s i) id
  | .process_exception => ((s i).process_exception).map (Function.update s i) id
  | .copyfmt cpy => Kuhllib.Cxxrt.copyfmt s i cpy

/-- The streams after a sequence of operations, which goes on when one of them throws. -/
def runs (s : Streams ι B) : List (ι × IosOp ι B) → Streams ι B
  | [] => s
  | (i, op) :: ops => runs (op.run s i).1 ops

end

/-! ## Output -/

/-- How the characters were taken by the stream buffer. -/
inductive Outcome
  | done
  | failed
  | threw
  deriving DecidableEq

section

variable [DecidableEq ι] {X : Type} (pubsync : B → X → X × Bool)
  (emit : Option B → X → X × Outcome) (bit : Iostate)

/-- `X` is what lies behind the stream buffers. `pubsync` says whether it returns -1. -/
def flush (w : Streams ι B × X) (i : ι) : (Streams ι B × X) × Bool :=
  match (w.1 i).m_sbuf with
  | none => (w, false)
  | some b =>
    let (x, failed) := pubsync b w.2
    if failed then
      let (s, threw) := (w.1 i).setstate badbit
      ((Function.update w.1 i s, x), threw)
    else ((w.1, x), false)

/-- The `try` block around the output of characters, which sets `bit` when it fails. -/
def try_output (w : Streams ι B × X) (i : ι) : (Streams ι B × X) × Bool :=
  let (x, r) := emit (w.1 i).m_sbuf w.2
  let (s, threw) :=
    match r with
    | .done => (w.1 i, false)
    | .failed =>
      let (s, threw) := (w.1 i).setstate bit
      if threw then s.process_exception else (s, false)
    | .threw => (w.1 i).process_exception
  ((Function.update w.1 i s, x), threw)

/-- The output between constructor and destructor of a sentry. `badbit` is set if the
sentry fails and `sets_badbit`. -/
def sentry_output (sets_badbit : Bool) (w : Streams ι B × X) (i : ι) :
    (Streams ι B × X) × Bool :=
  let (w, threw) :=
    match (w.1 i).m_tie with
    | none => (w, false)
    | some t => flush pubsync w t
  if threw then (w, true)
  else
    let (w, threw) :=
      if (w.1 i).good then try_output emit bit w i
      else if sets_badbit then
        let (s, threw) := (w.1 i).setstate badbit
        ((Function.update w.1 i s, w.2), threw)
      else (w, false)
    if (w.1 i).flags &&& unitbuf ≠ 0 then
      let (w, threw') := flush pubsync w i
      (w, threw || threw')
    else (w, threw)

/-- `_CS_print`, which sets `badbit`, and `_CS_print_string`, which sets `failbit`. -/
def print (w : Streams ι B × X) (i : ι) : (Streams ι B × X) × Bool :=
  if !(w.1 i).need_osentry then try_output emit bit w i
  else sentry_output pubsync emit bit false w i

def put (w : Streams ι B × X) (i : ι) : (Streams ι B × X) × Bool :=
  if !(w.1 i).need_osentry then try_output emit badbit w i
  else sentry_output pubsync emit badbit true w i

end

/-! ## 1. Coherent streams -/

namespace Ios

/-- The stream is good and has no tie. -/
def Plain (s : Ios ι B) : Prop := s.m_state = goodbit ∧ s.m_tie = none

/-- Where no sentry is needed, it would find the stream good, no tie and `unitbuf` not set. -/
def Coherent (s : Ios ι B) : Prop :=
  s.need_osentry = false → s.good = true ∧ s.m_tie = none ∧ s.flags &&& unitbuf = 0

end Ios

namespace IosLemmas

open Ios

variable {s : Ios ι B}

theorem need_iff : s.need_osentry = true ↔ s.fmtflags &&& os_check ≠ 0 := decide_eq_true_iff

theorem need_false_iff : s.need_osentry = false ↔ s.fmtflags &&& os_check = 0 := by
  unfold need_osentry
  rw [decide_eq_false_iff_not, not_not]

/-- `unitbuf` is one of the bits that are checked. -/
theorem unitbuf_of_check {f : Fmt} (h : f &&& os_check = 0) : f &&& fmtmask &&& unitbuf = 0 := by
  have hbits : fmtmask &&& unitbuf = os_check &&& unitbuf := by decide
  rw [BitVec.and_assoc, hbits, ← BitVec.and_assoc, h]
  exact BitVec.zero_and

theorem coherent_iff_plain : s.Coherent ↔ (s.need_osentry = true ∨ s.Plain) := by
  constructor
  · intro h
    cases hneed : s.need_osentry with
    | true => exact .inl rfl
    | false =>
      obtain ⟨hgood, htie, -⟩ := h hneed
      exact .inr ⟨of_decide_eq_true hgood, htie⟩
  · rintro (hneed | ⟨hgood, htie⟩) hno
    · rw [hneed] at hno
      cases hno
    · exact ⟨decide_eq_true hgood, htie, unitbuf_of_check (need_false_iff.mp hno)⟩

theorem and_setf (f m : Fmt) : (s.setf f).fmtflags &&& m = (s.fmtflags &&& m) ||| (f &&& m) :=
  BitVec.and_or_distrib_right

theorem and_unsetf (f m : Fmt) : (s.unsetf f).fmtflags &&& m = s.fmtflags &&& (~~~f &&& m) :=
  BitVec.and_assoc _ _ _

theorem need_setf {f : Fmt} (h : f &&& os_check ≠ 0) : (s.setf f).need_osentry = true := by
  rw [need_iff, and_setf]
  exact fun hzero => h (BitVec.or_eq_zero_iff.mp hzero).2

/-- `unitbuf` is set. -/
def buffered_unit (s : Ios ι B) : Fmt := s.flags &&& unitbuf

theorem buffered_unit_eq (s : Ios ι B) : buffered_unit s = s.fmtflags &&& unitbuf := by
  have hbits : fmtmask &&& unitbuf = unitbuf := by decide
  rw [buffered_unit, flags, BitVec.and_assoc, hbits]

theorem buffered_unit_good (s : Ios ι B) :
    buffered_unit (s.setf os_good) = buffered_unit s ∧
      buffered_unit (s.unsetf os_good) = buffered_unit s := by
  have hset : os_good &&& unitbuf = 0 := by decide
  have hunset : ~~~os_good &&& unitbuf = unitbuf := by decide
  rw [buffered_unit_eq, buffered_unit_eq, buffered_unit_eq, and_setf, and_unsetf, hset, hunset]
  exact ⟨BitVec.or_zero, rfl⟩

theorem buffered_unit_clear (s : Ios ι B) (state : Iostate) :
    buffered_unit (s.clear state).1 = buffered_unit s := by
  unfold clear
  dsimp only
  generalize (if s.m_sbuf.isNone = true then state ||| badbit else state) = st
  obtain ⟨hset, hunset⟩ := buffered_unit_good { s with m_state := st }
  split
  · rfl
  · split
    · exact hunset
    · exact hset

theorem buffered_unit_process (s : Ios ι B) :
    buffered_unit s.process_exception.1 = buffered_unit s :=
  (buffered_unit_good { s with m_state := s.m_state ||| badbit }).1

section

variable [DecidableEq ι] {X : Type} (pubsync : B → X → X × Bool)
  (emit : Option B → X → X × Outcome) (bit : Iostate)

/-- The output does not touch `unitbuf`. -/
theorem buffered_unit_output (w : Streams ι B × X) (i : ι) :
    buffered_unit ((try_output emit bit w i).1.1 i) = buffered_unit (w.1 i) := by
  unfold try_output
  dsimp only
  rw [Function.update_self]
  split
  · rfl
  · split
    · rw [buffered_unit_process]
      exact buffered_unit_clear _ _
    · exact buffered_unit_clear _ _
  · exact buffered_unit_process _

/-- A sentry that finds nothing to do. -/
theorem sentry_output_eq (sets_badbit : Bool) {w : Streams ι B × X} {i : ι}
    (hneed : (w.1 i).need_osentry = false) (h : (w.1 i).Coherent) :
    sentry_output pubsync emit bit sets_badbit w i = try_output emit bit w i := by
  obtain ⟨hgood, htie, hunit⟩ := h hneed
  have hafter : ((try_output emit bit w i).1.1 i).flags &&& unitbuf = 0 :=
    (buffered_unit_output emit bit w i).trans hunit
  unfold sentry_output
  simp only [htie, hgood, if_true, Bool.false_eq_true, if_false, hafter, ne_eq, not_true]

end

end IosLemmas

open IosLemmas

section

variable [DecidableEq ι] {X : Type} (pubsync : B → X → X × Bool)
  (emit : Option B → X → X × Outcome) (bit : Iostate)

/-- The output is the same with a sentry. -/
theorem print_eq {w : Streams ι B × X} {i : ι} (h : (w.1 i).Coherent) :
    print pubsync emit bit w i = sentry_output pubsync emit bit false w i := by
  unfold print
  cases hneed : (w.1 i).need_osentry with
  | true => rfl
  | false => exact (sentry_output_eq pubsync emit bit false hneed h).symm

theorem put_eq {w : Streams ι B × X} {i : ι} (h : (w.1 i).Coherent) :
    put pubsync emit w i = sentry_output pubsync emit badbit true w i := by
  unfold put
  cases hneed : (w.1 i).need_osentry with
  | true => rfl
  | false => exact (sentry_output_eq pubsync emit badbit true hneed h).symm

end

/-! ## 2. Which operations keep the streams coherent -/

namespace Ios

/-- `clear(state)` leaves a coherent stream. When it throws, the hidden bits are those from
before. -/
def ClearKeeps (s : Ios ι B) (state : Iostate) : Prop :=
  let state := if s.m_sbuf.isNone then state ||| badbit else state
  if state &&& s.m_exceptions ≠ 0 then s.need_osentry = true
  else state = goodbit → s.m_tie = none ∨ s.fmtflags &&& (os_tie ||| unitbuf) ≠ 0

end Ios

section

variable [DecidableEq ι]

/-- The flags that `copyfmt(cpy)` copies. A stream that is copied to itself has updated
the bit for its tie before. -/
def copied (s : Streams ι B) (i cpy : ι) : Fmt :=
  if cpy = i then ((s i).set_tie (s i).m_tie).fmtflags else (s cpy).fmtflags

/-- The operation leaves a coherent stream. -/
def Keeps (s : Streams ι B) (i : ι) : IosOp ι B → Prop
  | .init _ | .setf _ | .process_exception => True
  | .rdbuf sb => { s i with m_sbuf := sb }.ClearKeeps goodbit
  | .tie t => t ≠ none ∨ (s i).m_state = goodbit ∨
      (s i).fmtflags &&& (os_good ||| unitbuf) ≠ 0
  | .flags f => f &&& os_check ≠ 0 ∨ (s i).Plain
  | .setf_field f m => ((s i).fmtflags &&& ~~~m ||| m &&& f) &&& os_check ≠ 0 ∨ (s i).Plain
  | .unsetf m => (s i).fmtflags &&& ~~~m &&& os_check ≠ 0 ∨ (s i).Plain
  | .clear state => (s i).ClearKeeps state
  | .setstate state => (s i).ClearKeeps ((s i).m_state ||| state)
  | .exceptions e => { s i with m_exceptions := e }.ClearKeeps (s i).m_state
  | .copyfmt cpy =>
    { s i with
      fmtflags := copied s i cpy
      m_tie := (s cpy).m_tie
      m_exceptions := (s cpy).m_exceptions }.ClearKeeps (s i).m_state

end

namespace IosLemmas

open Ios

variable {s : Ios ι B}

theorem clear_coherent (s : Ios ι B) (state : Iostate) :
    (s.clear state).1.Coherent ↔ s.ClearKeeps state := by
  unfold clear ClearKeeps
  dsimp only
  generalize hst : (if s.m_sbuf.isNone = true then state ||| badbit else state) = st
  rw [coherent_iff_plain]
  have hset : os_good &&& os_check ≠ 0 := by decide
  have hunset : ~~~os_good &&& os_check = os_tie ||| unitbuf := by decide
  split
  next hthrow =>
    -- the state is not good, and the bits are left as they are
    refine or_iff_left fun hplain => hthrow ?_
    obtain ⟨hgood, -⟩ := hplain
    rw [show st = 0 from hgood]
    exact BitVec.zero_and
  next =>
    split
    next hgood =>
      rw [need_iff, and_unsetf, hunset]
      constructor
      · rintro (hneed | hplain)
        · exact fun _ => .inr hneed
        · exact fun _ => .inl hplain.2
      · intro h
        rcases h hgood with htie | hneed
        · exact .inr ⟨hgood, htie⟩
        · exact .inl hneed
    next hgood =>
      exact ⟨fun _ he => absurd he hgood, fun _ => .inl (need_setf hset)⟩

theorem init_coherent (s : Ios ι B) (sb : Option B) : (s.init sb).Coherent := by
  rw [coherent_iff_plain]
  unfold Ios.init
  dsimp only
  split
  · left
    exact need_setf (s := { s with m_sbuf := sb, m_state := badbit }) (by decide)
  · exact .inr ⟨rfl, rfl⟩

theorem process_coherent (s : Ios ι B) : s.process_exception.1.Coherent := by
  rw [coherent_iff_plain]
  exact .inl (need_setf (by decide))

theorem set_tie_coherent (s : Ios ι B) (t : Option ι) :
    (s.set_tie t).Coherent ↔
      t ≠ none ∨ s.m_state = goodbit ∨ s.fmtflags &&& (os_good ||| unitbuf) ≠ 0 := by
  have hset : os_tie &&& os_check ≠ 0 := by decide
  have hunset : ~~~os_tie &&& os_check = os_good ||| unitbuf := by decide
  rw [coherent_iff_plain]
  unfold set_tie
  cases t with
  | none =>
    simp only [Option.isNone_none, if_true, need_iff, and_unsetf, hunset, ne_eq, not_true,
      false_or]
    constructor
    · rintro (hneed | hplain)
      · exact .inr hneed
      · exact .inl hplain.1
    · rintro (hgood | hneed)
      · exact .inr ⟨hgood, rfl⟩
      · exact .inl hneed
  | some t =>
    simp only [Option.isNone_some, Bool.false_eq_true, if_false]
    exact iff_of_true (.inl (need_setf hset)) (.inl (Option.some_ne_none t))

/-- More flags never hide anything. -/
theorem setf_coherent (h : s.Coherent) (f : Fmt) : (s.setf f).Coherent := by
  rw [coherent_iff_plain] at h ⊢
  refine h.imp (fun hneed => ?_) id
  rw [need_iff] at hneed ⊢
  rw [and_setf]
  exact fun hzero => hneed (BitVec.or_eq_zero_iff.mp hzero).1

theorem flags_coherent (s : Ios ι B) (f : Fmt) :
    { s with fmtflags := f }.Coherent ↔ (f &&& os_check ≠ 0 ∨ s.Plain) := by
  rw [coherent_iff_plain, need_iff]
  rfl

theorem basic_ios_coherent : (basic_ios : Ios ι B).Coherent := by
  rw [coherent_iff_plain]
  exact .inl (need_setf (by decide))

theorem set_tie_eq (s : Ios ι B) (t : Option ι) (f : Fmt) (e : Iostate) :
    { s.set_tie t with fmtflags := f, m_exceptions := e } =
      { s with fmtflags := f, m_tie := t, m_exceptions := e } := by
  unfold set_tie
  cases t <;> rfl

section

variable [DecidableEq ι]

theorem copyfmt_eq (s : Streams ι B) (i cpy : ι) :
    (Kuhllib.Cxxrt.copyfmt s i cpy).1 = Function.update s i
      ({ s i with
        fmtflags := copied s i cpy
        m_tie := (s cpy).m_tie
        m_exceptions := (s cpy).m_exceptions }.clear (s i).m_state).1 := by
  unfold Kuhllib.Cxxrt.copyfmt copied set_exceptions
  dsimp only
  rw [Function.update_idem, Function.update_idem, Function.update_self, Function.update_self]
  rcases eq_or_ne cpy i with rfl | hne
  · rw [if_pos rfl, ← set_tie_eq (s cpy) (s cpy).m_tie]
    simp only [Function.update_self]
    cases (s cpy).m_tie <;> rfl
  · rw [if_neg hne, ← set_tie_eq (s i) (s cpy).m_tie]
    simp only [Function.update_of_ne hne]
    cases (s cpy).m_tie <;> rfl

/-- Only the stream of the operation changes. -/
theorem update_coherent {s : Streams ι B} (h : ∀ j, (s j).Coherent) (i : ι) (x : Ios ι B) :
    (∀ j, (Function.update s i x j).Coherent) ↔ x.Coherent := by
  rw [Function.forall_update_iff s fun _ y => y.Coherent]
  exact and_iff_left fun j _ => h j

/-- One operation. -/
theorem coherent_run {s : Streams ι B} (h : ∀ j, (s j).Coherent) (i : ι) (op : IosOp ι B) :
    (∀ j, ((op.run s i).1 j).Coherent) ↔ Keeps s i op := by
  cases op with
  | init sb => exact (update_coherent h i _).trans (iff_true_intro (init_coherent _ sb))
  | rdbuf sb => exact (update_coherent h i _).trans (clear_coherent _ _)
  | tie t => exact (update_coherent h i _).trans (set_tie_coherent _ t)
  | flags f => exact (update_coherent h i _).trans (flags_coherent _ f)
  | setf f => exact (update_coherent h i _).trans (iff_true_intro (setf_coherent (h i) f))
  | setf_field f m => exact (update_coherent h i _).trans (flags_coherent _ _)
  | unsetf m => exact (update_coherent h i _).trans (flags_coherent _ _)
  | clear state => exact (update_coherent h i _).trans (clear_coherent _ state)
  | setstate state => exact (update_coherent h i _).trans (clear_coherent _ _)
  | exceptions e => exact (update_coherent h i _).trans (clear_coherent _ _)
  | process_exception =>
    exact (update_coherent h i _).trans (iff_true_intro (process_coherent _))
  | copyfmt cpy =>
    show (∀ j, ((Kuhllib.Cxxrt.copyfmt s i cpy).1 j).Coherent) ↔ _
    rw [copyfmt_eq]
    exact (update_coherent h i _).trans (clear_coherent _ _)

theorem runs_concat (s : Streams ι B) (ops : List (ι × IosOp ι B)) (i : ι) (op : IosOp ι B) :
    runs s (ops ++ [(i, op)]) = (op.run (runs s ops) i).1 := by
  induction ops generalizing s with
  | nil => rfl
  | cons x ops ih => exact ih _

end

end IosLemmas

/-- The streams at the start, with or without a stream buffer given to the constructor. -/
def constructed (sb : ι → Option (Option B)) : Streams ι B := fun i =>
  match sb i with
  | none => .basic_ios
  | some sb => .basic_ios_on sb

section

variable [DecidableEq ι]

/-- The output functions do on a stream what they do with a sentry. -/
def Bypass (s : Streams ι B) (i : ι) : Prop :=
  ∀ (X : Type) (pubsync : B → X → X × Bool) (emit : Option B → X → X × Outcome) (bit : Iostate)
    (x : X),
    print pubsync emit bit (s, x) i = sentry_output pubsync emit bit false (s, x) i ∧
      put pubsync emit (s, x) i = sentry_output pubsync emit badbit true (s, x) i

/-- The streams are coherent all the time if and only if every operation keeps them so. -/
theorem coherent_iff (sb : ι → Option (Option B)) (ops : List (ι × IosOp ι B)) :
    (∀ p, p <+: ops → ∀ i,
      (runs (constructed sb) p i).Coherent ∧ Bypass (runs (constructed sb) p) i) ↔
    ∀ p i op, p ++ [(i, op)] <+: ops → Keeps (runs (constructed sb) p) i op := by
  constructor
  · intro h p i op hp
    have hbefore := h p ((List.prefix_append p _).trans hp)
    have hafter := h _ hp
    rw [runs_concat] at hafter
    exact (coherent_run (fun j => (hbefore j).1) i op).mp fun j => (hafter j).1
  · intro h p hp
    suffices hcoherent : ∀ i, (runs (constructed sb) p i).Coherent from fun i =>
      ⟨hcoherent i, fun X pubsync emit bit x =>
        ⟨print_eq pubsync emit bit (hcoherent i), put_eq pubsync emit (hcoherent i)⟩⟩
    induction p using List.reverseRecOn with
    | nil =>
      intro i
      show (constructed sb i).Coherent
      unfold constructed
      split
      · exact basic_ios_coherent
      · exact init_coherent _ _
    | append_singleton p op ih =>
      obtain ⟨i, op⟩ := op
      rw [runs_concat]
      exact (coherent_run (ih ((List.prefix_append p _).trans hp)) i op).mpr (h p i op hp)

/-- A failed stream whose flags are restored. -/
theorem not_coherent :
    ¬ ∀ p, p <+: [((), .setstate failbit), ((), .flags (dec ||| skipws))] → ∀ i,
      (runs (constructed fun _ => some (some ())) p i).Coherent ∧
        Bypass (runs (constructed fun _ : Unit => some (some ())) p) i := by
  intro h
  have hgood := (h _ (List.prefix_refl _) ()).1 (by decide)
  exact absurd hgood.1 (by decide)

end

end Kuhllib.Cxxrt
