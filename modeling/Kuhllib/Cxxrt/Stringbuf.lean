import Kuhllib.Cxxrt.Streambuf
import Kuhllib.Lib.Transition
import Mathlib.Data.UInt
import Mathlib.Tactic.Common

/-!
# `basic_stringbuf`

The array is the one at `m_beg`; the array it replaces is deleted. An allocator says where
the arrays are and what lies in cells that are not yet written.

Results:
1. `text`: the string with two positions.
2. `Refines`: how the pointers stand for it.
3. `stringbuf_refines`: over all runs the results are those of the string.
-/

namespace Kuhllib.Cxxrt

open Transition

abbrev Openmode := BitVec 6

/-- `mode & bit`. -/
def Openmode.has (m bit : Openmode) : Bool := m &&& bit ≠ 0

def ios_in : Openmode := 1
def ios_out : Openmode := 2
def ios_inout : Openmode := 3

inductive Seekdir
  | beg
  | cur
  | «end»
  deriving DecidableEq, Repr

/-- `new` never gives the null pointer. -/
structure Allocator (α : Type) where
  address : Nat → Int
  address_pos : ∀ n, 0 < address n
  junk : α

structure Stringbuf (α : Type) where
  areas : Areas
  m_mode : Openmode
  m_beg : Int
  m_end : Int
  array : List α
  allocated : Nat

namespace Stringbuf

variable {α : Type} [Zero α] [DecidableEq α] (heap : Allocator α)

def load (s : Stringbuf α) (p : Int) : Option α :=
  if s.m_beg ≤ p then s.array[(p - s.m_beg).toNat]? else none

def store (s : Stringbuf α) (p : Int) (c : α) : Option (Stringbuf α) :=
  if s.m_beg ≤ p ∧ p - s.m_beg < s.array.length then
    some { s with array := s.array.set (p - s.m_beg).toNat c }
  else none

/-- The areas of a new array with the characters of `cs`. -/
def set_areas (s : Stringbuf α) : Stringbuf α :=
  let a := s.areas
  let a := if s.m_mode.has ios_in then a.setg s.m_beg s.m_beg s.m_end else a
  let a := if s.m_mode.has ios_out then a.setp s.m_beg s.m_end else a
  { s with areas := a }

/-- `basic_stringbuf(s, m)`. -/
def basic_stringbuf (cs : List α) (m : Openmode) : Stringbuf α :=
  let p := heap.address 0
  set_areas ⟨.null, m, p, p + cs.length, cs, 1⟩

/-- `str(s)`. -/
def set_str (s : Stringbuf α) (cs : List α) : Stringbuf α :=
  let p := heap.address s.allocated
  set_areas { s with
    m_beg := p
    m_end := p + cs.length
    array := if cs.length = 0 then [heap.junk] else cs
    allocated := s.allocated + 1 }

def underflow (s : Stringbuf α) : Option (Stringbuf α × Option α) :=
  if s.areas.gcur = s.areas.gend then some (s, none)
  else do
    let c ← s.load s.areas.gcur
    some (s, some c)

/-- `not_eof(eof())` is 0. -/
def pbackfail (s : Stringbuf α) (c : Option α) : Option (Stringbuf α × Option α) :=
  let a := s.areas
  if a.gbeg ≠ a.gcur then
    match c with
    | none => some ({ s with areas := a.gbump (-1) }, some 0)
    | some c => do
      let c' ← s.load (a.gcur - 1)
      if c = c' ∨ s.m_mode.has ios_out then
        let s := { s with areas := a.gbump (-1) }
        let s ← s.store s.areas.gcur c
        some (s, some c)
      else some (s, none)
  else some (s, none)

/-- The array at `m_beg` is never null. -/
def overflow (s : Stringbuf α) (c : Option α) : Option (Stringbuf α × Option α) :=
  match c with
  | none => some (s, some 0)
  | some c =>
    if s.m_mode.has ios_out then
      let a := s.areas
      if a.pcur ≠ a.pend then do
        let s ← s.store a.pcur c
        some ({ s with areas := a.pbump 1 }, some c)
      else if a.pend ≠ s.m_end then do
        let s ← s.store a.pcur c
        let a := a.setp a.pbeg (a.pend + 1)
        let a := a.pbump (a.pend - a.pbeg)
        let a := if a.gbeg ≠ 0 then a.setg a.gbeg a.gcur a.pcur else a
        some ({ s with areas := a }, some c)
      else
        let size := (s.m_end - s.m_beg).toNat
        let asize := if size = 0 then 256 else 2 * size
        let p := heap.address s.allocated
        if s.array.length < size then none
        else
          let nv := s.array.take size ++ List.replicate (asize - size) heap.junk
          let s := { s with
            m_beg := p
            m_end := p + asize
            array := nv.set size c
            allocated := s.allocated + 1 }
          let a := a.setp s.m_beg (s.m_beg + size + 1)
          let a := a.pbump (size + 1)
          let a := if s.m_mode.has ios_in then a.setg a.pbeg (a.pbeg + (a.gcur - a.gbeg)) a.pcur
            else a
          some ({ s with areas := a }, some c)
    else some (s, none)

/-- The virtual functions. `uflow` is not overridden. -/
def buf : Streambuf (Stringbuf α) α :=
  let b : Streambuf (Stringbuf α) α :=
    { areas := areas
      with_areas := fun s a => { s with areas := a }
      load := load
      store := store
      underflow := underflow
      uflow := fun _ => none
      pbackfail := pbackfail
      overflow := overflow heap }
  { b with uflow := b.base_uflow }

section

variable (s : Stringbuf α)

@[simp] theorem buf_areas : (buf heap).areas s = s.areas := rfl
@[simp] theorem buf_with_areas (a : Areas) :
    (buf heap).with_areas s a = { s with areas := a } := rfl
@[simp] theorem buf_load (p : Int) : (buf heap).load s p = s.load p := rfl
@[simp] theorem buf_store (p : Int) (c : α) : (buf heap).store s p c = s.store p c := rfl
@[simp] theorem buf_underflow : (buf heap).underflow s = s.underflow := rfl
@[simp] theorem buf_uflow : (buf heap).uflow s = (buf heap).base_uflow s := rfl
@[simp] theorem buf_pbackfail (c : Option α) : (buf heap).pbackfail s c = s.pbackfail c := rfl
@[simp] theorem buf_overflow (c : Option α) : (buf heap).overflow s c = s.overflow heap c := rfl

end

/-- The characters of `[p, e)`. -/
def chars (s : Stringbuf α) (p e : Int) : Option (List α) :=
  if e < p then none else (buf heap).read_chars s p (e - p).toNat

/-- `str()`. -/
def str (s : Stringbuf α) : Option (List α) :=
  let a := s.areas
  if a.pbeg = a.pend then
    if a.gbeg = a.gend then some [] else s.chars heap a.gbeg a.gend
  else s.chars heap a.pbeg a.pend

/-- Where `seekoff` leads to. -/
def seek_pointer (s : Stringbuf α) (off : Int) (dir : Seekdir) (which : Openmode) : Option Int :=
  let a := s.areas
  let e := if s.m_mode.has ios_out then a.pend else a.gend
  match dir with
  | .beg => if off < 0 ∨ e - s.m_beg < off then none else some (s.m_beg + off)
  | .end => if off > 0 ∨ e - s.m_beg < -off then none else some (e + off)
  | .cur =>
    if which &&& ios_inout = ios_inout then none
    else
      let np := if which.has ios_in then a.gcur else a.pcur
      if off < -(np - s.m_beg) ∨ e - np < off then none else some (np + off)

def seekoff (s : Stringbuf α) (off : Int) (dir : Seekdir) (which : Openmode) :
    Stringbuf α × Int :=
  let a := s.areas
  match s.seek_pointer off dir which with
  | none => (s, -1)
  | some np =>
    if which &&& ios_inout = ios_in then
      if s.m_mode.has ios_in ∧ a.gcur ≠ 0 then
        ({ s with areas := a.gbump (np - a.gcur) }, np - s.m_beg)
      else (s, -1)
    else if which &&& ios_inout = ios_out then
      if s.m_mode.has ios_out ∧ a.pcur ≠ 0 then
        ({ s with areas := a.pbump (np - a.pcur) }, np - s.m_beg)
      else (s, -1)
    else if which &&& ios_inout = ios_inout then
      if s.m_mode &&& ios_inout = ios_inout ∧ a.gcur ≠ 0 ∧ a.pcur ≠ 0 then
        let a := a.gbump (np - a.gcur)
        ({ s with areas := a.pbump (np - a.pcur) }, np - s.m_beg)
      else (s, -1)
    else (s, -1)

def seekpos (s : Stringbuf α) (pos : Int) (which : Openmode) : Stringbuf α × Int :=
  let a := s.areas
  let p := if s.m_mode.has ios_out then a.pend else a.gend
  if pos < 0 ∨ p - s.m_beg < pos then (s, -1)
  else
    let p := s.m_beg + pos
    let w := which &&& ios_inout &&& s.m_mode
    if w = ios_in then ({ s with areas := a.gbump (p - a.gcur) }, pos)
    else if w = ios_out then ({ s with areas := a.pbump (p - a.pcur) }, pos)
    else if w = ios_inout then
      let a := a.gbump (p - a.gcur)
      ({ s with areas := a.pbump (p - a.pcur) }, pos)
    else (s, -1)

end Stringbuf

/-! ## The operations -/

inductive BufOp (α : Type)
  | sputc (c : α)
  | sputn (cs : List α)
  | sgetc
  | sbumpc
  | snextc
  | sgetn (n : Nat)
  | sputbackc (c : α)
  | sungetc
  | set_str (cs : List α)
  | str
  | seekoff (off : Int) (dir : Seekdir) (which : Openmode)
  | seekpos (pos : Int) (which : Openmode)
  deriving DecidableEq

/-- What an operation returns. -/
inductive BufResult (α : Type)
  | char (c : Option α)
  | chars (cs : List α)
  | count (n : Nat)
  | pos (p : Int)
  | done
  deriving DecidableEq

section

variable {α : Type}

/-- A result of a function that returns a character. -/
def of_char {σ : Type} (x : σ × Option α) : BufResult α × σ := (.char x.2, x.1)

variable [Zero α] [DecidableEq α]

def Stringbuf.next (heap : Allocator α) (s : Stringbuf α) :
    BufOp α → Option (BufResult α × Stringbuf α)
  | .sputc c => ((buf heap).sputc s c).map of_char
  | .sputn cs => ((buf heap).sputn s cs).map fun x => (.count x.2, x.1)
  | .sgetc => ((buf heap).sgetc s).map of_char
  | .sbumpc => ((buf heap).sbumpc s).map of_char
  | .snextc => ((buf heap).snextc s).map of_char
  | .sgetn n => ((buf heap).sgetn s n).map fun x => (.chars x.2, x.1)
  | .sputbackc c => ((buf heap).sputbackc s c).map of_char
  | .sungetc => ((buf heap).sungetc s).map of_char
  | .set_str cs => some (.done, s.set_str heap cs)
  | .str => (s.str heap).map fun cs => (.chars cs, s)
  | .seekoff off dir which => some (.pos (s.seekoff off dir which).2, (s.seekoff off dir which).1)
  | .seekpos pos which => some (.pos (s.seekpos pos which).2, (s.seekpos pos which).1)

end

/-! ## 1. The string with two positions -/

structure Text (α : Type) where
  content : List α
  rpos : Nat
  wpos : Nat
  deriving DecidableEq

namespace Text

variable {α : Type} (m : Openmode)

/-- The next character is read. -/
def get (t : Text α) : Option (α × Text α) :=
  if m.has ios_in then t.content[t.rpos]?.map fun c => (c, { t with rpos := t.rpos + 1 })
  else none

/-- A character is written over the one at the write position, or appended. -/
def put (t : Text α) (c : α) : Option (Text α) :=
  if m.has ios_out then
    some { t with
      content := t.content.take t.wpos ++ c :: t.content.drop (t.wpos + 1)
      wpos := t.wpos + 1 }
  else none

/-- Only where the string can be written, a different character is put back. -/
def put_back [DecidableEq α] (t : Text α) (c : α) : Text α × Option α :=
  if m.has ios_in ∧ 0 < t.rpos then
    if t.content[t.rpos - 1]? = some c then ({ t with rpos := t.rpos - 1 }, some c)
    else if m.has ios_out then
      ({ t with content := t.content.set (t.rpos - 1) c, rpos := t.rpos - 1 }, some c)
    else (t, none)
  else (t, none)

def unget (t : Text α) : Text α × Option α :=
  if m.has ios_in ∧ 0 < t.rpos then ({ t with rpos := t.rpos - 1 }, t.content[t.rpos - 1]?)
  else (t, none)

/-- `which` asks for positions that the mode has. -/
def asks (which : Openmode) : Bool :=
  (which.has ios_in || which.has ios_out) && (!which.has ios_in || m.has ios_in) &&
    (!which.has ios_out || m.has ios_out)

/-- Where a seek leads to, if it stays in the string. -/
def target (t : Text α) (off : Int) (dir : Seekdir) (which : Openmode) : Option Nat :=
  let base : Int :=
    match dir with
    | .beg => 0
    | .end => t.content.length
    | .cur => if which.has ios_in then t.rpos else t.wpos
  if asks m which ∧ ¬ (dir = .cur ∧ which.has ios_in ∧ which.has ios_out) ∧
      0 ≤ base + off ∧ base + off ≤ t.content.length then
    some (base + off).toNat
  else none

/-- The positions in `which` are moved. -/
def move (t : Text α) (which : Openmode) (p : Nat) : Text α :=
  { t with
    rpos := if which.has ios_in then p else t.rpos
    wpos := if which.has ios_out then p else t.wpos }

def seekoff (t : Text α) (off : Int) (dir : Seekdir) (which : Openmode) : Text α × Int :=
  match t.target m off dir which with
  | none => (t, -1)
  | some p => (t.move which p, p)

def seekpos (t : Text α) (pos : Int) (which : Openmode) : Text α × Int :=
  let w := which &&& m
  if (w.has ios_in ∨ w.has ios_out) ∧ 0 ≤ pos ∧ pos ≤ t.content.length then
    (t.move w pos.toNat, pos)
  else (t, -1)

/-- The distances from the positions in `which` to `p` are values of `int`. -/
def Near (t : Text α) (which : Openmode) (p : Int) : Prop :=
  (which.has ios_in → -2 ^ 31 ≤ p - t.rpos ∧ p - t.rpos < 2 ^ 31) ∧
    (which.has ios_out → -2 ^ 31 ≤ p - t.wpos ∧ p - t.wpos < 2 ^ 31)

instance (t : Text α) (which : Openmode) (p : Int) : Decidable (t.Near which p) :=
  inferInstanceAs (Decidable ((_ → _ ∧ _) ∧ (_ → _ ∧ _)))

/-- No position is moved by more than `int` can hold, and no new end of the content is
further away than that. -/
def Fits (t : Text α) : BufOp α → Prop
  | .sputc _ => m.has ios_out → t.wpos = t.content.length → t.content.length + 1 < 2 ^ 31
  | .sputn cs => m.has ios_out →
      (t.wpos + cs.length ≤ t.content.length ∧ cs.length < 2 ^ 31) ∨ t.wpos + cs.length < 2 ^ 31
  | .sgetn n => m.has ios_in → min n (t.content.length - t.rpos) < 2 ^ 31
  | .seekoff off dir which => ∀ p ∈ t.target m off dir which, t.Near which p
  | .seekpos pos which => 0 ≤ pos → pos ≤ t.content.length → t.Near (which &&& m) pos
  | _ => True

instance (t : Text α) : ∀ op, Decidable (t.Fits m op)
  | .sputc _ => inferInstanceAs (Decidable (_ → _ → _ < _))
  | .sputn _ => inferInstanceAs (Decidable (_ → _ ∨ _))
  | .sgetn _ => inferInstanceAs (Decidable (_ → _ < _))
  | .seekoff off dir which => inferInstanceAs (Decidable (∀ p ∈ t.target m off dir which, _))
  | .seekpos _ _ => inferInstanceAs (Decidable (_ → _ → _))
  | .sgetc | .sbumpc | .snextc | .sputbackc _ | .sungetc | .set_str _ | .str =>
    inferInstanceAs (Decidable True)

/-- The result of an operation. -/
def next [DecidableEq α] (t : Text α) : BufOp α → Option (BufResult α × Text α)
  | .sputc c =>
    match t.put m c with
    | none => some (.char none, t)
    | some t' => some (.char (some c), t')
  | .sputn cs => some (.count (puts (put m) t cs).2, (puts (put m) t cs).1)
  | .sgetc => some (.char ((t.get m).map Prod.fst), t)
  | .sbumpc =>
    match t.get m with
    | none => some (.char none, t)
    | some (c, t') => some (.char (some c), t')
  | .snextc =>
    match t.get m with
    | none => some (.char none, t)
    | some (_, t') => some (.char ((t'.get m).map Prod.fst), t')
  | .sgetn n => some (.chars (nexts (get m) n t).1, (nexts (get m) n t).2)
  | .sputbackc c => some (of_char (t.put_back m c))
  | .sungetc => some (of_char (t.unget m))
  | .set_str cs => some (.done, ⟨cs, 0, 0⟩)
  | .str => some (.chars t.content, t)
  | .seekoff off dir which =>
    some (.pos (t.seekoff m off dir which).2, (t.seekoff m off dir which).1)
  | .seekpos pos which => some (.pos (t.seekpos m pos which).2, (t.seekpos m pos which).1)

theorem next_total [DecidableEq α] (t : Text α) (op : BufOp α) :
    ∃ r t', t.next m op = some (r, t') := by
  cases op with
  | sputc c =>
    rw [next]
    split <;> exact ⟨_, _, rfl⟩
  | sbumpc =>
    rw [next]
    split <;> exact ⟨_, _, rfl⟩
  | snextc =>
    rw [next]
    split <;> exact ⟨_, _, rfl⟩
  | _ => exact ⟨_, _, rfl⟩

end Text

/-! ## 2. How the pointers stand for it -/

namespace Stringbuf

variable {α : Type}

/-- The array begins with the content, and the pointers to it are counted from its start. -/
structure Holds (s : Stringbuf α) (content : List α) : Prop where
  beg_pos : 0 < s.m_beg
  begins : content <+: s.array
  room : s.m_beg + content.length ≤ s.m_end ∧ s.m_end ≤ s.m_beg + s.array.length

/-- The areas are the whole content, in a mode that has them. -/
structure Points (s : Stringbuf α) (t : Text α) : Prop where
  rpos_le : t.rpos ≤ t.content.length
  wpos_le : t.wpos ≤ t.content.length
  get : s.m_mode.has ios_in = true → s.areas.gbeg = s.m_beg ∧
    s.areas.gcur = s.m_beg + t.rpos ∧ s.areas.gend = s.m_beg + t.content.length
  no_get : s.m_mode.has ios_in = false →
    s.areas.gbeg = 0 ∧ s.areas.gcur = 0 ∧ s.areas.gend = 0
  put : s.m_mode.has ios_out = true → s.areas.pbeg = s.m_beg ∧
    s.areas.pcur = s.m_beg + t.wpos ∧ s.areas.pend = s.m_beg + t.content.length
  no_put : s.m_mode.has ios_out = false →
    s.areas.pbeg = 0 ∧ s.areas.pcur = 0 ∧ s.areas.pend = 0

structure Refines (m : Openmode) (s : Stringbuf α) (t : Text α) : Prop where
  mode : s.m_mode = m
  holds : s.Holds t.content
  points : s.Points t

end Stringbuf

namespace StringbufLemmas

open Stringbuf Text

variable {α : Type} {m : Openmode} {s : Stringbuf α} {t : Text α} {content : List α}

theorem to_int_eq {n : Int} (h : -2 ^ 31 ≤ n ∧ n < 2 ^ 31) : to_int n = n :=
  Int.bmod_eq_of_le (by omega) (by omega)

theorem index_eq (p : Int) (k : Nat) : (p + k - p).toNat = k := by omega

theorem next_address (p : Int) (i : Nat) : p + ((i + 1 : Nat) : Int) = p + i + 1 := by omega

theorem load_eq (h : s.Holds content) {k : Nat} (hk : k < content.length) :
    s.load (s.m_beg + k) = content[k]? := by
  obtain ⟨spare, hspare⟩ := h.begins
  rw [load, if_pos (by omega), index_eq, ← hspare,
    List.getElem?_append_left hk]

theorem store_lt (h : s.Holds content) {k : Nat} (hk : k < content.length) (c : α) :
    s.store (s.m_beg + k) c = some { s with array := s.array.set k c } ∧
      Holds { s with array := s.array.set k c } (content.set k c) := by
  obtain ⟨spare, hspare⟩ := h.begins
  have hroom := h.room
  have hlen : content.length ≤ s.array.length := List.IsPrefix.length_le h.begins
  constructor
  · rw [store, if_pos (by omega), index_eq]
  · refine ⟨h.beg_pos, ⟨spare, ?_⟩, ?_⟩
    · show _ = s.array.set k c
      rw [← hspare, List.set_append_left _ _ hk]
    · simpa only [List.length_set] using hroom

/-- A cell behind the content. -/
theorem store_end (h : s.Holds content) (hend : s.m_beg + content.length < s.m_end) (c : α) :
    s.store (s.m_beg + content.length) c =
        some { s with array := s.array.set content.length c } ∧
      Holds { s with array := s.array.set content.length c } (content ++ [c]) := by
  obtain ⟨spare, hspare⟩ := h.begins
  have hroom := h.room
  have hlen : s.array.length = content.length + spare.length := by
    rw [← hspare, List.length_append]
  constructor
  · rw [store, if_pos (by omega), index_eq]
  · refine ⟨h.beg_pos, ?_, ?_⟩
    · cases spare with
      | nil =>
        rw [List.length_nil] at hlen
        omega
      | cons x spare =>
        refine ⟨spare, ?_⟩
        show _ = s.array.set content.length c
        rw [← hspare, List.set_append_right _ _ (Nat.le_refl _), Nat.sub_self, List.set_cons_zero,
          List.append_assoc]
        rfl
    · rw [List.length_append, List.length_singleton, List.length_set]
      exact ⟨by push_cast; omega, hroom.2⟩

theorem with_areas_holds (h : s.Holds content) (a : Areas) :
    Holds { s with areas := a } content :=
  ⟨h.beg_pos, h.begins, h.room⟩

section

variable [Zero α] [DecidableEq α] (heap : Allocator α)

theorem read_chars_eq (h : s.Holds content) {i : Nat} (k : Nat) (hk : i + k ≤ content.length) :
    (buf heap).read_chars s (s.m_beg + i) k = some ((content.drop i).take k) := by
  induction k generalizing i with
  | zero => rfl
  | succ k ih =>
    have hi : i < content.length := by omega
    have hload : (buf heap).load s (s.m_beg + i) = some content[i] := by
      rw [← List.getElem?_eq_getElem hi]
      exact load_eq h hi
    have hrest := ih (i := i + 1) (by omega)
    rw [next_address] at hrest
    rw [Streambuf.read_chars, hload, List.drop_eq_getElem_cons hi, List.take_succ_cons]
    show Option.bind ((buf heap).read_chars s (s.m_beg + i + 1) k) _ = _
    rw [hrest]
    rfl

/-- Characters over those of the content. -/
def overwritten (content : List α) (i : Nat) (cs : List α) : List α :=
  content.take i ++ cs ++ content.drop (i + cs.length)

omit [Zero α] [DecidableEq α] in
theorem overwritten_cons {i : Nat} (hi : i < content.length) (c : α) (cs : List α) :
    overwritten (content.set i c) (i + 1) cs = overwritten content i (c :: cs) := by
  unfold overwritten
  have hset : content.set i c = (content.take i ++ [c]) ++ content.drop (i + 1) := by
    rw [List.set_eq_take_append_cons_drop, if_pos hi, List.append_assoc]
    rfl
  have hlen : (content.take i ++ [c]).length = i + 1 := by
    rw [List.length_append, List.length_take_of_le (Nat.le_of_lt hi), List.length_singleton]
  have htake : (content.set i c).take (i + 1) = content.take i ++ [c] := by
    rw [hset, List.take_left' hlen]
  have hdrop : (content.set i c).drop (i + 1 + cs.length) =
      content.drop (i + (c :: cs).length) := by
    rw [List.drop_set_of_lt (by omega), List.length_cons]
    congr 1
    omega
  rw [htake, hdrop, List.append_assoc (content.take i)]
  rfl

theorem write_chars_eq (cs : List α) {i : Nat} (h : s.Holds content)
    (hi : i + cs.length ≤ content.length) : ∃ array,
      (buf heap).write_chars s (s.m_beg + i) cs = some { s with array := array } ∧
        Holds { s with array := array } (overwritten content i cs) := by
  induction cs generalizing s content i with
  | nil =>
    refine ⟨s.array, rfl, ?_⟩
    have hover : overwritten content i [] = content := by
      rw [overwritten, List.append_nil]
      exact List.take_append_drop i content
    rwa [hover]
  | cons c cs ih =>
    have hlt : i < content.length := by
      rw [List.length_cons] at hi
      omega
    obtain ⟨hstore, hholds⟩ := store_lt h hlt c
    obtain ⟨array, hwrite, hrest⟩ := ih (i := i + 1) hholds (by
      rw [List.length_set]
      rw [List.length_cons] at hi
      omega)
    rw [overwritten_cons hlt] at hrest
    refine ⟨array, ?_, hrest⟩
    rw [Streambuf.write_chars, show (buf heap).store s (s.m_beg + i) c = _ from hstore]
    rw [next_address] at hwrite
    exact hwrite

end

/-! The read position -/

theorem move_get (h : s.Refines m t) (hin : m.has ios_in = true) {r : Nat}
    (hr : r ≤ t.content.length) {p : Int} (hp : p = s.m_beg + r) :
    Refines m { s with areas := { s.areas with gcur := p } } { t with rpos := r } := by
  obtain ⟨hmode, hholds, hpoints⟩ := h
  rw [← hmode] at hin
  obtain ⟨hbeg, -, hend⟩ := hpoints.get hin
  refine ⟨hmode, with_areas_holds hholds _, hr, hpoints.wpos_le, fun _ => ⟨hbeg, hp, hend⟩,
    fun hno => ?_, hpoints.put, hpoints.no_put⟩
  rw [show s.m_mode.has ios_in = false from hno] at hin
  cases hin

/-- There is a next character, and the pointer is at it, or there is none. -/
theorem get_cases (h : s.Refines m t) :
    (s.areas.gcur = s.areas.gend ∧ t.get m = none) ∨
      ∃ c, m.has ios_in = true ∧ t.rpos < t.content.length ∧
        s.areas.gcur = s.m_beg + t.rpos ∧ s.areas.gend = s.m_beg + t.content.length ∧
        s.load s.areas.gcur = some c ∧ t.get m = some (c, { t with rpos := t.rpos + 1 }) := by
  unfold Text.get
  cases hin : m.has ios_in with
  | false =>
    obtain ⟨-, hcur, hend⟩ := h.points.no_get (by rw [h.mode, hin])
    exact .inl ⟨by rw [hcur, hend], rfl⟩
  | true =>
    obtain ⟨-, hcur, hend⟩ := h.points.get (by rw [h.mode, hin])
    rcases Nat.lt_or_eq_of_le h.points.rpos_le with hlt | heq
    · right
      refine ⟨t.content[t.rpos], rfl, hlt, hcur, hend, ?_, ?_⟩
      · rw [hcur, load_eq h.holds hlt, List.getElem?_eq_getElem hlt]
      · rw [List.getElem?_eq_getElem hlt]
        rfl
    · left
      rw [hcur, hend, heq]
      exact ⟨rfl, by rw [List.getElem?_eq_none (Nat.le_refl _)]; rfl⟩

/-- What is read by `nexts`. -/
theorem nexts_get (hin : m.has ios_in = true) (k : Nat) (t : Text α)
    (hk : t.rpos + k ≤ t.content.length) :
    nexts (Text.get m) k t = ((t.content.drop t.rpos).take k, { t with rpos := t.rpos + k }) := by
  induction k generalizing t with
  | zero => rfl
  | succ k ih =>
    have hlt : t.rpos < t.content.length := by omega
    have hget : t.get m = some (t.content[t.rpos], { t with rpos := t.rpos + 1 }) := by
      rw [Text.get, if_pos hin, List.getElem?_eq_getElem hlt]
      rfl
    rw [nexts, hget]
    dsimp only
    rw [ih _ (by dsimp only; omega), List.drop_eq_getElem_cons hlt, List.take_succ_cons]
    dsimp only
    rw [Nat.add_assoc, Nat.add_comm 1 k]

theorem underflow_end (h : s.areas.gcur = s.areas.gend) : s.underflow = some (s, none) := by
  rw [underflow, if_pos h]

section

variable [Zero α] [DecidableEq α] (heap : Allocator α)

theorem sgetc_spec (h : s.Refines m t) :
    (buf heap).sgetc s = some (s, (t.get m).map Prod.fst) := by
  rw [Streambuf.sgetc, buf_areas, buf_underflow, buf_load]
  rcases get_cases h with ⟨hend, hget⟩ | ⟨c, -, hlt, hcur, hend, hload, hget⟩
  · rw [if_pos hend.symm, hget]
    exact underflow_end hend
  · rw [if_neg (by omega), hget, hload]
    rfl

theorem sbumpc_end (h : s.areas.gcur = s.areas.gend) :
    (buf heap).sbumpc s = some (s, none) := by
  rw [Streambuf.sbumpc, buf_areas, if_neg (not_not.mpr h), buf_uflow, Streambuf.base_uflow,
    buf_underflow, underflow_end h]
  rfl

theorem sbumpc_spec (h : s.Refines m t) :
    (t.get m = none → (buf heap).sbumpc s = some (s, none)) ∧
    ∀ c t', t.get m = some (c, t') → ∃ s', (buf heap).sbumpc s = some (s', some c) ∧
      s'.Refines m t' := by
  rcases get_cases h with ⟨hend, hget⟩ | ⟨c, hin, hlt, hcur, hend, hload, hget⟩
  · refine ⟨fun _ => sbumpc_end heap hend, fun c t' hsome => ?_⟩
    rw [hget] at hsome
    cases hsome
  · rw [hget]
    refine ⟨fun hnone => absurd hnone (Option.some_ne_none _), fun c' t' hsome => ?_⟩
    cases hsome
    refine ⟨_, ?_, move_get h hin hlt (p := s.areas.gcur + 1) (by omega)⟩
    rw [Streambuf.sbumpc, buf_areas, buf_load, if_pos (by omega), hload]
    rfl

theorem snextc_spec (h : s.Refines m t) :
    (t.get m = none → (buf heap).snextc s = some (s, none)) ∧
    ∀ c t', t.get m = some (c, t') → ∃ s',
      (buf heap).snextc s = some (s', (t'.get m).map Prod.fst) ∧ s'.Refines m t' := by
  unfold Streambuf.snextc
  rcases get_cases h with ⟨hend, hget⟩ | ⟨c, hin, hlt, hcur, hend, hload, hget⟩
  · refine ⟨fun _ => ?_, fun c t' hsome => ?_⟩
    · rw [buf_areas, if_pos (by omega), sbumpc_end heap hend]
      rfl
    · rw [hget] at hsome
      cases hsome
  · rw [hget]
    refine ⟨fun hnone => absurd hnone (Option.some_ne_none _), fun c' t' hsome => ?_⟩
    cases hsome
    have hone : to_int 1 = 1 := by decide
    rw [buf_areas, buf_with_areas, if_neg (by omega)]
    generalize hs' : ({ s with areas := s.areas.gbump 1 } : Stringbuf α) = s'
    have hmoved : s'.Refines m { t with rpos := t.rpos + 1 } :=
      hs' ▸ move_get h hin hlt (p := s.areas.gcur + to_int 1) (by omega)
    have hcur' : s'.areas.gcur = s.areas.gcur + 1 := by
      rw [← hs', ← hone]
      rfl
    refine ⟨s', ?_, hmoved⟩
    split
    · exact sgetc_spec heap hmoved
    next hmore =>
      -- more than one character: the pointer is not at the end
      rcases get_cases hmoved with ⟨hend', -⟩ | ⟨c', -, -, -, -, hload', hget'⟩
      · have hgend : s'.areas.gend = s.areas.gend := by
          rw [← hs']
          rfl
        omega
      · rw [hget']
        show Option.bind (s'.load s'.areas.gcur) _ = _
        rw [hload']
        rfl

theorem reads : (buf heap).Reads
    (fun n s t => s.Refines m t ∧
      (m.has ios_in = true → min n (t.content.length - t.rpos) < 2 ^ 31))
    (Text.get m) := by
  refine ⟨fun n s t h => ⟨h.1, fun hin => ?_⟩, fun n s t h hne => ?_, fun n s t h heq => ?_⟩
  · have := h.2 hin
    omega
  · obtain ⟨h, hfits⟩ := h
    rcases get_cases h with ⟨hend, -⟩ | ⟨c, hin, hlt, hcur, hend, -, -⟩
    · exact absurd hend hne
    · refine ⟨show s.areas.gcur < s.areas.gend by omega, fun k hpos hk hle => ?_⟩
      have hle : t.rpos + k ≤ t.content.length := by
        change s.areas.gcur + k ≤ s.areas.gend at hle
        omega
      have hbound := hfits hin
      refine ⟨_, _, ?_, nexts_get hin k t hle, ?_, ?_, fun _ => ?_⟩
      · rw [show ((buf heap).areas s).gcur = s.m_beg + t.rpos from hcur]
        exact read_chars_eq heap h.holds k hle
      · rw [List.length_take, List.length_drop]
        omega
      · refine move_get h hin hle (p := s.areas.gcur + to_int k) ?_
        rw [to_int_eq (by omega)]
        omega
      · dsimp only
        omega
  · obtain ⟨hnone, hsome⟩ := sbumpc_spec heap h.1
    refine ⟨fun hget => ⟨s, hnone hget, h.1, fun hin => ?_⟩, fun c t' hget => ?_⟩
    · have := h.2 hin
      omega
    · rcases get_cases h.1 with ⟨-, hget'⟩ | ⟨c, hin, hlt, hcur, hend, -, -⟩
      · rw [hget'] at hget
        cases hget
      · change s.areas.gcur = s.areas.gend at heq
        omega

end

/-! The write position -/

theorem move_put (h : s.Refines m t) (hout : m.has ios_out = true) {w : Nat}
    (hw : w ≤ t.content.length) {p : Int} (hp : p = s.m_beg + w) :
    Refines m { s with areas := { s.areas with pcur := p } } { t with wpos := w } := by
  obtain ⟨hmode, hholds, hpoints⟩ := h
  rw [← hmode] at hout
  obtain ⟨hbeg, -, hend⟩ := hpoints.put hout
  refine ⟨hmode, with_areas_holds hholds _, hpoints.rpos_le, hw, hpoints.get, hpoints.no_get,
    fun _ => ⟨hbeg, hp, hend⟩, fun hno => ?_⟩
  rw [show s.m_mode.has ios_out = false from hno] at hout
  cases hout

/-- Characters are changed in the array. -/
theorem change (h : s.Refines m t) {array : List α}
    (hholds : Holds { s with array := array } content)
    (hlen : content.length = t.content.length) :
    Refines m { s with array := array } { t with content := content } := by
  obtain ⟨hmode, -, hpoints⟩ := h
  refine ⟨hmode, hholds, ?_, ?_, fun hin => ?_, hpoints.no_get, fun hout => ?_, hpoints.no_put⟩
  · exact hlen ▸ hpoints.rpos_le
  · exact hlen ▸ hpoints.wpos_le
  · exact hlen ▸ hpoints.get hin
  · exact hlen ▸ hpoints.put hout

theorem put_cases (h : s.Refines m t) :
    (m.has ios_out = false ∧ s.areas.pcur = s.areas.pend ∧ ∀ c, t.put m c = none) ∨
      (m.has ios_out = true ∧ s.areas.pbeg = s.m_beg ∧ s.areas.pcur = s.m_beg + t.wpos ∧
        s.areas.pend = s.m_beg + t.content.length ∧
        ((t.wpos < t.content.length ∧ ∀ c, t.put m c = some
            { t with content := t.content.set t.wpos c, wpos := t.wpos + 1 }) ∨
          (t.wpos = t.content.length ∧ ∀ c, t.put m c = some
            { t with content := t.content ++ [c], wpos := t.wpos + 1 }))) := by
  unfold Text.put
  cases hout : m.has ios_out with
  | false =>
    obtain ⟨-, hcur, hend⟩ := h.points.no_put (by rw [h.mode, hout])
    exact .inl ⟨rfl, by rw [hcur, hend], fun _ => rfl⟩
  | true =>
    obtain ⟨hbeg, hcur, hend⟩ := h.points.put (by rw [h.mode, hout])
    right
    refine ⟨rfl, hbeg, hcur, hend, ?_⟩
    rcases Nat.lt_or_eq_of_le h.points.wpos_le with hlt | heq
    · left
      refine ⟨hlt, fun c => ?_⟩
      rw [List.set_eq_take_append_cons_drop, if_pos hlt]
      rfl
    · right
      refine ⟨heq, fun c => ?_⟩
      rw [List.take_of_length_le (Nat.le_of_eq heq.symm),
        List.drop_eq_nil_of_le (by omega)]
      rfl

theorem puts_put (hout : m.has ios_out = true) (cs : List α) (t : Text α)
    (hcs : t.wpos + cs.length ≤ t.content.length) :
    puts (Text.put m) t cs =
      ({ t with content := overwritten t.content t.wpos cs, wpos := t.wpos + cs.length },
        cs.length) := by
  induction cs generalizing t with
  | nil =>
    rw [overwritten, List.append_nil]
    show (t, 0) = ({ t with content := t.content.take t.wpos ++ t.content.drop t.wpos }, 0)
    rw [List.take_append_drop]
  | cons c cs ih =>
    have hlt : t.wpos < t.content.length := by
      rw [List.length_cons] at hcs
      omega
    have hput : t.put m c =
        some { t with content := t.content.set t.wpos c, wpos := t.wpos + 1 } := by
      rw [Text.put, if_pos hout, List.set_eq_take_append_cons_drop, if_pos hlt]
    rw [puts, hput]
    dsimp only
    rw [ih _ (by
      dsimp only
      rw [List.length_set]
      rw [List.length_cons] at hcs
      omega)]
    dsimp only
    rw [overwritten_cons hlt, List.length_cons, Nat.add_assoc, Nat.add_comm 1]

section

variable [Zero α] (heap : Allocator α)

/-- The array has room behind the content. -/
theorem overflow_room (h : s.Refines m t) (hout : m.has ios_out = true)
    (hw : t.wpos = t.content.length) (hend : s.areas.pend ≠ s.m_end)
    (hfits : t.content.length + 1 < 2 ^ 31) (c : α) : ∃ s',
      s.overflow heap (some c) = some (s', some c) ∧
        s'.Refines m { t with content := t.content ++ [c], wpos := t.wpos + 1 } := by
  have hmode := h.mode
  obtain ⟨hpbeg, hpcur, hpend⟩ := h.points.put (by rw [hmode, hout])
  have hroom := h.holds.room
  obtain ⟨hstore, hholds⟩ := store_end h.holds (by omega) c
  have hpos := h.holds.beg_pos
  have hbump : to_int (s.areas.pend + 1 - s.areas.pbeg) = t.content.length + 1 := by
    rw [hpend, hpbeg, to_int_eq (by omega)]
    omega
  have hlen : (t.content ++ [c]).length = t.content.length + 1 := by
    rw [List.length_append, List.length_singleton]
  unfold Stringbuf.overflow
  dsimp only
  rw [hw] at hpcur
  rw [hmode, if_pos hout, if_neg (by rw [hpcur, hpend, not_not]), if_pos hend, hpcur, hstore]
  refine ⟨_, rfl, hmode, with_areas_holds hholds _, ?_⟩
  have hrpos : t.rpos ≤ (t.content ++ [c]).length := by
    have := h.points.rpos_le
    omega
  have hwpos : t.wpos + 1 ≤ (t.content ++ [c]).length := by omega
  have hput : s.areas.pbeg + to_int (s.areas.pend + 1 - s.areas.pbeg) =
      s.m_beg + (t.wpos + 1 : Nat) ∧ s.areas.pend + 1 = s.m_beg + (t.content ++ [c]).length := by
    omega
  have hout' : ∀ {P : Prop}, s.m_mode.has ios_out = false → P := by
    intro P hno
    rw [hmode, hout] at hno
    cases hno
  split
  next hne =>
    have hne : s.areas.gbeg ≠ 0 := hne
    cases hin : s.m_mode.has ios_in with
    | false => exact absurd (h.points.no_get hin).1 hne
    | true =>
      obtain ⟨hbeg, hcur, -⟩ := h.points.get hin
      refine ⟨hrpos, hwpos, fun _ => ⟨hbeg, hcur, hput.1.trans ?_⟩, fun hno => ?_,
        fun _ => ⟨hpbeg, hput⟩, hout'⟩
      · dsimp only
        omega
      · rw [show s.m_mode.has ios_in = false from hno] at hin
        cases hin
  next heq =>
    have heq : s.areas.gbeg = 0 := not_not.mp heq
    cases hin : s.m_mode.has ios_in with
    | true =>
      have := (h.points.get hin).1
      omega
    | false =>
      refine ⟨hrpos, hwpos, fun hyes => ?_, fun _ => h.points.no_get hin,
        fun _ => ⟨hpbeg, hput⟩, hout'⟩
      rw [show s.m_mode.has ios_in = true from hyes] at hin
      cases hin

omit [Zero α] in
/-- A new array is longer. -/
theorem grown (n : Nat) : ∃ k, (if n = 0 then 256 else 2 * n) = n + (k + 1) := by
  cases n with
  | zero => exact ⟨255, rfl⟩
  | succ n =>
    refine ⟨n, ?_⟩
    rw [if_neg (Nat.succ_ne_zero n)]
    omega

omit [Zero α] in
/-- The state after the array is replaced by a longer one. -/
theorem grown_refines (h : s.Refines m t) (hout : m.has ios_out = true)
    (hw : t.wpos = t.content.length) {p : Int} (hp : 0 < p) (c : α) (spare : List α) :
    Refines m
      { m_beg := p
        m_end := p + (t.content.length + 1 + spare.length : Nat)
        array := t.content ++ [c] ++ spare
        allocated := s.allocated + 1
        m_mode := s.m_mode
        areas :=
          { pbeg := p
            pcur := p + (t.content.length + 1 : Nat)
            pend := p + (t.content.length + 1 : Nat)
            gbeg := if m.has ios_in then p else s.areas.gbeg
            gcur := if m.has ios_in then p + (s.areas.gcur - s.areas.gbeg) else s.areas.gcur
            gend := if m.has ios_in then p + (t.content.length + 1 : Nat) else s.areas.gend } }
      { t with content := t.content ++ [c], wpos := t.wpos + 1 } := by
  have hmode := h.mode
  have hlen : (t.content ++ [c]).length = t.content.length + 1 := by
    rw [List.length_append, List.length_singleton]
  have hrpos := h.points.rpos_le
  refine ⟨hmode, ⟨hp, List.prefix_append _ _, ?_⟩, ?_, ?_, fun hin => ?_, fun hin => ?_,
    fun _ => ⟨rfl, ?_, ?_⟩, fun hno => ?_⟩
  · dsimp only
    rw [hlen, List.length_append, hlen]
    omega
  · dsimp only
    omega
  · dsimp only
    omega
  · have hin : s.m_mode.has ios_in = true := hin
    obtain ⟨hbeg, hcur, -⟩ := h.points.get hin
    rw [hmode] at hin
    dsimp only
    rw [if_pos hin, if_pos hin, if_pos hin, hlen, hbeg, hcur]
    exact ⟨rfl, by omega, rfl⟩
  · have hin : s.m_mode.has ios_in = false := hin
    dsimp only
    rw [← hmode, hin]
    exact h.points.no_get hin
  · dsimp only
    rw [hw]
  · dsimp only
    rw [hlen]
  · rw [hmode, hout] at hno
    cases hno

/-- The array is full. -/
theorem overflow_grow (h : s.Refines m t) (hout : m.has ios_out = true)
    (hw : t.wpos = t.content.length) (hend : s.areas.pend = s.m_end)
    (hfits : t.content.length + 1 < 2 ^ 31) (c : α) : ∃ s',
      s.overflow heap (some c) = some (s', some c) ∧
        s'.Refines m { t with content := t.content ++ [c], wpos := t.wpos + 1 } := by
  obtain ⟨hpbeg, hpcur, hpend⟩ := h.points.put (by rw [h.mode, hout])
  have hsize : (s.m_end - s.m_beg).toNat = t.content.length := by
    rw [← hend, hpend, index_eq]
  have hlong : t.content.length ≤ s.array.length := h.holds.begins.length_le
  have htake : s.array.take t.content.length = t.content :=
    (List.prefix_iff_eq_take.mp h.holds.begins).symm
  have hbump : to_int ((t.content.length : Int) + 1) = (t.content.length + 1 : Nat) :=
    to_int_eq (by omega)
  obtain ⟨k, hk⟩ := grown t.content.length
  have hset : (t.content ++ List.replicate (k + 1) heap.junk).set t.content.length c =
      (t.content ++ [c]) ++ List.replicate k heap.junk := by
    rw [List.set_append_right _ _ (Nat.le_refl _), Nat.sub_self, List.replicate_succ,
      List.set_cons_zero, List.append_assoc]
    rfl
  have hspare : t.content.length + (k + 1) =
      t.content.length + 1 + (List.replicate k heap.junk).length := by
    rw [List.length_replicate, Nat.add_right_comm, Nat.add_assoc]
  have hgrown := grown_refines h hout hw (heap.address_pos s.allocated) c
    (List.replicate k heap.junk)
  rw [← hspare] at hgrown
  have hpast : heap.address s.allocated + t.content.length + 1 =
      heap.address s.allocated + (t.content.length + 1 : Nat) := Int.add_assoc _ _ _
  refine ⟨_, ?_, hgrown⟩
  unfold Stringbuf.overflow
  dsimp only
  rw [h.mode, if_pos hout, if_neg (by rw [hpcur, hpend, hw, not_not]), if_neg (not_not.mpr hend),
    hsize, if_neg (Nat.not_lt.mpr hlong), htake, hk, Nat.add_sub_cancel_left, hset]
  unfold Areas.pbump Areas.setp Areas.setg
  dsimp only
  rw [hbump, hpast]
  cases m.has ios_in <;> rfl

end

section

variable [Zero α] [DecidableEq α] (heap : Allocator α)

/-- The new end of the content is within the range of `int`. -/
theorem sputc_spec (h : s.Refines m t)
    (hfits : m.has ios_out = true → t.wpos = t.content.length → t.content.length + 1 < 2 ^ 31)
    (c : α) :
    (t.put m c = none → (buf heap).sputc s c = some (s, none)) ∧
    ∀ t', t.put m c = some t' → ∃ s', (buf heap).sputc s c = some (s', some c) ∧
      s'.Refines m t' := by
  unfold Streambuf.sputc
  rcases put_cases h with ⟨hno, hend, hput⟩ | ⟨hout, hpbeg, hcur, hend, ⟨hlt, hput⟩ | ⟨heq, hput⟩⟩
  · rw [hput c]
    refine ⟨fun _ => ?_, fun t' hsome => by cases hsome⟩
    rw [buf_areas, if_pos hend, buf_overflow]
    unfold Stringbuf.overflow
    dsimp only
    rw [h.mode, hno]
    rfl
  · rw [hput c]
    refine ⟨fun hnone => absurd hnone (Option.some_ne_none _), fun t' hsome => ?_⟩
    cases hsome
    obtain ⟨hstore, hholds⟩ := store_lt h.holds hlt c
    have hchange := change h hholds List.length_set
    refine ⟨_, ?_, move_put hchange hout (w := t.wpos + 1) (p := s.areas.pcur + 1) ?_ ?_⟩
    · rw [buf_areas, if_neg (by omega), buf_store, hcur, hstore]
      rfl
    · rw [List.length_set]
      exact hlt
    · dsimp only
      omega
  · rw [hput c]
    refine ⟨fun hnone => absurd hnone (Option.some_ne_none _), fun t' hsome => ?_⟩
    cases hsome
    rw [buf_areas, if_pos (by omega), buf_overflow]
    rcases eq_or_ne s.areas.pend s.m_end with hfull | hroom
    · exact overflow_grow heap h hout heq hfull (hfits hout heq) c
    · exact overflow_room heap h hout heq hroom (hfits hout heq) c

theorem writes : (buf heap).Writes
    (fun n s t => s.Refines m t ∧ (m.has ios_out = true →
      (t.wpos + n ≤ t.content.length ∧ n < 2 ^ 31) ∨ t.wpos + n < 2 ^ 31))
    (Text.put m) := by
  refine ⟨fun n s t h => ⟨h.1, fun hout => ?_⟩, fun n s t h hne => ?_, fun n s t c h heq => ?_⟩
  · rcases h.2 hout with hfits | hfits
    · left
      omega
    · right
      omega
  · obtain ⟨h, hfits⟩ := h
    rcases put_cases h with ⟨-, hend, -⟩ | ⟨hout, -, hcur, hend, -⟩
    · exact absurd hend hne
    · have hle := h.points.wpos_le
      refine ⟨show s.areas.pcur < s.areas.pend from ?_, fun cs hcs hroom => ?_⟩
      · change s.areas.pcur ≠ s.areas.pend at hne
        omega
      · have hroom : t.wpos + cs.length ≤ t.content.length := by
          change s.areas.pcur + cs.length ≤ s.areas.pend at hroom
          omega
        obtain ⟨array, hwrite, hholds⟩ := write_chars_eq heap cs h.holds hroom
        have hlen : (overwritten t.content t.wpos cs).length = t.content.length := by
          unfold overwritten
          simp only [List.length_append, List.length_take, List.length_drop]
          omega
        have hbound := hfits hout
        refine ⟨_, _, ?_, puts_put hout cs t hroom,
          move_put (change h hholds hlen) hout (w := t.wpos + cs.length)
            (p := s.areas.pcur + to_int cs.length) ?_ ?_, fun _ => ?_⟩
        · rw [buf_areas, hcur]
          exact hwrite
        · rw [hlen]
          exact hroom
        · rw [to_int_eq (by omega)]
          dsimp only
          omega
        · dsimp only
          rw [hlen]
          omega
  · obtain ⟨h, hfits⟩ := h
    obtain ⟨hnone, hsome⟩ := sputc_spec heap h (fun hout hw => by have := hfits hout; omega) c
    refine ⟨fun hput => ⟨s, hnone hput, h, fun hout => ?_⟩, fun t' hput => ?_⟩
    · have := hfits hout
      omega
    · obtain ⟨s', hsputc, h'⟩ := hsome t' hput
      refine ⟨s', hsputc, h', fun hout => ?_⟩
      have hbound := hfits hout
      unfold Text.put at hput
      rw [if_pos hout] at hput
      cases hput
      simp only [List.length_append, List.length_take, List.length_cons, List.length_drop]
      omega

/-! Putting back -/

omit [Zero α] [DecidableEq α] in
theorem back_cases (h : s.Refines m t) :
    (s.areas.gbeg = s.areas.gcur ∧ ¬ (m.has ios_in ∧ 0 < t.rpos)) ∨
      ∃ r c, m.has ios_in = true ∧ t.rpos = r + 1 ∧ r < t.content.length ∧
        s.areas.gbeg ≠ s.areas.gcur ∧ s.areas.gcur - 1 = s.m_beg + r ∧
        s.load (s.areas.gcur - 1) = some c ∧ t.content[r]? = some c := by
  cases hin : m.has ios_in with
  | false =>
    obtain ⟨hbeg, hcur, -⟩ := h.points.no_get (by rw [h.mode, hin])
    exact .inl ⟨by rw [hbeg, hcur], fun hyes => by cases hyes.1⟩
  | true =>
    obtain ⟨hbeg, hcur, -⟩ := h.points.get (by rw [h.mode, hin])
    have hle := h.points.rpos_le
    cases hr : t.rpos with
    | zero =>
      rw [hr] at hcur
      exact .inl ⟨by omega, fun hyes => Nat.lt_irrefl 0 hyes.2⟩
    | succ r =>
      rw [hr] at hcur hle
      have hback : s.areas.gcur - 1 = s.m_beg + r := by omega
      refine .inr ⟨r, t.content[r], rfl, rfl, hle, by omega, hback, ?_,
        List.getElem?_eq_getElem hle⟩
      rw [hback, load_eq h.holds hle, List.getElem?_eq_getElem hle]

theorem sputbackc_spec (h : s.Refines m t) (c : α) : ∃ s',
    (buf heap).sputbackc s c = some (s', (t.put_back m c).2) ∧
      s'.Refines m (t.put_back m c).1 := by
  have hminus : to_int (-1) = -1 := by decide
  unfold Streambuf.sputbackc Text.put_back
  rw [buf_areas]
  rcases back_cases h with ⟨hbeg, hno⟩ | ⟨r, c', hin, hr, hlt, hne, hback, hload, hget⟩
  · rw [if_pos hbeg, if_neg hno, buf_pbackfail, pbackfail]
    refine ⟨s, ?_, h⟩
    dsimp only
    rw [if_neg (not_not.mpr hbeg)]
  · have hmoved := move_get h hin (Nat.le_of_lt hlt) hback
    rw [if_neg hne, if_pos ⟨hin, by omega⟩, buf_load, hload, hr, Nat.add_sub_cancel, hget]
    show ∃ s', (if c ≠ c' then (buf heap).pbackfail s (some c) else _) = _ ∧ _
    rcases eq_or_ne c c' with rfl | hdiff
    · rw [if_neg (not_not.mpr rfl), if_pos rfl]
      exact ⟨_, rfl, hmoved⟩
    · rw [if_pos hdiff, if_neg (fun heq => hdiff (Option.some.inj heq).symm), buf_pbackfail,
        pbackfail]
      dsimp only
      rw [if_pos hne, hload]
      show ∃ s', (if c = c' ∨ s.m_mode.has ios_out then _ else _) = _ ∧ _
      have hmode := h.mode
      cases hout : m.has ios_out with
      | false =>
        rw [← hmode] at hout
        rw [if_neg (fun heq => heq.elim hdiff fun hyes => by rw [hout] at hyes; cases hyes)]
        exact ⟨s, rfl, h⟩
      | true =>
        rw [← hmode] at hout
        rw [if_pos (.inr hout)]
        obtain ⟨hstore, hholds⟩ := store_lt hmoved.holds hlt c
        refine ⟨_, ?_, change hmoved hholds List.length_set⟩
        have hcur : s.areas.gcur + to_int (-1) = s.areas.gcur - 1 := by
          rw [hminus]
          rfl
        unfold Areas.gbump
        rw [hcur]
        dsimp only at hstore ⊢
        rw [← hback] at hstore
        rw [hstore]
        rfl

theorem sungetc_spec (h : s.Refines m t) : ∃ s',
    (buf heap).sungetc s = some (s', (t.unget m).2) ∧ s'.Refines m (t.unget m).1 := by
  unfold Streambuf.sungetc Text.unget
  rw [buf_areas]
  rcases back_cases h with ⟨hbeg, hno⟩ | ⟨r, c', hin, hr, hlt, hne, hback, hload, hget⟩
  · rw [if_pos hbeg, if_neg hno, buf_pbackfail, pbackfail]
    refine ⟨s, ?_, h⟩
    dsimp only
    rw [if_neg (not_not.mpr hbeg)]
  · rw [if_neg hne, if_pos ⟨hin, by omega⟩, buf_load, hload, hr, Nat.add_sub_cancel, hget]
    exact ⟨_, rfl, move_get h hin (Nat.le_of_lt hlt) hback⟩

/-! The whole string -/

omit [Zero α] [DecidableEq α] in
/-- The areas of an array with the given content. -/
theorem set_areas_refines {cs : List α} (hmode : s.m_mode = m) (hholds : s.Holds cs)
    (hend : s.m_end = s.m_beg + cs.length)
    (hget : m.has ios_in = false → s.areas.gbeg = 0 ∧ s.areas.gcur = 0 ∧ s.areas.gend = 0)
    (hput : m.has ios_out = false → s.areas.pbeg = 0 ∧ s.areas.pcur = 0 ∧ s.areas.pend = 0) :
    s.set_areas.Refines m ⟨cs, 0, 0⟩ := by
  unfold set_areas Areas.setg Areas.setp
  dsimp only
  refine ⟨hmode, with_areas_holds hholds _, Nat.zero_le _, Nat.zero_le _, fun hin => ?_,
    fun hin => ?_, fun hout => ?_, fun hout => ?_⟩
  all_goals dsimp only at *
  · rw [if_pos hin]
    split <;> exact ⟨rfl, (Int.add_zero _).symm, hend⟩
  · rw [hin, if_neg Bool.false_ne_true]
    have := hget (hmode ▸ hin)
    split <;> exact this
  · rw [if_pos hout]
    exact ⟨rfl, (Int.add_zero _).symm, hend⟩
  · rw [hout, if_neg Bool.false_ne_true]
    have := hput (hmode ▸ hout)
    split <;> exact this

omit [Zero α] [DecidableEq α] in
theorem basic_stringbuf_refines (cs : List α) :
    (basic_stringbuf heap cs m).Refines m ⟨cs, 0, 0⟩ :=
  set_areas_refines rfl ⟨heap.address_pos 0, List.prefix_refl _, Int.le_refl _, Int.le_refl _⟩ rfl
    (fun _ => ⟨rfl, rfl, rfl⟩) (fun _ => ⟨rfl, rfl, rfl⟩)

omit [Zero α] [DecidableEq α] in
theorem set_str_refines (h : s.Refines m t) (cs : List α) :
    (s.set_str heap cs).Refines m ⟨cs, 0, 0⟩ := by
  obtain ⟨rfl, -, hpoints⟩ := h
  refine set_areas_refines rfl ⟨heap.address_pos _, ?_, Int.le_refl _, ?_⟩ rfl hpoints.no_get
    hpoints.no_put
  · cases cs with
    | nil => exact List.nil_prefix
    | cons c cs => exact List.prefix_refl _
  · cases cs with
    | nil => exact Int.add_le_add_left (Int.natCast_nonneg _) _
    | cons c cs => exact Int.le_refl _

theorem str_spec (h : s.Refines m t) (hm : m.has ios_in ∨ m.has ios_out) :
    s.str heap = some t.content := by
  have hchars : s.chars heap s.m_beg (s.m_beg + t.content.length) = some t.content := by
    rw [chars, if_neg (by omega), index_eq]
    have hread := read_chars_eq heap h.holds (i := 0) t.content.length (by omega)
    rwa [List.drop_zero, List.take_length, Int.natCast_zero, Int.add_zero] at hread
  have hempty : s.m_beg = s.m_beg + t.content.length → some [] = some t.content := by
    intro heq
    rw [List.length_eq_zero_iff.mp (show t.content.length = 0 by omega)]
  unfold str
  dsimp only
  cases hout : m.has ios_out with
  | true =>
    obtain ⟨hpbeg, -, hpend⟩ := h.points.put (by rw [h.mode, hout])
    rw [hpbeg, hpend]
    split
    next heq =>
      split
      · exact hempty heq
      next hne =>
        cases hin : m.has ios_in with
        | true =>
          obtain ⟨hgbeg, -, hgend⟩ := h.points.get (by rw [h.mode, hin])
          rw [hgbeg, hgend]
          exact hchars
        | false =>
          obtain ⟨hgbeg, -, hgend⟩ := h.points.no_get (by rw [h.mode, hin])
          exact absurd (by rw [hgbeg, hgend]) hne
    · exact hchars
  | false =>
    obtain ⟨hpbeg, -, hpend⟩ := h.points.no_put (by rw [h.mode, hout])
    rw [hout] at hm
    obtain ⟨hgbeg, -, hgend⟩ := h.points.get
      (by rw [h.mode]; exact hm.resolve_right (by intro hf; cases hf))
    rw [hpbeg, hpend, if_pos rfl, hgbeg, hgend]
    split
    next heq => exact hempty heq
    · exact hchars

/-! Seeking -/

theorem which_cases (w : Openmode) :
    (w.has ios_in = false ∧ w.has ios_out = false ∧ w &&& ios_inout = 0) ∨
      (w.has ios_in = true ∧ w.has ios_out = false ∧ w &&& ios_inout = ios_in) ∨
      (w.has ios_in = false ∧ w.has ios_out = true ∧ w &&& ios_inout = ios_out) ∨
      w.has ios_in = true ∧ w.has ios_out = true ∧ w &&& ios_inout = ios_inout := by
  revert w
  decide

omit [Zero α] [DecidableEq α] in
theorem gbump_refines (h : s.Refines m t) (hin : m.has ios_in = true) {p : Nat}
    (hp : p ≤ t.content.length)
    (hnear : -2 ^ 31 ≤ (p : Int) - t.rpos ∧ (p : Int) - t.rpos < 2 ^ 31) :
    Refines m { s with areas := s.areas.gbump (s.m_beg + p - s.areas.gcur) }
      { t with rpos := p } := by
  obtain ⟨-, hcur, -⟩ := h.points.get (by rw [h.mode, hin])
  refine move_get h hin hp (p := s.areas.gcur + to_int (s.m_beg + p - s.areas.gcur)) ?_
  rw [to_int_eq (by omega)]
  omega

omit [Zero α] [DecidableEq α] in
theorem pbump_refines (h : s.Refines m t) (hout : m.has ios_out = true) {p : Nat}
    (hp : p ≤ t.content.length)
    (hnear : -2 ^ 31 ≤ (p : Int) - t.wpos ∧ (p : Int) - t.wpos < 2 ^ 31) :
    Refines m { s with areas := s.areas.pbump (s.m_beg + p - s.areas.pcur) }
      { t with wpos := p } := by
  obtain ⟨-, hcur, -⟩ := h.points.put (by rw [h.mode, hout])
  refine move_put h hout hp (p := s.areas.pcur + to_int (s.m_beg + p - s.areas.pcur)) ?_
  rw [to_int_eq (by omega)]
  omega

omit [Zero α] [DecidableEq α] in
/-- The end of the area that is there. -/
theorem area_end (h : s.Refines m t) (hm : m.has ios_in ∨ m.has ios_out) :
    (if s.m_mode.has ios_out then s.areas.pend else s.areas.gend) =
      s.m_beg + t.content.length := by
  rw [h.mode]
  cases hout : m.has ios_out with
  | true =>
    rw [if_pos rfl]
    exact (h.points.put (by rw [h.mode, hout])).2.2
  | false =>
    rw [hout] at hm
    rw [if_neg Bool.false_ne_true]
    exact (h.points.get (by rw [h.mode]; exact hm.resolve_right Bool.false_ne_true)).2.2

omit [Zero α] [DecidableEq α] in
/-- A pointer into the content and how far it is from the start. -/
theorem pointer_eq {C P Q : Prop} [Decidable C] [Decidable P] [Decidable Q] {np base off : Int}
    {n : Nat} (hnp : np = s.m_beg + base) (hP : P) (hQ : Q)
    (hC : C ↔ ¬ (0 ≤ base + off ∧ base + off ≤ n)) :
    (if C then none else some (np + off)) =
      (if P ∧ Q ∧ 0 ≤ base + off ∧ base + off ≤ n then some (base + off).toNat else none).map
        fun p : Nat => s.m_beg + p := by
  split
  next hno => rw [if_neg fun hyes => hC.mp hno hyes.2.2, Option.map_none]
  next hyes =>
    have hin := not_not.mp fun hno => hyes (hC.mpr hno)
    rw [if_pos ⟨hP, hQ, hin⟩, Option.map_some, hnp, Int.toNat_of_nonneg hin.1, Int.add_assoc]

theorem of_asks {which : Openmode} (h : asks m which = true) :
    (m.has ios_in ∨ m.has ios_out) ∧ (which.has ios_in = true → m.has ios_in = true) ∧
      (which.has ios_out = true → m.has ios_out = true) := by
  unfold asks at h
  grind

omit [Zero α] [DecidableEq α] in
theorem seek_pointer_eq (h : s.Refines m t) {which : Openmode} (hasks : asks m which = true)
    (off : Int) (dir : Seekdir) :
    s.seek_pointer off dir which = (t.target m off dir which).map fun p : Nat => s.m_beg + p := by
  obtain ⟨hm, hget, hput⟩ := of_asks hasks
  have hend := area_end h hm
  unfold seek_pointer Text.target
  dsimp only
  rw [hend]
  cases dir with
  | beg =>
    exact pointer_eq (Int.add_zero _).symm hasks (fun hcur => by cases hcur.1)
      (by dsimp only; omega)
  | «end» =>
    exact pointer_eq rfl hasks (fun hcur => by cases hcur.1)
      (by dsimp only; omega)
  | cur =>
    dsimp only
    rcases which_cases which with ⟨hin, hout, -⟩ | ⟨hin, hout, hw⟩ | ⟨hin, hout, hw⟩ |
      ⟨hin, hout, hw⟩
    · unfold asks at hasks
      rw [hin, hout] at hasks
      cases hasks
    · obtain ⟨-, hcur, -⟩ := h.points.get (by rw [h.mode, hget hin])
      rw [hw, if_neg (by decide), if_pos hin, if_pos hin]
      refine pointer_eq hcur hasks (fun hboth => ?_) (by omega)
      rw [hout] at hboth
      cases hboth.2.2
    · obtain ⟨-, hcur, -⟩ := h.points.put (by rw [h.mode, hput hout])
      rw [hw, if_neg (by decide), hin, if_neg Bool.false_ne_true, if_neg Bool.false_ne_true]
      exact pointer_eq hcur hasks (fun hboth => by cases hboth.2.1) (by omega)
    · rw [hw, if_pos rfl, if_neg fun hyes => hyes.2.1 ⟨rfl, hin, hout⟩, Option.map_none]

omit [Zero α] [DecidableEq α] in
theorem seekoff_not_asked (h : s.Refines m t) {which : Openmode} (hasks : asks m which = false)
    (off : Int) (dir : Seekdir) : s.seekoff off dir which = (s, -1) := by
  unfold Stringbuf.seekoff
  rw [h.mode]
  cases s.seek_pointer off dir which with
  | none => rfl
  | some np =>
    dsimp only
    unfold asks at hasks
    rcases which_cases which with ⟨-, -, hw⟩ | ⟨hin, hout, hw⟩ | ⟨hin, hout, hw⟩ |
      ⟨hin, hout, hw⟩
    · rw [hw, if_neg (by decide), if_neg (by decide), if_neg (by decide)]
    · rw [hin, hout] at hasks
      rw [hw, if_pos rfl, if_neg (by grind)]
    · rw [hin, hout] at hasks
      rw [hw, if_neg (by decide), if_pos rfl, if_neg (by grind)]
    · rw [hin, hout] at hasks
      rw [hw, if_neg (by decide), if_neg (by decide), if_pos rfl]
      rcases which_cases m with ⟨-, -, hm⟩ | ⟨-, -, hm⟩ | ⟨-, -, hm⟩ | ⟨hin', hout', -⟩
      · rw [hm, if_neg fun hyes => absurd hyes.1 (by decide)]
      · rw [hm, if_neg fun hyes => absurd hyes.1 (by decide)]
      · rw [hm, if_neg fun hyes => absurd hyes.1 (by decide)]
      · rw [hin', hout'] at hasks
        cases hasks

omit [Zero α] [DecidableEq α] in
theorem seekoff_spec (h : s.Refines m t) {off : Int} {dir : Seekdir} {which : Openmode}
    (hfits : ∀ p ∈ t.target m off dir which, t.Near which p) : ∃ s',
      s.seekoff off dir which = (s', (t.seekoff m off dir which).2) ∧
        s'.Refines m (t.seekoff m off dir which).1 := by
  obtain rfl := h.mode
  unfold Text.seekoff
  cases hasks : asks s.m_mode which with
  | false =>
    have htarget : t.target s.m_mode off dir which = none := by
      unfold Text.target
      rw [hasks]
      exact if_neg fun hyes => by cases hyes.1
    rw [htarget]
    exact ⟨s, seekoff_not_asked h hasks off dir, h⟩
  | true =>
    have hnp := seek_pointer_eq h hasks off dir
    obtain ⟨-, hget, hput⟩ := of_asks hasks
    have hpos := h.holds.beg_pos
    unfold Stringbuf.seekoff
    rw [hnp]
    cases htarget : t.target s.m_mode off dir which with
    | none => exact ⟨s, rfl, h⟩
    | some p =>
      obtain ⟨hnear_get, hnear_put⟩ := hfits p htarget
      have hle : p ≤ t.content.length := by
        unfold Text.target at htarget
        obtain ⟨hyes, hp⟩ := Option.ite_none_right_eq_some.mp htarget
        cases hp
        exact Int.toNat_le.mpr hyes.2.2.2
      have hpos_eq : s.m_beg + p - s.m_beg = p := by omega
      rw [Option.map_some]
      dsimp only [move]
      rw [hpos_eq]
      rcases which_cases which with ⟨hin, hout, -⟩ | ⟨hin, hout, hw⟩ | ⟨hin, hout, hw⟩ |
        ⟨hin, hout, hw⟩
      · unfold asks at hasks
        rw [hin, hout] at hasks
        cases hasks
      · obtain ⟨-, hcur, -⟩ := h.points.get (hget hin)
        rw [hw, if_pos rfl, if_pos ⟨hget hin, by omega⟩, if_pos hin, hout,
          if_neg Bool.false_ne_true]
        exact ⟨_, rfl, gbump_refines h (hget hin) hle (hnear_get hin)⟩
      · obtain ⟨-, hcur, -⟩ := h.points.put (hput hout)
        rw [hw, if_neg (by decide), if_pos rfl, if_pos ⟨hput hout, by omega⟩, hin,
          if_pos hout, if_neg Bool.false_ne_true]
        exact ⟨_, rfl, pbump_refines h (hput hout) hle (hnear_put hout)⟩
      · obtain ⟨-, hgcur, -⟩ := h.points.get (hget hin)
        obtain ⟨-, hpcur, -⟩ := h.points.put (hput hout)
        have hboth : s.m_mode &&& ios_inout = ios_inout := by
          rcases which_cases s.m_mode with ⟨hno, -, -⟩ | ⟨-, hno, -⟩ | ⟨hno, -, -⟩ | ⟨-, -, hm⟩
          · exact absurd (hget hin) (by rw [hno]; exact Bool.false_ne_true)
          · exact absurd (hput hout) (by rw [hno]; exact Bool.false_ne_true)
          · exact absurd (hget hin) (by rw [hno]; exact Bool.false_ne_true)
          · exact hm
        rw [hw, if_neg (by decide), if_neg (by decide), if_pos rfl,
          if_pos ⟨hboth, by omega, by omega⟩, if_pos hin, if_pos hout]
        have hmoved := gbump_refines h (hget hin) hle (hnear_get hin)
        exact ⟨_, rfl, pbump_refines hmoved (hput hout) hle (hnear_put hout)⟩

theorem has_of_and {w m bit : Openmode} (h : (w &&& m).has bit = true) : m.has bit = true := by
  unfold Openmode.has at *
  rw [decide_eq_true_iff] at *
  intro hno
  exact h (by rw [BitVec.and_assoc, hno]; exact BitVec.and_zero)

omit [Zero α] [DecidableEq α] in
theorem seekpos_spec (h : s.Refines m t) (hm : m.has ios_in ∨ m.has ios_out) {pos : Int}
    {which : Openmode}
    (hfits : 0 ≤ pos → pos ≤ t.content.length → t.Near (which &&& m) pos) : ∃ s',
      s.seekpos pos which = (s', (t.seekpos m pos which).2) ∧
        s'.Refines m (t.seekpos m pos which).1 := by
  have hend := area_end h hm
  obtain rfl := h.mode
  have hand : which &&& ios_inout &&& s.m_mode = which &&& s.m_mode &&& ios_inout := by
    rw [BitVec.and_assoc, BitVec.and_comm ios_inout, BitVec.and_assoc]
  have hget : (which &&& s.m_mode).has ios_in = true → s.m_mode.has ios_in = true := has_of_and
  have hput : (which &&& s.m_mode).has ios_out = true → s.m_mode.has ios_out = true := has_of_and
  unfold Stringbuf.seekpos Text.seekpos
  dsimp only
  rw [hend, hand]
  generalize which &&& s.m_mode = w at *
  split
  next hno =>
    rw [if_neg (by omega)]
    exact ⟨s, rfl, h⟩
  next hyes =>
    obtain ⟨p, rfl⟩ : ∃ p : Nat, pos = p := Int.eq_ofNat_of_zero_le (by omega)
    have hle : p ≤ t.content.length := by omega
    obtain ⟨hnear_get, hnear_put⟩ := hfits (Int.natCast_nonneg p) (Int.ofNat_le.mpr hle)
    have hrange : 0 ≤ (p : Int) ∧ (p : Int) ≤ t.content.length :=
      ⟨Int.natCast_nonneg p, Int.ofNat_le.mpr hle⟩
    unfold move
    rw [Int.toNat_natCast]
    rcases which_cases w with ⟨hin, hout, hw⟩ | ⟨hin, hout, hw⟩ | ⟨hin, hout, hw⟩ |
      ⟨hin, hout, hw⟩
    · rw [hw, if_neg (by decide), if_neg (by decide), if_neg (by decide), if_neg (by grind)]
      exact ⟨s, rfl, h⟩
    · rw [hw, if_pos rfl, if_pos ⟨.inl hin, hrange⟩, if_pos hin, hout, if_neg Bool.false_ne_true]
      exact ⟨_, rfl, gbump_refines h (hget hin) hle (hnear_get hin)⟩
    · rw [hw, if_neg (by decide), if_pos rfl, if_pos ⟨.inr hout, hrange⟩, hin, if_pos hout,
        if_neg Bool.false_ne_true]
      exact ⟨_, rfl, pbump_refines h (hput hout) hle (hnear_put hout)⟩
    · rw [hw, if_neg (by decide), if_neg (by decide), if_pos rfl, if_pos ⟨.inl hin, hrange⟩,
        if_pos hin, if_pos hout]
      have hmoved := gbump_refines h (hget hin) hle (hnear_get hin)
      exact ⟨_, rfl, pbump_refines hmoved (hput hout) hle (hnear_put hout)⟩

/-- One operation, where everything is within the range of `int`. -/
theorem next_spec (h : s.Refines m t) (hm : m.has ios_in ∨ m.has ios_out) {op : BufOp α}
    (hfits : t.Fits m op) {r : BufResult α} {t' : Text α} (hnext : t.next m op = some (r, t')) :
    ∃ s', s.next heap op = some (r, s') ∧ s'.Refines m t' := by
  cases op with
  | sputc c =>
    obtain ⟨hnone, hsome⟩ := sputc_spec heap h hfits c
    rw [Text.next] at hnext
    cases hput : t.put m c with
    | none =>
      rw [hput] at hnext
      cases hnext
      exact ⟨s, by rw [Stringbuf.next, hnone hput]; rfl, h⟩
    | some t₁ =>
      rw [hput] at hnext
      cases hnext
      obtain ⟨s', hsputc, h'⟩ := hsome _ hput
      exact ⟨s', by rw [Stringbuf.next, hsputc]; rfl, h'⟩
  | sputn cs =>
    cases hnext
    obtain ⟨s', hsputn, h', -⟩ := Streambuf.sputn_spec (writes heap) ⟨h, hfits⟩
    exact ⟨s', by rw [Stringbuf.next, hsputn]; rfl, h'⟩
  | sgetc =>
    cases hnext
    exact ⟨s, by rw [Stringbuf.next, sgetc_spec heap h]; rfl, h⟩
  | sbumpc =>
    obtain ⟨hnone, hsome⟩ := sbumpc_spec heap h
    rw [Text.next] at hnext
    cases hget : t.get m with
    | none =>
      rw [hget] at hnext
      cases hnext
      exact ⟨s, by rw [Stringbuf.next, hnone hget]; rfl, h⟩
    | some x =>
      obtain ⟨c, t₁⟩ := x
      rw [hget] at hnext
      cases hnext
      obtain ⟨s', hsbumpc, h'⟩ := hsome _ _ hget
      exact ⟨s', by rw [Stringbuf.next, hsbumpc]; rfl, h'⟩
  | snextc =>
    obtain ⟨hnone, hsome⟩ := snextc_spec heap h
    rw [Text.next] at hnext
    cases hget : t.get m with
    | none =>
      rw [hget] at hnext
      cases hnext
      exact ⟨s, by rw [Stringbuf.next, hnone hget]; rfl, h⟩
    | some x =>
      obtain ⟨c, t₁⟩ := x
      rw [hget] at hnext
      cases hnext
      obtain ⟨s', hsnextc, h'⟩ := hsome _ _ hget
      exact ⟨s', by rw [Stringbuf.next, hsnextc]; rfl, h'⟩
  | sgetn n =>
    cases hnext
    obtain ⟨s', hsgetn, h', -⟩ := Streambuf.sgetn_spec (reads heap) ⟨h, hfits⟩
    exact ⟨s', by rw [Stringbuf.next, hsgetn]; rfl, h'⟩
  | sputbackc c =>
    cases hnext
    obtain ⟨s', hback, h'⟩ := sputbackc_spec heap h c
    exact ⟨s', by rw [Stringbuf.next, hback]; rfl, h'⟩
  | sungetc =>
    cases hnext
    obtain ⟨s', hback, h'⟩ := sungetc_spec heap h
    exact ⟨s', by rw [Stringbuf.next, hback]; rfl, h'⟩
  | set_str cs =>
    cases hnext
    exact ⟨_, rfl, set_str_refines heap h cs⟩
  | str =>
    cases hnext
    exact ⟨s, by rw [Stringbuf.next, str_spec heap h hm]; rfl, h⟩
  | seekoff off dir which =>
    cases hnext
    obtain ⟨s', hseek, h'⟩ := seekoff_spec h hfits
    exact ⟨s', by rw [Stringbuf.next, hseek], h'⟩
  | seekpos pos which =>
    cases hnext
    obtain ⟨s', hseek, h'⟩ := seekpos_spec h hm hfits
    exact ⟨s', by rw [Stringbuf.next, hseek], h'⟩

end

end StringbufLemmas

/-! ## 3. Runs -/

section

open StringbufLemmas

variable {α : Type} [Zero α] [DecidableEq α]

/-- The results are those of the string with two positions, as long as no position has to
move by more than `int` can hold. -/
theorem stringbuf_refines (heap : Allocator α) (cs : List α) (m : Openmode)
    (ops : List (BufOp α)) (hm : m.has ios_in ∨ m.has ios_out)
    (hfits : Along (Text.next m) (Text.Fits m) ⟨cs, 0, 0⟩ ops) : ∃ results t s,
      play (Text.next m) ⟨cs, 0, 0⟩ ops = some (results, t) ∧
        play (Stringbuf.next heap) (Stringbuf.basic_stringbuf heap cs m) ops = some (results, s) ∧
          s.Refines m t := by
  obtain ⟨results, t, hplay⟩ := play_total (Text.next_total (m := m)) ⟨cs, 0, 0⟩ ops
  have keep (t : Text α) (s : Stringbuf α) (op : BufOp α) (r : BufResult α) (t' : Text α)
      (h : s.Refines m t) (hfits : Text.Fits m t op) (hnext : Text.next m t op = some (r, t')) :
      ∃ s', s.next heap op = some (r, s') ∧ s'.Refines m t' :=
    next_spec heap h hm hfits hnext
  obtain ⟨s, hplay', h⟩ := play_follow keep (basic_stringbuf_refines heap cs) hfits hplay
  exact ⟨results, t, s, hplay, hplay', h⟩

theorem ex_address_pos (n : Nat) : (0 : Int) < 1099511627776 * (n + 1) := by
  omega

/-- Arrays that lie far apart. -/
def exHeap : Allocator UInt8 where
  address n := 1099511627776 * (n + 1)
  address_pos := ex_address_pos
  junk := 0

/-- A different character is put back, and the array grows. -/
def exOps : List (BufOp UInt8) :=
  [.sbumpc, .sputbackc 3, .seekoff 0 .end ios_out, .sputc 4, .sgetn 5, .str]

theorem stringbuf_refines_example : ∃ results t, ∃ s : Stringbuf UInt8,
    play (Text.next ios_inout) ⟨[1, 2], 0, 0⟩ exOps = some (results, t) ∧
      play (Stringbuf.next exHeap) (Stringbuf.basic_stringbuf exHeap [1, 2] ios_inout) exOps =
        some (results, s) ∧ s.Refines ios_inout t :=
  stringbuf_refines exHeap [1, 2] ios_inout exOps (by decide) (by decide)

/-- An array of 2 ^ 31 characters with the write pointer at `p`. -/
def far (cs : List UInt8) (p : Int) : Stringbuf UInt8 :=
  ⟨⟨0, 0, 0, 1099511627776, p, 1101659111424⟩, ios_out, 1099511627776, 1101659111424, cs, 1⟩

theorem out_has : ios_out.has ios_out = true ∧ ios_out.has ios_in = false := by decide

theorem far_start {cs : List UInt8} (hlen : cs.length = 2147483648) :
    Stringbuf.basic_stringbuf exHeap cs ios_out = far cs 1099511627776 := by
  unfold Stringbuf.basic_stringbuf Stringbuf.set_areas
  dsimp only
  rw [hlen, out_has.1, out_has.2, if_pos rfl, if_neg Bool.false_ne_true]
  rfl

/-- The pointer is moved the other way. -/
theorem far_end (cs : List UInt8) :
    (far cs 1099511627776).seekoff 0 .end ios_out = (far cs 1097364144128, 2147483648) := by
  unfold Stringbuf.seekoff Stringbuf.seek_pointer far
  dsimp only
  rw [out_has.1, if_pos rfl, if_neg (by decide)]
  dsimp only
  rw [if_neg (by decide), if_pos (by decide), if_pos (by decide)]
  rfl

theorem far_cur (cs : List UInt8) :
    (far cs 1097364144128).seekoff 0 .cur ios_out = (far cs 1097364144128, -1) := by
  unfold Stringbuf.seekoff Stringbuf.seek_pointer far
  dsimp only
  rw [out_has.1, out_has.2, if_pos rfl, if_neg (by decide), if_neg Bool.false_ne_true,
    if_pos (by decide)]

theorem far_target {cs : List UInt8} (hlen : cs.length = 2147483648) {p : Nat} {dir : Seekdir}
    (h : dir = .end ∨ (dir = .cur ∧ p = 2147483648)) :
    Text.target ios_out ⟨cs, 0, p⟩ 0 dir ios_out = some 2147483648 := by
  unfold Text.target
  dsimp only
  rw [hlen]
  rcases h with rfl | ⟨rfl, rfl⟩
  · dsimp only
    exact if_pos (by decide)
  · dsimp only
    rw [out_has.2, if_neg Bool.false_ne_true]
    exact if_pos (by decide)

theorem far_results {cs : List UInt8} (hlen : cs.length = 2147483648) :
    (play (Stringbuf.next exHeap) (Stringbuf.basic_stringbuf exHeap cs ios_out)
        [.seekoff 0 .end ios_out, .seekoff 0 .cur ios_out]).map Prod.fst =
      some [.pos 2147483648, .pos (-1)] ∧
    (play (Text.next ios_out) ⟨cs, 0, 0⟩
        [.seekoff 0 .end ios_out, .seekoff 0 .cur ios_out]).map Prod.fst =
      some [.pos 2147483648, .pos 2147483648] := by
  constructor
  · rw [far_start hlen, play, Stringbuf.next, far_end]
    dsimp only [Option.bind_eq_bind, Option.bind_some]
    rw [play, Stringbuf.next, far_cur]
    rfl
  · have hmove : (⟨cs, 0, 0⟩ : Text UInt8).move ios_out 2147483648 = ⟨cs, 0, 2147483648⟩ := by
      unfold Text.move
      rw [out_has.1, out_has.2, if_pos rfl, if_neg Bool.false_ne_true]
    rw [play, Text.next, Text.seekoff, far_target hlen (.inl rfl)]
    dsimp only [Option.bind_eq_bind, Option.bind_some]
    rw [hmove, play, Text.next, Text.seekoff, far_target hlen (.inr ⟨rfl, rfl⟩)]
    rfl

/-- `pbump(int)` takes the distance 2 ^ 31 for the negative one. -/
theorem not_stringbuf_refines :
    ¬ ∀ (heap : Allocator UInt8) (cs : List UInt8) (m : Openmode) (ops : List (BufOp UInt8)),
      (m.has ios_in ∨ m.has ios_out) →
        (play (Stringbuf.next heap) (Stringbuf.basic_stringbuf heap cs m) ops).map Prod.fst =
          (play (Text.next m) ⟨cs, 0, 0⟩ ops).map Prod.fst := by
  intro hall
  have hsame := hall exHeap (List.replicate 2147483648 0) ios_out
    [.seekoff 0 .end ios_out, .seekoff 0 .cur ios_out] (by decide)
  have hlength : (List.replicate 2147483648 (0 : UInt8)).length = 2147483648 :=
    List.length_replicate
  obtain ⟨hcode, htext⟩ := far_results hlength
  rw [hcode, htext] at hsame
  exact absurd hsame (by decide)

end

end Kuhllib.Cxxrt
