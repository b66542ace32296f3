import Kuhllib.Cxxrt.Stringbuf

/-!
# `strstreambuf`

A dynamic buffer keeps its characters in a block that it replaces by a larger one. The model
keeps the block that was allocated last and the addresses that have been released. An
allocation function and `operator new[]` are the same allocator here.

Results:
1. `CharQueue`: the growing queue.
2. `strstreambuf_refines`: over all runs the results are those of the queue, and the blocks
   are released once.
3. `exposes_iff`: what `pcount` and `str` say of the characters written.
-/

namespace Kuhllib.Cxxrt

open Transition

structure Strstreambuf where
  areas : Areas
  m_chunk_size : Int
  m_allocated : Bool
  m_constant : Bool
  m_dynamic : Bool
  m_frozen : Bool
  block : Int
  cells : List UInt8
  allocated : Nat
  released : List Int

namespace Strstreambuf

def default_chunk_size : Int := 65536

/-- The chunk size for an argument of the constructor. -/
def chunk_for (chunk_size : Int) : Int :=
  if chunk_size = 0 then default_chunk_size else chunk_size

/-- `strstreambuf(chunk_size)`. -/
def strstreambuf (chunk_size : Int) : Strstreambuf where
  areas := .null
  m_chunk_size := chunk_for chunk_size
  m_allocated := false
  m_constant := false
  m_dynamic := true
  m_frozen := false
  block := 0
  cells := []
  allocated := 0
  released := []

variable (heap : Allocator UInt8) (s : Strstreambuf)

def load (p : Int) : Option UInt8 :=
  if s.block ≤ p then s.cells[(p - s.block).toNat]? else none

def store (p : Int) (c : UInt8) : Option Strstreambuf :=
  if s.block ≤ p ∧ p - s.block < s.cells.length then
    some { s with cells := s.cells.set (p - s.block).toNat c }
  else none

/-- The virtual functions of the base class, which give `eof()`. -/
def base : Streambuf Strstreambuf UInt8 where
  areas := areas
  with_areas s a := { s with areas := a }
  load := load
  store := store
  underflow s := some (s, none)
  uflow s := some (s, none)
  pbackfail s _ := some (s, none)
  overflow s _ := some (s, none)

/-- The destructor. -/
def destroy : Strstreambuf :=
  if s.m_allocated ∧ ¬ s.m_frozen then { s with released := s.released ++ [s.areas.gbeg] } else s

def freeze (f : Bool) : Strstreambuf :=
  if s.m_dynamic then { s with m_frozen := f } else s

def str : Strstreambuf × Int :=
  (if s.m_dynamic then { s with m_frozen := true } else s, s.areas.gcur)

def pcount : Int := to_int (s.areas.pcur - s.areas.pbeg)

/-- A new block with the characters of the old one. Without room for them, or for a negative
number of characters, there is none. -/
def grow : Option Strstreambuf :=
  let a := s.areas
  let n := a.pend - a.gbeg
  if n < 0 ∨ s.m_chunk_size < 0 then none
  else do
    let tmp := heap.address s.allocated
    let cs ← base.read_chars s a.gbeg n.toNat
    let del := a.gbeg
    let a := a.setg tmp (tmp + (a.gcur - del)) (tmp + (a.gend - del))
    let a := a.setp (tmp + (a.pcur - del)) (tmp + n + s.m_chunk_size)
    some { s with
      areas := a
      m_allocated := true
      block := tmp
      cells := cs ++ List.replicate s.m_chunk_size.toNat heap.junk
      allocated := s.allocated + 1
      released := if s.m_allocated then s.released ++ [del] else s.released }

/-- The end of `overflow`. -/
def put (c : UInt8) : Option (Strstreambuf × Option UInt8) := do
  let s ← s.store s.areas.pcur c
  some ({ s with areas := s.areas.pbump 1 }, some c)

/-- A blank stands for success without a character. -/
def overflow (c : Option UInt8) : Option (Strstreambuf × Option UInt8) :=
  match c with
  | none => some (s, some 32)
  | some c =>
    if s.areas.pcur = s.areas.pend then
      if s.m_dynamic = false ∨ s.m_frozen then some (s, none)
      else do
        let s ← s.grow heap
        s.put c
    else s.put c

def pbackfail (c : Option UInt8) : Option (Strstreambuf × Option UInt8) :=
  let a := s.areas
  if a.gbeg = a.gcur then some (s, none)
  else
    match c with
    | none => some ({ s with areas := a.gbump (-1) }, some 0)
    | some c => do
      let c' ← s.load (a.gcur - 1)
      if c ≠ c' then
        if s.m_constant then some (s, none)
        else do
          let s ← s.store (a.gcur - 1) c
          some ({ s with areas := s.areas.gbump (-1) }, some c)
      else some ({ s with areas := a.gbump (-1) }, some 0)

/-- Only here the get area reaches the characters that have been written. -/
def underflow : Option (Strstreambuf × Option UInt8) :=
  let a := s.areas
  if a.gcur ≠ a.gend then do
    let c ← s.load a.gcur
    some (s, some c)
  else if a.pcur ≠ 0 ∧ a.gend ≠ a.pcur then do
    let s := { s with areas := a.setg a.gbeg a.gcur a.pcur }
    let c ← s.load s.areas.gcur
    some (s, some c)
  else some (s, none)

/-- `uflow` is not overridden. -/
def buf : Streambuf Strstreambuf UInt8 :=
  let b := { base with
    underflow := underflow
    pbackfail := pbackfail
    overflow := overflow heap }
  { b with uflow := b.base_uflow }

@[simp] theorem buf_areas : (buf heap).areas s = s.areas := rfl
@[simp] theorem buf_with_areas (a : Areas) :
    (buf heap).with_areas s a = { s with areas := a } := rfl
@[simp] theorem buf_load (p : Int) : (buf heap).load s p = s.load p := rfl
@[simp] theorem buf_store (p : Int) (c : UInt8) : (buf heap).store s p c = s.store p c := rfl
@[simp] theorem buf_underflow : (buf heap).underflow s = s.underflow := rfl
@[simp] theorem buf_uflow : (buf heap).uflow s = (buf heap).base_uflow s := rfl
@[simp] theorem buf_pbackfail (c : Option UInt8) : (buf heap).pbackfail s c = s.pbackfail c := rfl
@[simp] theorem buf_overflow (c : Option UInt8) : (buf heap).overflow s c = s.overflow heap c := rfl
@[simp] theorem buf_read_chars (p : Int) (n : Nat) :
    (buf heap).read_chars s p n = base.read_chars s p n := by
  induction n generalizing p with
  | zero => rfl
  | succ n ih =>
    rw [Streambuf.read_chars, Streambuf.read_chars, ih]
    rfl

end Strstreambuf

inductive StrOp
  | sputc (c : UInt8)
  | sputn (cs : List UInt8)
  | sgetc
  | sbumpc
  | snextc
  | sgetn (n : Nat)
  | sungetc
  | sputbackc (c : UInt8)
  | freeze (f : Bool)
  deriving DecidableEq

def Strstreambuf.next (heap : Allocator UInt8) (s : Strstreambuf) :
    StrOp → Option (BufResult UInt8 × Strstreambuf)
  | .sputc c => ((buf heap).sputc s c).map of_char
  | .sputn cs => ((buf heap).sputn s cs).map fun x => (.count x.2, x.1)
  | .sgetc => ((buf heap).sgetc s).map of_char
  | .sbumpc => ((buf heap).sbumpc s).map of_char
  | .snextc => ((buf heap).snextc s).map of_char
  | .sgetn n => ((buf heap).sgetn s n).map fun x => (.chars x.2, x.1)
  | .sungetc => ((buf heap).sungetc s).map of_char
  | .sputbackc c => ((buf heap).sputbackc s c).map of_char
  | .freeze f => some (.done, s.freeze f)

/-! ## 1. The growing queue -/

/-- The characters written, how many of them have been read, and how many there is room for. -/
structure CharQueue where
  written : List UInt8
  read : Nat
  capacity : Nat
  frozen : Bool
  deriving DecidableEq

namespace CharQueue

def empty : CharQueue := ⟨[], 0, 0, false⟩

variable (chunk : Int) (q : CharQueue)

/-- A frozen queue does not grow. -/
def put (c : UInt8) : Option CharQueue :=
  if q.written.length < q.capacity then some { q with written := q.written ++ [c] }
  else if q.frozen then none
  else some { q with written := q.written ++ [c], capacity := q.capacity + chunk.toNat }

def get : Option (UInt8 × CharQueue) :=
  q.written[q.read]?.map fun c => (c, { q with read := q.read + 1 })

/-- The character in front of the read position, if it is the one asked for. -/
def put_back (c : Option UInt8) : CharQueue × Option UInt8 :=
  if 0 < q.read ∧ (c = none ∨ c = q.written[q.read - 1]?) then
    ({ q with read := q.read - 1 }, q.written[q.read - 1]?)
  else (q, none)

def next : StrOp → Option (BufResult UInt8 × CharQueue)
  | .sputc c =>
    match q.put chunk c with
    | none => some (.char none, q)
    | some q' => some (.char (some c), q')
  | .sputn cs => some (.count (puts (put chunk) q cs).2, (puts (put chunk) q cs).1)
  | .sgetc => some (.char (q.get.map Prod.fst), q)
  | .sbumpc =>
    match q.get with
    | none => some (.char none, q)
    | some (c, q') => some (.char (some c), q')
  | .snextc =>
    match q.get with
    | none => some (.char none, q)
    | some (_, q') => some (.char (q'.get.map Prod.fst), q')
  | .sgetn n => some (.chars (nexts get n q).1, (nexts get n q).2)
  | .sungetc => some (of_char (q.put_back none))
  | .sputbackc c => some (of_char (q.put_back (some c)))
  | .freeze f => some (.done, { q with frozen := f })

/-- The character put back is the one just read. -/
def JustRead : StrOp → Prop
  | .sputbackc c => 0 < q.read → q.written[q.read - 1]? = some c
  | _ => True

/-- The blocks of characters in which `n` more are written are shorter than 2 ^ 31, and there
is a chunk to grow by where that is needed. -/
def Room (n : Nat) : Prop :=
  min n (q.capacity - q.written.length) < 2 ^ 31 ∧
    (q.frozen = false → q.capacity - q.written.length < n →
      0 < chunk ∧ min (n - (q.capacity - q.written.length) - 1) (chunk.toNat - 1) < 2 ^ 31)

instance (n : Nat) : Decidable (q.Room chunk n) :=
  inferInstanceAs (Decidable (_ ∧ (_ → _ → _ ∧ _)))

def Fits : StrOp → Prop
  | .sputc _ => q.Room chunk 1
  | .sputn cs => q.Room chunk cs.length
  | .sgetn n => min n (q.written.length - q.read) < 2 ^ 31
  | op => q.JustRead op

instance : ∀ op, Decidable (q.Fits chunk op)
  | .sputc _ | .sputn _ => inferInstanceAs (Decidable (q.Room chunk _))
  | .sgetn _ => inferInstanceAs (Decidable (_ < _))
  | .sputbackc _ => inferInstanceAs (Decidable (_ → _))
  | .sgetc | .sbumpc | .snextc | .sungetc | .freeze _ => inferInstanceAs (Decidable True)

variable {chunk q}

theorem Room.mono {m n : Nat} (h : q.Room chunk n) (hle : m ≤ n) : q.Room chunk m := by
  obtain ⟨harea, hgrow⟩ := h
  refine ⟨by omega, fun hfrozen hlt => ?_⟩
  obtain ⟨hchunk, hblocks⟩ := hgrow hfrozen (by omega)
  exact ⟨hchunk, by omega⟩

theorem Room.written {n : Nat} (h : q.Room chunk n) {cs : List UInt8}
    (hfit : q.written.length + cs.length ≤ q.capacity) :
    { q with written := q.written ++ cs }.Room chunk (n - cs.length) := by
  obtain ⟨harea, hgrow⟩ := h
  have hlen : (q.written ++ cs).length = q.written.length + cs.length := List.length_append
  refine ⟨by dsimp only; omega, fun hfrozen hlt => ?_⟩
  dsimp only at hlt ⊢
  obtain ⟨hchunk, hblocks⟩ := hgrow hfrozen (by omega)
  exact ⟨hchunk, by omega⟩

/-- The chunk a full queue grows by has room for the characters after the first one. -/
theorem Room.grown {n : Nat} (h : q.Room chunk (n + 1)) (hfull : q.written.length = q.capacity)
    {c : UInt8} {q' : CharQueue} (hput : q.put chunk c = some q') : q'.Room chunk n := by
  obtain ⟨harea, hgrow⟩ := h
  rw [put, if_neg (by omega)] at hput
  split at hput
  · cases hput
  next hfrozen =>
    cases hput
    obtain ⟨hchunk, hblocks⟩ := hgrow (Bool.eq_false_iff.mpr hfrozen) (by omega)
    have hlen : (q.written ++ [c]).length = q.written.length + 1 := by
      rw [List.length_append, List.length_singleton]
    refine ⟨by dsimp only; omega, fun _ hlt => ⟨hchunk, ?_⟩⟩
    dsimp only at hlt ⊢
    omega

variable (chunk q)

theorem next_total (op : StrOp) : ∃ r q', q.next chunk op = some (r, q') := by
  cases op with
  | sputc c =>
    rw [next]
    split <;> exact ⟨_, _, rfl⟩
  | sbumpc =>
    rw [next]
    split <;> exact ⟨_, _, rfl⟩
  | snextc =>
    rw [next]
    split <;> exact ⟨_, _, rfl⟩
  | _ => exact ⟨_, _, rfl⟩

end CharQueue

/-! ## How the pointers stand for it -/

namespace Strstreambuf

/-- The end of the get area lags behind the write position. -/
structure Points (s : Strstreambuf) (q : CharQueue) : Prop where
  read_le : q.read ≤ q.written.length
  begins : q.written <+: s.cells
  room : s.cells.length = q.capacity
  get : s.areas.gbeg = s.block ∧ s.areas.gcur = s.block + q.read
  lag : ∃ g : Nat, q.read ≤ g ∧ g ≤ q.written.length ∧ s.areas.gend = s.block + g
  put : s.areas.pcur = s.block + q.written.length ∧ s.areas.pend = s.block + q.capacity

/-- All blocks but the last one have been released. The put area begins where the last growth
found the write position. -/
structure Owns (heap : Allocator UInt8) (chunk : Int) (s : Strstreambuf) (q : CharQueue) :
    Prop where
  block : s.block = if s.allocated = 0 then 0 else heap.address (s.allocated - 1)
  flag : s.m_allocated = decide (s.allocated ≠ 0)
  released : s.released = (List.range (s.allocated - 1)).map heap.address
  capacity : q.capacity = s.allocated * chunk.toNat
  pbeg : s.areas.pbeg = s.block + ((s.allocated - 1) * chunk.toNat : Nat)
  filled : s.allocated ≠ 0 → (s.allocated - 1) * chunk.toNat < q.written.length

structure Refines (heap : Allocator UInt8) (chunk : Int) (s : Strstreambuf) (q : CharQueue) :
    Prop where
  flags : s.m_chunk_size = chunk ∧ s.m_dynamic = true ∧ s.m_constant = false ∧
    s.m_frozen = q.frozen
  points : s.Points q
  owns : s.Owns heap chunk q

end Strstreambuf

namespace StrstreambufLemmas

open Strstreambuf StringbufLemmas

variable {heap : Allocator UInt8} {chunk : Int} {s : Strstreambuf} {q : CharQueue}

theorem load_eq (h : s.Points q) {k : Nat} (hk : k < q.written.length) :
    s.load (s.block + k) = q.written[k]? := by
  obtain ⟨spare, hspare⟩ := h.begins
  rw [load, if_pos (by omega), index_eq, ← hspare, List.getElem?_append_left hk]

theorem block_pos (h : s.Points q) (ho : s.Owns heap chunk q) (hw : q.written ≠ []) :
    0 < s.block := by
  have hlen := List.length_pos_iff.mpr hw
  have hle := h.begins.length_le
  have hallocated : s.allocated ≠ 0 := by
    intro h0
    have hcapacity := ho.capacity
    rw [h0, Nat.zero_mul] at hcapacity
    rw [h.room, hcapacity] at hle
    omega
  rw [ho.block, if_neg hallocated]
  exact heap.address_pos _

/-! Reading -/

/-- The pointers of the get area are moved over characters that have been written. -/
theorem move_get (h : s.Refines heap chunk q) {r g : Nat} (hrg : r ≤ g)
    (hgw : g ≤ q.written.length) {cur fin : Int} (hcur : cur = s.block + r)
    (hfin : fin = s.block + g) :
    Refines heap chunk { s with areas := { s.areas with gcur := cur, gend := fin } }
      { q with read := r } :=
  ⟨h.flags, ⟨hrg.trans hgw, h.points.begins, h.points.room, ⟨h.points.get.1, hcur⟩,
    ⟨g, hrg, hgw, hfin⟩, h.points.put⟩,
    ⟨h.owns.block, h.owns.flag, h.owns.released, h.owns.capacity, h.owns.pbeg, h.owns.filled⟩⟩

theorem get_of_lt (hlt : q.read < q.written.length) :
    q.get = some (q.written[q.read], { q with read := q.read + 1 }) := by
  rw [CharQueue.get, List.getElem?_eq_getElem hlt, Option.map_some]

theorem get_of_ge (hge : q.written.length ≤ q.read) : q.get = none := by
  rw [CharQueue.get, List.getElem?_eq_none hge, Option.map_none]

/-- The next character is in the get area, or the get area is used up. -/
theorem get_cases (h : s.Refines heap chunk q) :
    (s.areas.gcur = s.areas.gend ∧ s.areas.gend = s.block + q.read) ∨
      ∃ c, s.load s.areas.gcur = some c ∧
        q.get = some (c, { q with read := q.read + 1 }) ∧
          ∃ g : Nat, q.read < g ∧ g ≤ q.written.length ∧ s.areas.gend = s.block + g := by
  obtain ⟨-, hcur⟩ := h.points.get
  obtain ⟨g, hrg, hgw, hend⟩ := h.points.lag
  rcases Nat.lt_or_eq_of_le hrg with hlt | rfl
  · right
    have hread : q.read < q.written.length := hlt.trans_le hgw
    refine ⟨q.written[q.read], ?_, get_of_lt hread, g, hlt, hgw, hend⟩
    rw [hcur, load_eq h.points hread, List.getElem?_eq_getElem hread]
  · exact .inl ⟨by rw [hcur, hend], hend⟩

/-- After `underflow` the next character is in the get area, if there is one. -/
theorem underflow_spec (h : s.Refines heap chunk q) (hused : s.areas.gcur = s.areas.gend) :
    ∃ s', s.underflow = some (s', q.get.map Prod.fst) ∧ s'.Refines heap chunk q ∧
      (q.get.isSome → s'.areas.gcur ≠ s'.areas.gend) := by
  obtain ⟨hgbeg, hcur⟩ := h.points.get
  obtain ⟨hpcur, -⟩ := h.points.put
  unfold underflow
  dsimp only
  rw [if_neg (not_not.mpr hused)]
  rcases Nat.lt_or_eq_of_le h.points.read_le with hlt | heq
  · have hpos := block_pos h.points h.owns (List.length_pos_iff.mp (by omega))
    have hload : s.load s.areas.gcur = some q.written[q.read] := by
      rw [hcur, load_eq h.points hlt, List.getElem?_eq_getElem hlt]
    refine ⟨_, ?_, move_get h hlt.le (Nat.le_refl _) hcur hpcur, fun _ => ?_⟩
    · rw [if_pos ⟨by omega, by omega⟩, get_of_lt hlt]
      show Option.bind (s.load s.areas.gcur) _ = _
      rw [hload]
      rfl
    · dsimp only
      omega
  · refine ⟨s, ?_, h, fun hsome => ?_⟩
    · rw [if_neg (fun hno => by omega), get_of_ge heq.ge]
      rfl
    · rw [get_of_ge heq.ge] at hsome
      cases hsome

variable (heap)

theorem sgetc_spec (h : s.Refines heap chunk q) : ∃ s',
    (buf heap).sgetc s = some (s', q.get.map Prod.fst) ∧ s'.Refines heap chunk q := by
  obtain ⟨-, hcur⟩ := h.points.get
  rw [Streambuf.sgetc, buf_areas, buf_underflow, buf_load]
  rcases get_cases h with ⟨hused, -⟩ | ⟨c, hload, hget, g, hlt, -, hend⟩
  · obtain ⟨s', hunderflow, h', -⟩ := underflow_spec h hused
    rw [if_pos hused.symm]
    exact ⟨s', hunderflow, h'⟩
  · rw [if_neg (by omega), hload, hget]
    exact ⟨s, rfl, h⟩

/-- Past characters of the get area. -/
theorem bump_refines (h : s.Refines heap chunk q) {k : Nat}
    (hle : s.areas.gcur + k ≤ s.areas.gend) {p : Int} (hp : p = s.areas.gcur + k) :
    Refines heap chunk { s with areas := { s.areas with gcur := p } }
      { q with read := q.read + k } := by
  obtain ⟨-, hcur⟩ := h.points.get
  obtain ⟨g, -, hgw, hend⟩ := h.points.lag
  exact move_get h (by omega) hgw (by omega) hend

theorem sbumpc_spec (h : s.Refines heap chunk q) :
    (q.get = none → ∃ s', (buf heap).sbumpc s = some (s', none) ∧ s'.Refines heap chunk q) ∧
    ∀ c q', q.get = some (c, q') → ∃ s', (buf heap).sbumpc s = some (s', some c) ∧
      s'.Refines heap chunk q' := by
  obtain ⟨-, hcur⟩ := h.points.get
  rw [Streambuf.sbumpc, buf_areas, buf_load, buf_uflow, Streambuf.base_uflow, buf_underflow]
  rcases get_cases h with ⟨hused, -⟩ | ⟨c, hload, hget, g, hlt, -, hend⟩
  · obtain ⟨s', hunderflow, h', hne⟩ := underflow_spec h hused
    rw [if_neg (not_not.mpr hused), hunderflow]
    refine ⟨fun hnone => ?_, fun c q' hsome => ?_⟩
    · rw [hnone]
      exact ⟨s', rfl, h'⟩
    · -- the character that `underflow` has made readable
      rcases get_cases h' with ⟨hused', -⟩ | ⟨c', hload, hget, g, hlt, -, hend⟩
      · exact absurd hused' (hne (by rw [hsome]; rfl))
      · obtain ⟨-, hcur'⟩ := h'.points.get
        rw [hget] at hsome
        cases hsome
        refine ⟨_, ?_, bump_refines heap h' (k := 1) (by omega) rfl⟩
        rw [hget, Option.bind_eq_bind, Option.bind_some]
        show Option.bind (s'.load s'.areas.gcur) _ = _
        rw [hload]
        rfl
  · rw [hget]
    refine ⟨fun hnone => absurd hnone (Option.some_ne_none _), fun c' q' hsome => ?_⟩
    cases hsome
    rw [if_pos (by omega), hload]
    exact ⟨_, rfl, bump_refines heap h (k := 1) (by omega) rfl⟩

theorem snextc_spec (h : s.Refines heap chunk q) :
    (q.get = none → ∃ s', (buf heap).snextc s = some (s', none) ∧ s'.Refines heap chunk q) ∧
    ∀ c q', q.get = some (c, q') → ∃ s',
      (buf heap).snextc s = some (s', q'.get.map Prod.fst) ∧ s'.Refines heap chunk q' := by
  obtain ⟨hnone, hsome⟩ := sbumpc_spec heap h
  obtain ⟨-, hcur⟩ := h.points.get
  unfold Streambuf.snextc
  rw [buf_areas, buf_with_areas]
  rcases get_cases h with ⟨hused, -⟩ | ⟨c, hload, hget, g, hlt, -, hend⟩
  · rw [if_pos (by omega)]
    refine ⟨fun hget => ?_, fun c q' hget => ?_⟩
    · obtain ⟨s', hsbumpc, h'⟩ := hnone hget
      rw [hsbumpc]
      exact ⟨s', rfl, h'⟩
    · obtain ⟨s', hsbumpc, h'⟩ := hsome c q' hget
      obtain ⟨s'', hsgetc, h''⟩ := sgetc_spec heap h'
      rw [hsbumpc]
      exact ⟨s'', hsgetc, h''⟩
  · rw [hget, if_neg (by omega)]
    refine ⟨fun hnone => absurd hnone (Option.some_ne_none _), fun c' q' hsome => ?_⟩
    cases hsome
    generalize hs' : ({ s with areas := s.areas.gbump 1 } : Strstreambuf) = s'
    have hmoved : s'.Refines heap chunk { q with read := q.read + 1 } :=
      hs' ▸ bump_refines heap h (k := 1) (p := s.areas.gcur + to_int 1) (by omega) rfl
    split
    · exact sgetc_spec heap hmoved
    next hmore =>
      -- more than one character: the pointer is not at the end
      rcases get_cases hmoved with ⟨-, hend'⟩ | ⟨c', hload', hget', -⟩
      · subst hs'
        change s.areas.gend = s.block + (q.read + 1 : Nat) at hend'
        omega
      · rw [hget']
        refine ⟨s', ?_, hmoved⟩
        show Option.bind (s'.load s'.areas.gcur) _ = _
        rw [hload']
        rfl

omit heap in
theorem nexts_get (k : Nat) (q : CharQueue) (hk : q.read + k ≤ q.written.length) :
    nexts CharQueue.get k q =
      ((q.written.drop q.read).take k, { q with read := q.read + k }) := by
  induction k generalizing q with
  | zero => rfl
  | succ k ih =>
    have hlt : q.read < q.written.length := by omega
    rw [nexts, get_of_lt hlt]
    dsimp only
    rw [ih _ (by dsimp only; omega), List.drop_eq_getElem_cons hlt, List.take_succ_cons]
    dsimp only
    rw [Nat.add_assoc, Nat.add_comm 1 k]

omit heap in
theorem read_chars_eq {i : Nat} (k : Nat) (hk : i + k ≤ s.cells.length) :
    base.read_chars s (s.block + i) k = some ((s.cells.drop i).take k) := by
  induction k generalizing i with
  | zero => rfl
  | succ k ih =>
    have hi : i < s.cells.length := by omega
    have hload : s.load (s.block + i) = some s.cells[i] := by
      rw [load, if_pos (by omega), index_eq, List.getElem?_eq_getElem hi]
    have hrest := ih (i := i + 1) (by omega)
    rw [next_address] at hrest
    rw [Streambuf.read_chars, show base.load s (s.block + i) = _ from hload,
      List.drop_eq_getElem_cons hi, List.take_succ_cons, Option.bind_eq_bind, Option.bind_some,
      hrest]
    rfl

omit heap in
theorem read_written (h : s.Points q) {i k : Nat} (hk : i + k ≤ q.written.length) :
    base.read_chars s (s.block + i) k = some ((q.written.drop i).take k) := by
  have hle := h.begins.length_le
  obtain ⟨spare, hspare⟩ := h.begins
  rw [read_chars_eq k (by omega), ← hspare, List.drop_append_of_le_length (by omega),
    List.take_append_of_le_length (by rw [List.length_drop]; omega)]

theorem reads : (buf heap).Reads
    (fun n s q => s.Refines heap chunk q ∧ min n (q.written.length - q.read) < 2 ^ 31)
    CharQueue.get := by
  refine ⟨fun n s q h => ⟨h.1, by have := h.2; omega⟩, fun n s q h hne => ?_,
    fun n s q h heq => ?_⟩
  · obtain ⟨h, hfits⟩ := h
    obtain ⟨-, hcur⟩ := h.points.get
    rw [buf_areas] at hne ⊢
    rcases get_cases h with ⟨hused, -⟩ | ⟨c, -, -, g, hlt, hgw, hend⟩
    · exact absurd hused hne
    · refine ⟨by omega, fun k hpos hk hle => ?_⟩
      have hread : q.read + k ≤ q.written.length := by omega
      refine ⟨_, _, by rw [buf_read_chars, hcur, read_written h.points hread], nexts_get k q hread, ?_,
        bump_refines heap h hle (p := s.areas.gcur + to_int k) (by rw [to_int_eq (by omega)]), ?_⟩
      · rw [List.length_take, List.length_drop]
        omega
      · dsimp only
        omega
  · obtain ⟨h, hfits⟩ := h
    obtain ⟨hnone, hsome⟩ := sbumpc_spec heap h
    refine ⟨fun hget => ?_, fun c q' hget => ?_⟩
    · obtain ⟨s', hsbumpc, h'⟩ := hnone hget
      exact ⟨s', hsbumpc, h', by omega⟩
    · obtain ⟨s', hsbumpc, h'⟩ := hsome c q' hget
      obtain ⟨x, -, hx⟩ := Option.map_eq_some_iff.mp hget
      cases hx
      exact ⟨s', hsbumpc, h', by dsimp only; omega⟩

/-- Back to the character in front. -/
theorem back_refines (h : s.Refines heap chunk q) (hpos : 0 < q.read) :
    Refines heap chunk { s with areas := { s.areas with gcur := s.areas.gcur - 1 } }
      { q with read := q.read - 1 } := by
  obtain ⟨-, hcur⟩ := h.points.get
  obtain ⟨g, hrg, hgw, hend⟩ := h.points.lag
  exact move_get h (by omega) hgw (by omega) hend

/-- The character in front of the read position. -/
theorem load_back (h : s.Refines heap chunk q) (hpos : 0 < q.read) : ∃ c,
    s.load (s.areas.gcur - 1) = some c ∧ q.written[q.read - 1]? = some c := by
  obtain ⟨-, hcur⟩ := h.points.get
  have hlt : q.read - 1 < q.written.length := by
    have := h.points.read_le
    omega
  refine ⟨q.written[q.read - 1], ?_, List.getElem?_eq_getElem hlt⟩
  rw [show s.areas.gcur - 1 = s.block + (q.read - 1 : Nat) by omega, load_eq h.points hlt,
    List.getElem?_eq_getElem hlt]

theorem pbackfail_start (h : s.areas.gbeg = s.areas.gcur) (c : Option UInt8) :
    s.pbackfail c = some (s, none) :=
  if_pos h

theorem sungetc_spec (h : s.Refines heap chunk q) : ∃ s',
    (buf heap).sungetc s = some (s', (q.put_back none).2) ∧
      s'.Refines heap chunk (q.put_back none).1 := by
  obtain ⟨hgbeg, hcur⟩ := h.points.get
  rw [Streambuf.sungetc, buf_areas, buf_pbackfail, buf_load, CharQueue.put_back]
  rcases Nat.eq_zero_or_pos q.read with h0 | hpos
  · have hstart : s.areas.gbeg = s.areas.gcur := by omega
    rw [if_pos hstart, if_neg (fun hno => by omega)]
    exact ⟨s, pbackfail_start hstart none, h⟩
  · obtain ⟨c, hload, hc⟩ := load_back heap h hpos
    rw [if_neg (by omega), hload, if_pos ⟨hpos, .inl rfl⟩, hc]
    exact ⟨_, rfl, back_refines heap h hpos⟩

theorem sputbackc_spec (h : s.Refines heap chunk q) {c : UInt8}
    (hc : 0 < q.read → q.written[q.read - 1]? = some c) : ∃ s',
      (buf heap).sputbackc s c = some (s', (q.put_back (some c)).2) ∧
        s'.Refines heap chunk (q.put_back (some c)).1 := by
  obtain ⟨hgbeg, hcur⟩ := h.points.get
  rw [Streambuf.sputbackc, buf_areas, buf_pbackfail, buf_load, CharQueue.put_back]
  rcases Nat.eq_zero_or_pos q.read with h0 | hpos
  · have hstart : s.areas.gbeg = s.areas.gcur := by omega
    rw [if_pos hstart, if_neg (fun hno => by omega)]
    exact ⟨s, pbackfail_start hstart (some c), h⟩
  · obtain ⟨c', hload, hc'⟩ := load_back heap h hpos
    obtain rfl : c = c' := Option.some.inj ((hc hpos).symm.trans hc')
    rw [if_neg (by omega), hload, if_pos ⟨hpos, .inr hc'.symm⟩, hc', Option.bind_eq_bind,
      Option.bind_some, if_neg (not_not.mpr rfl)]
    exact ⟨_, rfl, back_refines heap h hpos⟩

/-! Writing -/

theorem prefix_set {a l : List UInt8} (h : a <+: l) (hlt : a.length < l.length) (c : UInt8) :
    a ++ [c] <+: l.set a.length c := by
  obtain ⟨spare, rfl⟩ := h
  cases spare with
  | nil =>
    rw [List.append_nil] at hlt
    exact absurd hlt (lt_irrefl _)
  | cons x spare =>
    rw [List.set_append_right _ _ (Nat.le_refl _), Nat.sub_self, List.set_cons_zero]
    exact ⟨spare, by rw [List.append_assoc]; rfl⟩

omit heap in
/-- The cell behind the characters written. -/
theorem store_end (h : s.Points q) (hroom : q.written.length < q.capacity) (c : UInt8) :
    s.store (s.block + q.written.length) c =
      some { s with cells := s.cells.set q.written.length c } := by
  have hlen := h.room
  rw [store, if_pos (by omega), index_eq]

/-- More characters never make the last block too large. -/
theorem owns_written (h : s.Owns heap chunk q) (cs : List UInt8) :
    s.Owns heap chunk { q with written := q.written ++ cs } :=
  ⟨h.block, h.flag, h.released, h.capacity, h.pbeg, fun hne =>
    (h.filled hne).trans_le (by rw [List.length_append]; exact Nat.le_add_right _ _)⟩

omit heap in
/-- The characters behind those written, and the write pointer behind them. -/
theorem points_written (h : s.Points q) {cs cells : List UInt8} {p : Int}
    (hbegins : q.written ++ cs <+: cells) (hroom : cells.length = q.capacity)
    (hp : p = s.areas.pcur + cs.length) :
    Points { s with cells := cells, areas := { s.areas with pcur := p } }
      { q with written := q.written ++ cs } := by
  obtain ⟨g, hrg, hgw, hend⟩ := h.lag
  obtain ⟨hcur, hend'⟩ := h.put
  have hlen : (q.written ++ cs).length = q.written.length + cs.length := List.length_append
  refine ⟨?_, hbegins, hroom, h.get, ⟨g, hrg, ?_, hend⟩, ?_, hend'⟩
  · exact h.read_le.trans (by rw [hlen]; exact Nat.le_add_right _ _)
  · exact hgw.trans (by rw [hlen]; exact Nat.le_add_right _ _)
  · dsimp only
    rw [hp, hcur, hlen]
    omega

/-- The areas of `put` are those of an owner of one more character. -/
theorem put_spec (hflags : s.m_chunk_size = chunk ∧ s.m_dynamic = true ∧ s.m_constant = false ∧
      s.m_frozen = q.frozen) (h : s.Points q) {c : UInt8}
    (ho : s.Owns heap chunk { q with written := q.written ++ [c] })
    (hroom : q.written.length < q.capacity) : ∃ s',
      s.put c = some (s', some c) ∧
        s'.Refines heap chunk { q with written := q.written ++ [c] } := by
  have hlt : q.written.length < s.cells.length := by
    rw [h.room]
    exact hroom
  have hpoints := points_written h (prefix_set h.begins hlt c) (by rw [List.length_set, h.room])
    (p := s.areas.pcur + to_int 1) rfl
  refine ⟨{ s with
    areas := s.areas.pbump 1
    cells := s.cells.set q.written.length c }, ?_, hflags, hpoints,
    ⟨ho.block, ho.flag, ho.released, ho.capacity, ho.pbeg, ho.filled⟩⟩
  rw [Strstreambuf.put, h.put.1, store_end h hroom]
  rfl

/-- A full buffer moves to a new block, and the old one is released. -/
theorem grow_spec (h : s.Refines heap chunk q) (hchunk : 0 < chunk)
    (hfull : q.written.length = q.capacity) (c : UInt8) : ∃ s',
      s.grow heap = some s' ∧
        (s'.m_chunk_size = chunk ∧ s'.m_dynamic = true ∧ s'.m_constant = false ∧
          s'.m_frozen = q.frozen) ∧
        s'.Points { q with capacity := q.capacity + chunk.toNat } ∧
        s'.Owns heap chunk
          { q with written := q.written ++ [c], capacity := q.capacity + chunk.toNat } := by
  obtain ⟨hgbeg, hgcur⟩ := h.points.get
  obtain ⟨g, hrg, hgw, hgend⟩ := h.points.lag
  obtain ⟨hpcur, hpend⟩ := h.points.put
  have hn : (s.areas.pend - s.areas.gbeg).toNat = s.cells.length := by
    rw [h.points.room]
    omega
  have hsize := h.flags.1
  have hread : base.read_chars s s.areas.gbeg (s.areas.pend - s.areas.gbeg).toNat =
      some s.cells := by
    have hall := read_chars_eq (s := s) (i := 0) s.cells.length (by omega)
    rw [List.drop_zero, List.take_length] at hall
    rw [hn, hgbeg]
    rwa [Nat.cast_zero, Int.add_zero] at hall
  unfold grow
  dsimp only
  rw [if_neg (by omega), hread]
  refine ⟨_, rfl, h.flags, ⟨h.points.read_le, ?_, ?_, ⟨rfl, ?_⟩, ⟨g, hrg, hgw, ?_⟩, ?_, ?_⟩,
    ⟨(if_neg (Nat.succ_ne_zero _)).symm, (decide_eq_true (Nat.succ_ne_zero _)).symm, ?_, ?_, ?_,
      fun _ => ?_⟩⟩
  · exact h.points.begins.trans (List.prefix_append _ _)
  · rw [List.length_append, List.length_replicate, h.points.room, hsize]
  · show heap.address s.allocated + (s.areas.gcur - s.areas.gbeg) =
      heap.address s.allocated + q.read
    omega
  · show heap.address s.allocated + (s.areas.gend - s.areas.gbeg) = heap.address s.allocated + g
    omega
  · show heap.address s.allocated + (s.areas.pcur - s.areas.gbeg) =
      heap.address s.allocated + q.written.length
    omega
  · show heap.address s.allocated + (s.areas.pend - s.areas.gbeg) + s.m_chunk_size =
      heap.address s.allocated + (q.capacity + chunk.toNat : Nat)
    omega
  · show (if s.m_allocated = true then s.released ++ [s.areas.gbeg] else s.released) = _
    rw [h.owns.flag, h.owns.released, hgbeg, h.owns.block, Nat.add_sub_cancel]
    cases s.allocated with
    | zero => rfl
    | succ k =>
      rw [if_pos (decide_eq_true (Nat.succ_ne_zero k)), if_neg (Nat.succ_ne_zero k),
        Nat.add_sub_cancel, List.range_succ, List.map_append]
      rfl
  · show q.capacity + chunk.toNat = (s.allocated + 1) * chunk.toNat
    rw [h.owns.capacity, Nat.succ_mul]
  · show heap.address s.allocated + (s.areas.pcur - s.areas.gbeg) =
      heap.address s.allocated + ((s.allocated + 1 - 1) * chunk.toNat : Nat)
    have hcapacity := h.owns.capacity
    rw [Nat.add_sub_cancel, ← hcapacity, ← hfull]
    omega
  · show (s.allocated + 1 - 1) * chunk.toNat < (q.written ++ [c]).length
    rw [Nat.add_sub_cancel, ← h.owns.capacity, ← hfull, List.length_append]
    exact Nat.lt_succ_self _

theorem sputc_spec (h : s.Refines heap chunk q) (hfits : q.Room chunk 1) (c : UInt8) :
    (q.put chunk c = none → (buf heap).sputc s c = some (s, none)) ∧
    ∀ q', q.put chunk c = some q' → ∃ s', (buf heap).sputc s c = some (s', some c) ∧
      s'.Refines heap chunk q' := by
  have hle : q.written.length ≤ q.capacity := h.points.begins.length_le.trans_eq h.points.room
  obtain ⟨hpcur, hpend⟩ := h.points.put
  rw [Streambuf.sputc, buf_areas, buf_overflow, buf_store, CharQueue.put]
  split
  next hroom =>
    obtain ⟨s', hput, h'⟩ :=
      put_spec heap h.flags h.points (owns_written heap h.owns [c]) hroom
    refine ⟨fun hnone => absurd hnone (Option.some_ne_none _), fun q' hq' => ?_⟩
    cases hq'
    have hstore : s.store s.areas.pcur c =
        some { s with cells := s.cells.set q.written.length c } := by
      rw [hpcur, store_end h.points hroom]
    rw [Strstreambuf.put, hstore] at hput
    rw [if_neg (by omega), hstore]
    exact ⟨s', hput, h'⟩
  next hfull =>
    have hend : s.areas.pcur = s.areas.pend := by omega
    rw [if_pos hend, Strstreambuf.overflow, if_pos hend, h.flags.2.1, h.flags.2.2.2]
    cases hfrozen : q.frozen with
    | true =>
      refine ⟨fun _ => if_pos (.inr rfl), fun q' hq' => ?_⟩
      cases hq'
    | false =>
      obtain ⟨hchunk, -⟩ := hfits.2 hfrozen (by omega)
      obtain ⟨s₁, hgrow, hflags, hpoints, howns⟩ := grow_spec heap h hchunk (by omega) c
      obtain ⟨s', hput, h'⟩ := put_spec heap
        (q := { q with capacity := q.capacity + chunk.toNat }) hflags hpoints howns
        (by dsimp only; omega)
      refine ⟨fun hnone => absurd hnone (Option.some_ne_none _), fun q' hq' => ?_⟩
      cases hq'
      rw [if_neg (by decide), hgrow]
      rw [hfrozen] at h'
      exact ⟨s', hput, h'⟩

omit heap in
theorem puts_put (cs : List UInt8) (q : CharQueue)
    (hroom : q.written.length + cs.length ≤ q.capacity) :
    puts (CharQueue.put chunk) q cs = ({ q with written := q.written ++ cs }, cs.length) := by
  induction cs generalizing q with
  | nil =>
    rw [List.append_nil]
    rfl
  | cons c cs ih =>
    rw [List.length_cons] at hroom
    rw [puts, CharQueue.put, if_pos (by omega)]
    dsimp only
    rw [ih _ (by rw [List.length_append, List.length_singleton]; dsimp only; omega)]
    dsimp only
    rw [List.append_assoc]
    rfl

theorem write_chars_eq (cs : List UInt8) {written : List UInt8} {s : Strstreambuf}
    (hbegins : written <+: s.cells) (hroom : written.length + cs.length ≤ s.cells.length) :
    ∃ cells, (buf heap).write_chars s (s.block + written.length) cs =
        some { s with cells := cells } ∧
      written ++ cs <+: cells ∧ cells.length = s.cells.length := by
  induction cs generalizing s written with
  | nil => exact ⟨s.cells, rfl, by rwa [List.append_nil], rfl⟩
  | cons c cs ih =>
    rw [List.length_cons] at hroom
    have hlen : (written ++ [c]).length = written.length + 1 := by
      rw [List.length_append, List.length_singleton]
    obtain ⟨cells, hwrite, hbegins', hcells⟩ :=
      ih (s := { s with cells := s.cells.set written.length c })
        (prefix_set hbegins (by omega) c) (by rw [List.length_set, hlen]; omega)
    rw [List.append_assoc] at hbegins'
    rw [List.length_set] at hcells
    refine ⟨cells, ?_, hbegins', hcells⟩
    rw [hlen, next_address] at hwrite
    rw [Streambuf.write_chars, buf_store, store, if_pos (by omega), index_eq]
    exact hwrite

theorem writes : (buf heap).Writes
    (fun n s q => s.Refines heap chunk q ∧ q.Room chunk n) (CharQueue.put chunk) := by
  refine ⟨fun n s q h => ⟨h.1, h.2.mono n.le_succ⟩, fun n s q h hne => ?_,
    fun n s q c h heq => ?_⟩
  · obtain ⟨h, hroom⟩ := h
    obtain ⟨hpcur, hpend⟩ := h.points.put
    have hle : q.written.length ≤ q.capacity := h.points.begins.length_le.trans_eq h.points.room
    rw [buf_areas] at hne ⊢
    refine ⟨by omega, fun cs hcs hend => ?_⟩
    have hfit : q.written.length + cs.length ≤ q.capacity := by omega
    have hshort : -2 ^ 31 ≤ (cs.length : Int) ∧ (cs.length : Int) < 2 ^ 31 := by
      have harea := hroom.1
      omega
    obtain ⟨cells, hwrite, hbegins, hcells⟩ := write_chars_eq heap cs h.points.begins
      (by rw [h.points.room]; exact hfit)
    have hpoints := points_written h.points hbegins (hcells.trans h.points.room)
      (p := s.areas.pcur + to_int cs.length) (by rw [to_int_eq hshort])
    have howns := owns_written heap h.owns cs
    exact ⟨{ s with cells := cells }, _, by rw [hpcur]; exact hwrite, puts_put cs q hfit,
      ⟨h.flags, hpoints,
      ⟨howns.block, howns.flag, howns.released, howns.capacity, howns.pbeg, howns.filled⟩⟩,
      hroom.written hfit⟩
  · obtain ⟨h, hroom⟩ := h
    rw [buf_areas] at heq
    obtain ⟨hpcur, hpend⟩ := h.points.put
    have hfull : q.written.length = q.capacity := by omega
    obtain ⟨hnone, hsome⟩ := sputc_spec heap h (hroom.mono (Nat.le_add_left 1 n)) c
    refine ⟨fun hput => ⟨s, hnone hput, h, hroom.mono n.le_succ⟩, fun q' hput => ?_⟩
    obtain ⟨s', hsputc, h'⟩ := hsome q' hput
    exact ⟨s', hsputc, h', hroom.grown hfull hput⟩

/-- One operation, where every block written is shorter than 2 ^ 31. -/
theorem next_spec (h : s.Refines heap chunk q) {op : StrOp} (hfits : q.Fits chunk op)
    {r : BufResult UInt8} {q' : CharQueue} (hnext : q.next chunk op = some (r, q')) :
    ∃ s', s.next heap op = some (r, s') ∧ s'.Refines heap chunk q' := by
  cases op with
  | sputc c =>
    obtain ⟨hnone, hsome⟩ := sputc_spec heap h hfits c
    rw [CharQueue.next] at hnext
    cases hput : q.put chunk c with
    | none =>
      rw [hput] at hnext
      cases hnext
      exact ⟨s, by rw [Strstreambuf.next, hnone hput]; rfl, h⟩
    | some q₁ =>
      rw [hput] at hnext
      cases hnext
      obtain ⟨s', hsputc, h'⟩ := hsome _ hput
      exact ⟨s', by rw [Strstreambuf.next, hsputc]; rfl, h'⟩
  | sputn cs =>
    cases hnext
    obtain ⟨s', hsputn, h', -⟩ := Streambuf.sputn_spec (writes heap) ⟨h, hfits⟩
    exact ⟨s', by rw [Strstreambuf.next, hsputn]; rfl, h'⟩
  | sgetc =>
    cases hnext
    obtain ⟨s', hsgetc, h'⟩ := sgetc_spec heap h
    exact ⟨s', by rw [Strstreambuf.next, hsgetc]; rfl, h'⟩
  | sbumpc =>
    obtain ⟨hnone, hsome⟩ := sbumpc_spec heap h
    rw [CharQueue.next] at hnext
    cases hget : q.get with
    | none =>
      rw [hget] at hnext
      cases hnext
      obtain ⟨s', hsbumpc, h'⟩ := hnone hget
      exact ⟨s', by rw [Strstreambuf.next, hsbumpc]; rfl, h'⟩
    | some x =>
      obtain ⟨c, q₁⟩ := x
      rw [hget] at hnext
      cases hnext
      obtain ⟨s', hsbumpc, h'⟩ := hsome _ _ hget
      exact ⟨s', by rw [Strstreambuf.next, hsbumpc]; rfl, h'⟩
  | snextc =>
    obtain ⟨hnone, hsome⟩ := snextc_spec heap h
    rw [CharQueue.next] at hnext
    cases hget : q.get with
    | none =>
      rw [hget] at hnext
      cases hnext
      obtain ⟨s', hsnextc, h'⟩ := hnone hget
      exact ⟨s', by rw [Strstreambuf.next, hsnextc]; rfl, h'⟩
    | some x =>
      obtain ⟨c, q₁⟩ := x
      rw [hget] at hnext
      cases hnext
      obtain ⟨s', hsnextc, h'⟩ := hsome _ _ hget
      exact ⟨s', by rw [Strstreambuf.next, hsnextc]; rfl, h'⟩
  | sgetn n =>
    cases hnext
    obtain ⟨s', hsgetn, h', -⟩ := Streambuf.sgetn_spec (reads heap) ⟨h, hfits⟩
    exact ⟨s', by rw [Strstreambuf.next, hsgetn]; rfl, h'⟩
  | sungetc =>
    cases hnext
    obtain ⟨s', hback, h'⟩ := sungetc_spec heap h
    exact ⟨s', by rw [Strstreambuf.next, hback]; rfl, h'⟩
  | sputbackc c =>
    cases hnext
    obtain ⟨s', hback, h'⟩ := sputbackc_spec heap h hfits
    exact ⟨s', by rw [Strstreambuf.next, hback]; rfl, h'⟩
  | freeze f =>
    cases hnext
    refine ⟨_, rfl, ?_⟩
    rw [freeze, if_pos h.flags.2.1]
    exact ⟨⟨h.flags.1, h.flags.2.1, h.flags.2.2.1, rfl⟩,
      ⟨h.points.read_le, h.points.begins, h.points.room, h.points.get, h.points.lag, h.points.put⟩,
      ⟨h.owns.block, h.owns.flag, h.owns.released, h.owns.capacity, h.owns.pbeg, h.owns.filled⟩⟩

end StrstreambufLemmas

/-! ## 2. Runs -/

namespace Strstreambuf

/-- When the buffer is gone, every block has been released once. A frozen buffer leaves the
last one. -/
def Released (heap : Allocator UInt8) (s : Strstreambuf) : Prop :=
  s.destroy.released =
    (List.range (if s.m_frozen then s.allocated - 1 else s.allocated)).map heap.address

/-- What `pcount` and `str` say of the characters written. -/
def Exposes (s : Strstreambuf) (written : List UInt8) : Prop :=
  s.pcount = written.length ∧ s.str.2 = s.block ∧
    base.read_chars s.str.1 s.str.2 s.pcount.toNat = some written

end Strstreambuf

section

open Strstreambuf StrstreambufLemmas StringbufLemmas

variable {heap : Allocator UInt8} {chunk : Int} {s : Strstreambuf} {q : CharQueue}

theorem released_of_refines (h : s.Refines heap chunk q) : s.Released heap := by
  unfold Released destroy
  have hgbeg : s.areas.gbeg = s.block := h.points.get.1
  rw [h.owns.flag]
  cases hfrozen : s.m_frozen with
  | true =>
    rw [if_neg (fun hno => hno.2 rfl), if_pos rfl]
    exact h.owns.released
  | false =>
    rw [if_neg Bool.false_ne_true]
    have hreleased := h.owns.released
    have hblock := h.owns.block
    cases hallocated : s.allocated with
    | zero =>
      rw [hallocated] at hreleased
      exact hreleased
    | succ k =>
      rw [hallocated, Nat.add_sub_cancel] at hreleased
      rw [hallocated, if_neg (Nat.succ_ne_zero k), Nat.add_sub_cancel] at hblock
      rw [if_pos ⟨decide_eq_true (Nat.succ_ne_zero k), Bool.false_ne_true⟩, List.range_succ,
        List.map_append, ← hreleased, hgbeg, hblock]
      rfl

theorem strstreambuf_start (heap : Allocator UInt8) (chunk_size : Int) :
    (strstreambuf chunk_size).Refines heap (chunk_for chunk_size) .empty where
  flags := ⟨rfl, rfl, rfl, rfl⟩
  points := ⟨Nat.le_refl 0, List.prefix_refl [], rfl, ⟨rfl, rfl⟩, ⟨0, Nat.le_refl 0, Nat.le_refl 0,
    rfl⟩, ⟨rfl, rfl⟩⟩
  owns :=
    { block := rfl
      flag := rfl
      released := rfl
      capacity := (Nat.zero_mul _).symm
      pbeg := by
        show (0 : Int) = 0 + ((0 - 1) * (chunk_for chunk_size).toNat : Nat)
        rw [Nat.zero_sub, Nat.zero_mul]
        rfl
      filled := fun hne => absurd rfl hne }

/-- The characters come out of the buffer as they come out of the queue. -/
theorem run_refines (heap : Allocator UInt8) (chunk_size : Int) (ops : List StrOp)
    (hfits : Along (CharQueue.next (chunk_for chunk_size)) (CharQueue.Fits (chunk_for chunk_size))
      .empty ops) : ∃ results q s,
      play (CharQueue.next (chunk_for chunk_size)) .empty ops = some (results, q) ∧
        play (Strstreambuf.next heap) (strstreambuf chunk_size) ops = some (results, s) ∧
          s.Refines heap (chunk_for chunk_size) q := by
  obtain ⟨results, q, hplay⟩ :=
    play_total (CharQueue.next_total (chunk_for chunk_size)) .empty ops
  have keep (q : CharQueue) (s : Strstreambuf) (op : StrOp) (r : BufResult UInt8) (q' : CharQueue)
      (h : s.Refines heap (chunk_for chunk_size) q) (hfits : q.Fits (chunk_for chunk_size) op)
      (hnext : q.next (chunk_for chunk_size) op = some (r, q')) :
      ∃ s', s.next heap op = some (r, s') ∧ s'.Refines heap (chunk_for chunk_size) q' :=
    next_spec heap h hfits hnext
  obtain ⟨s, hplay', h⟩ := play_follow keep (strstreambuf_start heap chunk_size) hfits hplay
  exact ⟨results, q, s, hplay, hplay', h⟩

/-- The results are those of the queue, and no block is lost or released twice, as long as no
block of 2 ^ 31 characters is written at once. -/
theorem strstreambuf_refines (heap : Allocator UInt8) (chunk_size : Int) (ops : List StrOp)
    (hfits : Along (CharQueue.next (chunk_for chunk_size)) (CharQueue.Fits (chunk_for chunk_size))
      .empty ops) : ∃ results q s,
      play (CharQueue.next (chunk_for chunk_size)) .empty ops = some (results, q) ∧
        play (Strstreambuf.next heap) (strstreambuf chunk_size) ops = some (results, s) ∧
          s.m_frozen = q.frozen ∧ s.Released heap := by
  obtain ⟨results, q, s, hqueue, hcode, h⟩ := run_refines heap chunk_size ops hfits
  exact ⟨results, q, s, hqueue, hcode, h.flags.2.2.2, released_of_refines h⟩

/-- Three growths, and a write that fails. -/
def exStrOps : List StrOp :=
  [.sputc 1, .sputn [2, 3, 4], .sbumpc, .sbumpc, .sungetc, .sputn [5], .sputbackc 1, .sgetn 3,
    .freeze true, .sputc 6, .sputc 7]

theorem strstreambuf_refines_example : ∃ results q s,
    play (CharQueue.next (chunk_for 2)) .empty exStrOps = some (results, q) ∧
      play (Strstreambuf.next exHeap) (strstreambuf 2) exStrOps = some (results, s) ∧
        s.m_frozen = q.frozen ∧ s.Released exHeap :=
  strstreambuf_refines exHeap 2 exStrOps (by decide)

theorem sputc_before (heap : Allocator UInt8) (hp : s.areas.pcur < s.block)
    (hne : s.areas.pcur ≠ s.areas.pend) (c : UInt8) : (buf heap).sputc s c = none := by
  rw [Streambuf.sputc, buf_areas, if_neg hne, buf_store, store,
    if_neg (fun hno => absurd hno.1 (Int.not_le.mpr hp))]
  rfl

/-- `pbump(int)` takes 2 ^ 31 for the negative number, and the next character would be written
in front of the block. -/
theorem sputc_far (heap : Allocator UInt8) (h : s.Refines heap chunk q) {cs : List UInt8}
    (hlen : cs.length = 2147483648) (hw : q.written.length < 2147483648)
    (hroom : q.written.length + 2147483648 < q.capacity) (c : UInt8) : ∃ s',
      (buf heap).sputn s cs = some (s', 2147483648) ∧ (buf heap).sputc s' c = none := by
  obtain ⟨hpcur, hpend⟩ := h.points.put
  obtain ⟨cells, hwrite, -, -⟩ := write_chars_eq heap cs h.points.begins
    (by rw [h.points.room]; omega)
  have hcut : to_int 2147483648 = -2147483648 := by decide
  refine ⟨{ s with cells := cells, areas := s.areas.pbump 2147483648 }, ?_,
    sputc_before heap ?_ ?_ c⟩
  · rw [Streambuf.sputn, buf_areas, hpcur, hlen, if_pos (by omega), hwrite]
    rfl
  · show s.areas.pcur + to_int 2147483648 < s.block
    omega
  · show s.areas.pcur + to_int 2147483648 ≠ s.areas.pend
    omega

theorem not_strstreambuf_refines :
    ¬ ∀ (heap : Allocator UInt8) (chunk_size : Int) (ops : List StrOp),
      Along (CharQueue.next (chunk_for chunk_size)) CharQueue.JustRead .empty ops →
        (play (Strstreambuf.next heap) (strstreambuf chunk_size) ops).map Prod.fst =
          (play (CharQueue.next (chunk_for chunk_size)) .empty ops).map Prod.fst := by
  intro hall
  have hlen : (List.replicate 2147483648 (2 : UInt8)).length = 2147483648 := List.length_replicate
  generalize List.replicate 2147483648 (2 : UInt8) = cs at hlen
  have hsame := hall exHeap 4294967296 [.sputc 1, .sputn cs, .sputc 3]
    ⟨trivial, fun _ _ => ⟨trivial, fun _ _ => ⟨trivial, fun _ _ => trivial⟩⟩⟩
  obtain ⟨results, q', hqueue⟩ := play_total (CharQueue.next_total (chunk_for 4294967296)) .empty
    [.sputc 1, .sputn cs, .sputc 3]
  have hput : CharQueue.next (chunk_for 4294967296) .empty (.sputc 1) =
      some (.char (some 1), ⟨[1], 0, 4294967296, false⟩) := rfl
  obtain ⟨s, hfirst, h⟩ := next_spec exHeap (strstreambuf_start exHeap 4294967296) (by decide) hput
  obtain ⟨s', hsputn, hsputc⟩ := sputc_far exHeap h hlen (by decide) (by decide) 3
  have hcode : play (Strstreambuf.next exHeap) (strstreambuf 4294967296)
      [.sputc 1, .sputn cs, .sputc 3] = none := by
    rw [play, hfirst]
    dsimp only [Option.bind_eq_bind, Option.bind_some]
    rw [play, Strstreambuf.next, hsputn]
    dsimp only [Option.map_some, Option.bind_eq_bind, Option.bind_some]
    rw [play, Strstreambuf.next, hsputc]
    rfl
  rw [hcode, hqueue] at hsame
  cases hsame

/-! ## 3. `pcount` and `str` -/

/-- The start of the put area and the end of the get area are those of the last growth. -/
theorem exposes_iff_of_refines (h : s.Refines heap chunk q) :
    s.Exposes q.written ↔
      q.read = 0 ∧ q.written.length ≤ chunk.toNat ∧ q.written.length < 2 ^ 31 := by
  obtain ⟨hgbeg, hgcur⟩ := h.points.get
  obtain ⟨hpcur, hpend⟩ := h.points.put
  have hle : q.written.length ≤ q.capacity := h.points.begins.length_le.trans_eq h.points.room
  have hpcount : s.pcount =
      to_int (q.written.length - ((s.allocated - 1) * chunk.toNat : Nat)) := by
    rw [pcount, hpcur, h.owns.pbeg]
    congr 1
    omega
  have hstart : (s.allocated - 1) * chunk.toNat ≤ q.written.length := by
    rcases Nat.eq_zero_or_pos s.allocated with h0 | hpos
    · rw [h0, Nat.zero_sub, Nat.zero_mul]
      exact Nat.zero_le _
    · exact (h.owns.filled (by omega)).le
  have hone : (s.allocated - 1) * chunk.toNat = 0 ↔ q.written.length ≤ chunk.toNat := by
    have hcapacity := h.owns.capacity
    have hfilled := h.owns.filled
    cases hallocated : s.allocated with
    | zero =>
      rw [hallocated, Nat.zero_mul] at hcapacity
      rw [Nat.zero_sub, Nat.zero_mul]
      exact ⟨fun _ => by omega, fun _ => rfl⟩
    | succ k =>
      rw [hallocated, Nat.succ_mul] at hcapacity
      rw [hallocated, Nat.add_sub_cancel] at hfilled
      rw [Nat.add_sub_cancel]
      refine ⟨fun h0 => by omega, fun hfits => ?_⟩
      cases k with
      | zero => exact Nat.zero_mul _
      | succ k =>
        have hlt := hfilled (Nat.succ_ne_zero _)
        rw [Nat.succ_mul] at hlt
        omega
  unfold Exposes
  rw [hpcount, ← hone]
  generalize (s.allocated - 1) * chunk.toNat = p at hstart
  constructor
  · rintro ⟨hcount, hstr, -⟩
    have hread : s.areas.gcur = s.block := hstr
    have hrange : (q.written.length : Int) < 2 ^ 31 := by
      rw [← hcount]
      exact Int.bmod_lt (by decide)
    rw [to_int_eq (by omega)] at hcount
    exact ⟨by omega, by omega, by omega⟩
  · rintro ⟨hread, rfl, hshort⟩
    rw [Nat.cast_zero, Int.sub_zero, to_int_eq (by omega)]
    have hstr : s.str.2 = s.block := by
      show s.areas.gcur = s.block
      omega
    refine ⟨rfl, hstr, ?_⟩
    have hfrozen : s.str.1 = { s with m_frozen := true } := if_pos h.flags.2.1
    have hpoints : s.str.1.Points q := by
      rw [hfrozen]
      exact ⟨h.points.read_le, h.points.begins, h.points.room, h.points.get, h.points.lag,
        h.points.put⟩
    have hall := read_written hpoints (i := 0) (k := q.written.length) (by omega)
    rw [List.drop_zero, List.take_length, Nat.cast_zero, Int.add_zero] at hall
    rw [hstr, Int.toNat_natCast, ← hall, hfrozen]

/-- `pcount` and `str` are right as long as nothing has been read and the buffer has grown only
once. -/
theorem exposes_iff (heap : Allocator UInt8) (chunk_size : Int) (ops : List StrOp)
    (hfits : Along (CharQueue.next (chunk_for chunk_size)) (CharQueue.Fits (chunk_for chunk_size))
      .empty ops) : ∃ results q s,
      play (CharQueue.next (chunk_for chunk_size)) .empty ops = some (results, q) ∧
        play (Strstreambuf.next heap) (strstreambuf chunk_size) ops = some (results, s) ∧
          (s.Exposes q.written ↔ q.read = 0 ∧
            q.written.length ≤ (chunk_for chunk_size).toNat ∧ q.written.length < 2 ^ 31) := by
  obtain ⟨results, q, s, hqueue, hcode, h⟩ := run_refines heap chunk_size ops hfits
  exact ⟨results, q, s, hqueue, hcode, exposes_iff_of_refines h⟩

theorem exposes_iff_example : ∃ results q s,
    play (CharQueue.next (chunk_for 2)) .empty exStrOps = some (results, q) ∧
      play (Strstreambuf.next exHeap) (strstreambuf 2) exStrOps = some (results, s) ∧
        (s.Exposes q.written ↔ q.read = 0 ∧
          q.written.length ≤ (chunk_for 2).toNat ∧ q.written.length < 2 ^ 31) :=
  exposes_iff exHeap 2 exStrOps (by decide)

/-- After the second growth `pcount` counts one character of two. -/
theorem not_exposes :
    ¬ ∀ (heap : Allocator UInt8) (chunk_size : Int) (ops : List StrOp),
      Along (CharQueue.next (chunk_for chunk_size)) CharQueue.JustRead .empty ops →
        ∃ results q s,
          play (CharQueue.next (chunk_for chunk_size)) .empty ops = some (results, q) ∧
            play (Strstreambuf.next heap) (strstreambuf chunk_size) ops = some (results, s) ∧
              s.Exposes q.written := by
  intro hall
  obtain ⟨results, q, s, hqueue, hcode, hcount, -⟩ := hall exHeap 1 [.sputc 1, .sputc 2]
    ⟨trivial, fun _ _ => ⟨trivial, fun _ _ => trivial⟩⟩
  have hlen : (play (CharQueue.next (chunk_for 1)) .empty [.sputc 1, .sputc 2]).map
      (fun x => x.2.written.length) = some 2 := by decide
  have hpcount : (play (Strstreambuf.next exHeap) (strstreambuf 1) [.sputc 1, .sputc 2]).map
      (fun x => x.2.pcount) = some 1 := by decide
  rw [hqueue, Option.map_some, Option.some.injEq] at hlen
  rw [hcode, Option.map_some, Option.some.injEq, hcount, hlen] at hpcount
  exact absurd hpcount (by decide)

end

end Kuhllib.Cxxrt
