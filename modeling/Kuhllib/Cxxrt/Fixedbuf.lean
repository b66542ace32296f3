import Kuhllib.Cxxrt.Stringbuf

/-!
# `basic_fixedbuf`

The get area and the put area of the buffer are the whole of one array. The six blocks of
`seekoff` are alike but for the bounds that they check, and so are the two of `seekpos`.

Results:
1. `Positions`: what a seek is meant to do.
2. `seeks_exactly_iff`: when it does.
-/

namespace Kuhllib.Cxxrt.Fixedbuf

/-- `basic_fixedbuf(str, len)` for characters that are constant. -/
def const_fixedbuf (str len : Int) : Areas := Areas.null.setg str str (str + len)

/-- `basic_fixedbuf(str, len, mode)`. -/
def basic_fixedbuf (str len : Int) (mode : Openmode) : Areas :=
  let a := Areas.null
  let a := if mode.has ios_in then a.setg str str (str + len) else a
  if mode.has ios_out then a.setp str (str + len) else a

/-- One block of `seekoff`: where the pointer of an area goes, and what is returned. -/
def block (off : Int) (dir : Seekdir) (beg cur fin : Int) : Option (Int × Int) :=
  match dir with
  | .beg =>
    if off ≤ fin - beg then some (cur + to_int (off - (cur - beg)), off) else none
  | .cur =>
    if off < fin - cur ∧ -off < cur - beg then
      let cur := cur + to_int off
      some (cur, cur - beg)
    else none
  | .end =>
    if fin - beg ≥ -off then
      let cur := cur + to_int (off + (fin - cur))
      some (cur, cur - beg)
    else none

/-- The block for the get area; `rc` is returned if it does nothing. -/
def get_block (a : Areas) (off : Int) (dir : Seekdir) (which : Openmode) (rc : Int) :
    Areas × Int :=
  if which.has ios_in ∧ a.gcur ≠ 0 then
    match block off dir a.gbeg a.gcur a.gend with
    | some (cur, rc) => ({ a with gcur := cur }, rc)
    | none => (a, rc)
  else (a, rc)

def put_block (a : Areas) (off : Int) (dir : Seekdir) (which : Openmode) (rc : Int) :
    Areas × Int :=
  if which.has ios_out ∧ a.pcur ≠ 0 then
    match block off dir a.pbeg a.pcur a.pend with
    | some (cur, rc) => ({ a with pcur := cur }, rc)
    | none => (a, rc)
  else (a, rc)

def blocks (a : Areas) (off : Int) (dir : Seekdir) (which : Openmode) : Areas × Int :=
  let (a, rc) := get_block a off dir which (-1)
  put_block a off dir which rc

def seekoff (a : Areas) (off : Int) (dir : Seekdir) (which : Openmode) : Areas × Int :=
  match dir with
  | .beg => if off ≥ 0 then blocks a off .beg which else (a, -1)
  | .cur => if a.gcur = 0 ∨ a.pcur = 0 ∨ off = 0 then blocks a off .cur which else (a, -1)
  | .end => if off ≤ 0 then blocks a off .end which else (a, -1)

def seekpos (a : Areas) (pos : Int) (which : Openmode) : Areas × Int :=
  if pos ≥ 0 then blocks a pos .beg which else (a, -1)

/-! ## 1. Positions -/

/-- The positions in the areas that exist. -/
structure Positions where
  length : Int
  get : Option Int
  put : Option Int
  deriving DecidableEq

namespace Positions

/-- The positions in a new buffer. -/
def initial (len : Int) (mode : Openmode) : Positions :=
  ⟨len, if mode.has ios_in then some 0 else none, if mode.has ios_out then some 0 else none⟩

variable (p : Positions) (off : Int) (dir : Seekdir) (which : Openmode)

def Within : Prop :=
  (∀ pos ∈ p.get, 0 ≤ pos ∧ pos ≤ p.length) ∧ ∀ pos ∈ p.put, 0 ≤ pos ∧ pos ≤ p.length

def asked_get : Option Int := if which.has ios_in then p.get else none

def asked_put : Option Int := if which.has ios_out then p.put else none

/-- Where the seek leads to from a position. -/
def target (pos : Int) : Int :=
  match dir with
  | .beg => off
  | .cur => pos + off
  | .end => p.length + off

/-- From the current positions both areas can only be sought together where nothing moves. -/
def allowed : Bool := dir ≠ .cur ∨ p.get = none ∨ p.put = none ∨ off = 0

def inside (pos : Int) : Bool := 0 ≤ p.target off dir pos ∧ p.target off dir pos ≤ p.length

/-- The positions asked for are moved if all of them can be. The last one is returned. -/
def seek : Positions × Int :=
  let g := p.asked_get which
  let q := p.asked_put which
  match q.or g with
  | none => (p, -1)
  | some pos =>
    if p.allowed off dir ∧ g.all (p.inside off dir) ∧ q.all (p.inside off dir) then
      ({ p with
          get := (g.map (p.target off dir)).or p.get
          put := (q.map (p.target off dir)).or p.put }, p.target off dir pos)
    else (p, -1)

/-- The areas of an array at `str`. -/
def place (str : Int) : Areas where
  gbeg := p.get.elim 0 fun _ => str
  gcur := p.get.elim 0 fun pos => str + pos
  gend := p.get.elim 0 fun _ => str + p.length
  pbeg := p.put.elim 0 fun _ => str
  pcur := p.put.elim 0 fun pos => str + pos
  pend := p.put.elim 0 fun _ => str + p.length

/-- Distances that `gbump(int)` and `pbump(int)` can move by. -/
def near (d : Int) : Bool := -2 ^ 31 ≤ d ∧ d < 2 ^ 31

/-- No position moves by more than `int` can hold, and from a current position the seek leads
neither to the start nor to the end. -/
def Fits : Prop :=
  match dir with
  | .cur => p.allowed off .cur → ∀ pos ∈ (p.asked_put which).or (p.asked_get which),
      pos + off ≠ 0 ∧ pos + off ≠ p.length ∧ (0 < pos + off → pos + off < p.length → near off)
  | dir =>
    (∀ pos ∈ p.asked_get which, p.inside off dir pos → near (p.target off dir pos - pos)) ∧
      ∀ pos ∈ p.asked_put which, p.inside off dir pos → near (p.target off dir pos - pos)

end Positions

/-- A seek moves the positions as it is meant to, and `seekpos` agrees with `seekoff`. -/
def SeeksExactly (str : Int) (p : Positions) (off : Int) (dir : Seekdir) (which : Openmode) :
    Prop :=
  seekoff (p.place str) off dir which =
      ((p.seek off dir which).1.place str, (p.seek off dir which).2) ∧
    seekpos (p.place str) off which = seekoff (p.place str) off .beg which

namespace FixedbufLemmas

open Positions StringbufLemmas

variable {p : Positions} {off : Int} {dir : Seekdir} {which : Openmode} {str : Int}

/-- A buffer for constant characters is one that can only be read. -/
theorem const_fixedbuf_eq (str len : Int) :
    const_fixedbuf str len = basic_fixedbuf str len ios_in := rfl

theorem basic_fixedbuf_eq (str len : Int) (mode : Openmode) :
    basic_fixedbuf str len mode = (initial len mode).place str := by
  unfold basic_fixedbuf initial
  cases mode.has ios_in <;> cases mode.has ios_out <;>
    simp [place, Areas.setg, Areas.setp, Areas.null]

/-- No area is at the null pointer. -/
theorem place_inj (hstr : 0 < str) {p' : Positions} (hlen : p.length = p'.length)
    (h : p.place str = p'.place str) : p = p' := by
  obtain ⟨length, get, put⟩ := p
  obtain ⟨length', get', put'⟩ := p'
  obtain rfl : length = length' := hlen
  unfold place at h
  simp only [Areas.mk.injEq] at h
  obtain ⟨hgbeg, hgcur, -, hpbeg, hpcur, -⟩ := h
  have hget : get = get' := by
    cases get <;> cases get' <;> simp only [Option.elim, Option.some.injEq] at * <;> omega
  have hput : put = put' := by
    cases put <;> cases put' <;> simp only [Option.elim, Option.some.injEq] at * <;> omega
  rw [hget, hput]

/-! ## 2. The blocks -/

/-- What a block does to a position. -/
def shift (length off : Int) (dir : Seekdir) (pos : Int) : Option (Int × Int) :=
  block off dir 0 pos length

theorem block_eq (off : Int) (dir : Seekdir) (str pos length : Int) :
    block off dir str (str + pos) (str + length) =
      (shift length off dir pos).map fun x => (str + x.1, x.2) := by
  have hlen : str + length - str = length := by omega
  have hpos : str + pos - str = pos := by omega
  have hrest : str + length - (str + pos) = length - pos := by omega
  unfold shift block
  cases dir with
  | beg =>
    dsimp only
    rw [hlen, hpos, Int.sub_zero, Int.sub_zero]
    split
    · rw [Int.add_assoc]
      rfl
    · rfl
  | cur =>
    dsimp only
    rw [hrest, hpos, Int.sub_zero, Int.sub_zero]
    split
    · rw [Int.add_assoc, add_sub_cancel_left]
      rfl
    · rfl
  | «end» =>
    dsimp only
    rw [hlen, hrest, Int.sub_zero, Int.sub_zero]
    split
    · rw [Int.add_assoc, add_sub_cancel_left]
      rfl
    · rfl

theorem get_block_place (hstr : 0 < str) (hp : ∀ pos ∈ p.get, 0 ≤ pos) (off : Int)
    (dir : Seekdir) (which : Openmode) (rc : Int) :
    get_block (p.place str) off dir which rc =
      let g := (p.asked_get which).bind (shift p.length off dir)
      ({ p with get := (g.map Prod.fst).or p.get }.place str, (g.map Prod.snd).getD rc) := by
  obtain ⟨length, get, put⟩ := p
  unfold get_block asked_get
  cases get with
  | none =>
    rw [if_neg fun hno => hno.2 rfl, ite_self]
    rfl
  | some pos =>
    have hpos : 0 ≤ pos := hp pos rfl
    cases which.has ios_in with
    | false =>
      rw [if_neg fun hno => Bool.false_ne_true hno.1, if_neg Bool.false_ne_true]
      rfl
    | true =>
      rw [if_pos ⟨rfl, show str + pos ≠ 0 by omega⟩, if_pos rfl]
      show (match block off dir str (str + pos) (str + length) with
        | some (cur, rc) => _
        | none => _) = _
      rw [block_eq, Option.bind_some]
      cases shift length off dir pos <;> rfl

theorem put_block_place (hstr : 0 < str) (hp : ∀ pos ∈ p.put, 0 ≤ pos) (off : Int)
    (dir : Seekdir) (which : Openmode) (rc : Int) :
    put_block (p.place str) off dir which rc =
      let q := (p.asked_put which).bind (shift p.length off dir)
      ({ p with put := (q.map Prod.fst).or p.put }.place str, (q.map Prod.snd).getD rc) := by
  obtain ⟨length, get, put⟩ := p
  unfold put_block asked_put
  cases put with
  | none =>
    rw [if_neg fun hno => hno.2 rfl, ite_self]
    rfl
  | some pos =>
    have hpos : 0 ≤ pos := hp pos rfl
    cases which.has ios_out with
    | false =>
      rw [if_neg fun hno => Bool.false_ne_true hno.1, if_neg Bool.false_ne_true]
      rfl
    | true =>
      rw [if_pos ⟨rfl, show str + pos ≠ 0 by omega⟩, if_pos rfl]
      show (match block off dir str (str + pos) (str + length) with
        | some (cur, rc) => _
        | none => _) = _
      rw [block_eq, Option.bind_some]
      cases shift length off dir pos <;> rfl

/-- What the blocks do to the positions. -/
def code (p : Positions) (off : Int) (dir : Seekdir) (which : Openmode) : Positions × Int :=
  let g := (p.asked_get which).bind (shift p.length off dir)
  let q := (p.asked_put which).bind (shift p.length off dir)
  ({ p with get := (g.map Prod.fst).or p.get, put := (q.map Prod.fst).or p.put },
    ((q.or g).map Prod.snd).getD (-1))

theorem blocks_place (hstr : 0 < str) (hp : p.Within) (off : Int) (dir : Seekdir)
    (which : Openmode) :
    blocks (p.place str) off dir which =
      ((code p off dir which).1.place str, (code p off dir which).2) := by
  unfold blocks
  rw [get_block_place hstr fun pos hpos => (hp.1 pos hpos).1]
  dsimp only
  generalize hget : (((p.asked_get which).bind (shift p.length off dir)).map Prod.fst).or p.get =
    get
  rw [put_block_place (p := { p with get := get }) hstr fun pos hpos => (hp.2 pos hpos).1]
  subst hget
  unfold code asked_put
  dsimp only
  cases (if which.has ios_out then p.put else none).bind (shift p.length off dir) <;> rfl

/-! ## 3. Exact seeks -/

theorem near_iff (d : Int) : near d = true ↔ to_int d = d := by
  unfold near
  rw [decide_eq_true_iff]
  refine ⟨to_int_eq, fun heq => ?_⟩
  have hlow : -2 ^ 31 ≤ to_int d := Int.le_bmod (by decide)
  have hhigh : to_int d < 2 ^ 31 := Int.bmod_lt (by decide)
  omega

theorem asked_get_eq {pos : Int} (h : p.asked_get which = some pos) : p.get = some pos := by
  unfold asked_get at h
  exact (Option.ite_none_right_eq_some.mp h).2

theorem asked_put_eq {pos : Int} (h : p.asked_put which = some pos) : p.put = some pos := by
  unfold asked_put at h
  exact (Option.ite_none_right_eq_some.mp h).2

/-- Nothing is asked for, or it cannot be done. -/
theorem code_none (h : ∀ pos, shift p.length off dir pos = none) :
    code p off dir which = (p, -1) := by
  have hshift : shift p.length off dir = fun _ => none := funext h
  unfold code
  rw [hshift, Option.bind_fun_none, Option.bind_fun_none]
  rfl

/-- A seek whose target is the same for both areas. -/
theorem code_exact_iff {t : Int} (rc : Int → Int) (hrc : ∀ pos, to_int (t - pos) = t - pos → rc pos = t)
    (hshift : ∀ pos, shift p.length off dir pos = some (pos + to_int (t - pos), rc pos))
    (htarget : ∀ pos, p.target off dir pos = t) (hinside : 0 ≤ t ∧ t ≤ p.length)
    (hallowed : p.allowed off dir = true) :
    code p off dir which = p.seek off dir which ↔
      (∀ pos ∈ p.asked_get which, near (t - pos)) ∧ ∀ pos ∈ p.asked_put which, near (t - pos) := by
  have hmoved (pos : Int) : pos + to_int (t - pos) = t ↔ near (t - pos) := by
    rw [near_iff]
    omega
  have hin : p.inside off dir = fun _ => true := by
    funext pos
    unfold inside
    rw [htarget, decide_eq_true hinside]
  unfold code seek
  dsimp only
  rw [hin, hallowed]
  cases hget : p.asked_get which with
  | none =>
    cases hput : p.asked_put which with
    | none => simp
    | some q =>
      simp [hshift, htarget, hmoved]
      exact fun hnear => hrc q ((near_iff _).mp hnear)
  | some g =>
    cases hput : p.asked_put which with
    | none =>
      simp [hshift, htarget, hmoved]
      exact fun hnear => hrc g ((near_iff _).mp hnear)
    | some q =>
      simp [hshift, htarget, hmoved]
      exact fun _ hnear => hrc q ((near_iff _).mp hnear)

theorem seek_outside (h : ∀ pos, p.inside off dir pos = false) :
    p.seek off dir which = (p, -1) := by
  have hin : p.inside off dir = fun _ => false := funext h
  unfold seek
  rw [hin]
  cases p.asked_get which <;> cases p.asked_put which <;> simp

theorem seek_length (p : Positions) (off : Int) (dir : Seekdir) (which : Openmode) :
    (p.seek off dir which).1.length = p.length := by
  unfold seek
  dsimp only
  split
  · rfl
  · split <;> rfl

/-- The areas tell the positions. -/
theorem place_pair_iff (hstr : 0 < str) :
    ((code p off dir which).1.place str, (code p off dir which).2) =
        ((p.seek off dir which).1.place str, (p.seek off dir which).2) ↔
      code p off dir which = p.seek off dir which := by
  have hlen : (code p off dir which).1.length = (p.seek off dir which).1.length :=
    (seek_length p off dir which).symm
  refine ⟨fun h => ?_, fun h => by rw [h]⟩
  obtain ⟨hplace, hrc⟩ := Prod.mk.inj h
  exact Prod.ext (place_inj hstr hlen hplace) hrc

theorem guard_iff (hstr : 0 < str) (hp : p.Within) :
    ((p.place str).gcur = 0 ∨ (p.place str).pcur = 0 ∨ off = 0) ↔ p.allowed off .cur = true := by
  obtain ⟨length, get, put⟩ := p
  have hget : (place ⟨length, get, put⟩ str).gcur = 0 ↔ get = none := by
    cases get with
    | none => exact ⟨fun _ => rfl, fun _ => rfl⟩
    | some pos =>
      have hpos : 0 ≤ pos := (hp.1 pos rfl).1
      exact ⟨fun (h : str + pos = 0) => by omega, fun h => by cases h⟩
  have hput : (place ⟨length, get, put⟩ str).pcur = 0 ↔ put = none := by
    cases put with
    | none => exact ⟨fun _ => rfl, fun _ => rfl⟩
    | some pos =>
      have hpos : 0 ≤ pos := (hp.2 pos rfl).1
      exact ⟨fun (h : str + pos = 0) => by omega, fun h => by cases h⟩
  rw [hget, hput, allowed, decide_eq_true_iff]
  simp

/-- From a current position: the two strict comparisons. -/
theorem shift_cur (length off pos : Int) :
    shift length off .cur pos = if 0 < pos + off ∧ pos + off < length then
      some (pos + to_int off, pos + to_int off) else none := by
  unfold shift block
  dsimp only
  rw [Int.sub_zero, Int.sub_zero]
  exact if_congr ⟨fun h => by omega, fun h => by omega⟩ rfl rfl

/-- What the block does to one position, and what is returned. -/
def curCode (length off pos : Int) : Int × Int :=
  (((shift length off .cur pos).map Prod.fst).getD pos,
    ((shift length off .cur pos).map Prod.snd).getD (-1))

/-- What is meant to happen to it. -/
def curSeek (length off pos : Int) : Int × Int :=
  if 0 ≤ pos + off ∧ pos + off ≤ length then (pos + off, pos + off) else (pos, -1)

/-- The target is at the start, at the end, between them or outside. -/
theorem curCode_eq_iff {length : Int} (hlen : 0 ≤ length) (off pos : Int) :
    curCode length off pos = curSeek length off pos ↔
      pos + off ≠ 0 ∧ pos + off ≠ length ∧
        (0 < pos + off → pos + off < length → near off) := by
  unfold curCode curSeek
  rw [shift_cur, near_iff]
  split
  next hin =>
    rw [if_pos (by omega)]
    simp only [Option.map_some, Option.getD_some, Prod.mk.injEq]
    omega
  next hout =>
    simp only [Option.map_none, Option.getD_none]
    split
    · simp only [Prod.mk.injEq]
      omega
    · simp only [true_iff]
      omega

theorem get_pair_iff (x y : Int × Int) : ({ p with get := some x.1 }, x.2) =
    (({ p with get := some y.1 } : Positions), y.2) ↔ x = y := by
  simp [Prod.ext_iff]

theorem put_pair_iff (x y : Int × Int) : ({ p with put := some x.1 }, x.2) =
    (({ p with put := some y.1 } : Positions), y.2) ↔ x = y := by
  simp [Prod.ext_iff]

theorem inside_cur (p : Positions) (off pos : Int) :
    p.inside off .cur pos = decide (0 ≤ pos + off ∧ pos + off ≤ p.length) := rfl

/-- Two areas: no position moves, and the one in the put area is returned. -/
theorem code_both (hp : p.Within) {g q : Int} (hget : p.asked_get which = some g)
    (hput : p.asked_put which = some q) :
    code p 0 .cur which = p.seek 0 .cur which ↔ q ≠ 0 ∧ q ≠ p.length := by
  obtain ⟨length, get, put⟩ := p
  obtain rfl := asked_get_eq hget
  obtain rfl := asked_put_eq hput
  have hg : 0 ≤ g ∧ g ≤ length := hp.1 g rfl
  have hq : 0 ≤ q ∧ q ≤ length := hp.2 q rfl
  have h0 : to_int 0 = 0 := by decide
  have hseek : seek ⟨length, some g, some q⟩ 0 .cur which = (⟨length, some g, some q⟩, q) := by
    unfold seek
    simp only [hget, hput, inside_cur, Int.add_zero, allowed, Option.or_some, Option.all_some,
      decide_eq_true hg, decide_eq_true hq, or_true, decide_true, true_and, if_true,
      Option.map_some, target]
    rfl
  rw [hseek]
  unfold code
  simp only [hget, hput, Option.bind_some, shift_cur, h0, Int.add_zero]
  split <;> split <;> simp <;> omega

/-- Seeks from a current position. -/
theorem code_cur_iff (hlen : 0 ≤ p.length) (hp : p.Within)
    (hallowed : p.allowed off .cur = true) :
    code p off .cur which = p.seek off .cur which ↔ p.Fits off .cur which := by
  unfold Fits
  dsimp only
  rw [hallowed]
  cases hget : p.asked_get which with
  | none =>
    cases hput : p.asked_put which with
    | none => simp [code, seek, hget, hput]
    | some q =>
      have hself : { p with put := some q } = p := by rw [← asked_put_eq hput]
      have hcode : code p off .cur which =
          ({ p with put := some (curCode p.length off q).1 }, (curCode p.length off q).2) := by
        simp [code, curCode, hget, hput, asked_put_eq hput]
      have hseek : p.seek off .cur which =
          ({ p with put := some (curSeek p.length off q).1 }, (curSeek p.length off q).2) := by
        unfold seek curSeek
        simp only [hget, hput, hallowed, inside_cur, Option.or_none, Option.all_none,
          Option.all_some, decide_eq_true_eq, true_and, Option.map_some, Option.some_or,
          Option.map_none, Option.none_or, target]
        split
        · rfl
        · rw [hself]
      rw [hcode, hseek, put_pair_iff, curCode_eq_iff hlen]
      simp
  | some g =>
    cases hput : p.asked_put which with
    | none =>
      have hself : { p with get := some g } = p := by rw [← asked_get_eq hget]
      have hcode : code p off .cur which =
          ({ p with get := some (curCode p.length off g).1 }, (curCode p.length off g).2) := by
        simp [code, curCode, hget, hput, asked_get_eq hget]
      have hseek : p.seek off .cur which =
          ({ p with get := some (curSeek p.length off g).1 }, (curSeek p.length off g).2) := by
        unfold seek curSeek
        simp only [hget, hput, hallowed, inside_cur, Option.all_none,
          Option.all_some, decide_eq_true_eq, true_and, and_true, Option.map_some, Option.some_or,
          Option.map_none, Option.none_or, target]
        split
        · rfl
        · rw [hself]
      rw [hcode, hseek, get_pair_iff, curCode_eq_iff hlen]
      simp
    | some q =>
      obtain rfl : off = 0 := by
        unfold allowed at hallowed
        simpa [asked_get_eq hget, asked_put_eq hput] using hallowed
      have h0 : near 0 = true := by decide
      rw [code_both hp hget hput]
      simp [h0]

/-- A seek is exact if and only if it fits. -/
theorem seekoff_exact_iff (hstr : 0 < str) (hlen : 0 ≤ p.length) (hp : p.Within) :
    seekoff (p.place str) off dir which =
        ((p.seek off dir which).1.place str, (p.seek off dir which).2) ↔
      p.Fits off dir which := by
  cases dir with
  | beg =>
    have htarget (pos : Int) : p.target off .beg pos = off := rfl
    by_cases hin : 0 ≤ off ∧ off ≤ p.length
    · have hshift (pos : Int) : shift p.length off .beg pos =
          some (pos + to_int (off - pos), off) := by
        unfold shift block
        dsimp only
        rw [Int.sub_zero, Int.sub_zero, if_pos hin.2]
      rw [seekoff, if_pos hin.1, blocks_place hstr hp, place_pair_iff hstr,
        code_exact_iff (fun _ => off) (fun _ _ => rfl) hshift htarget hin rfl]
      have hinside (pos : Int) : p.inside off .beg pos = true := decide_eq_true hin
      simp [Fits, hinside, htarget]
    · have hinside (pos : Int) : p.inside off .beg pos = false := decide_eq_false hin
      rw [seek_outside hinside, seekoff]
      refine ⟨fun _ => ?_, fun _ => ?_⟩
      · simp [Fits, hinside]
      · split
        · rw [blocks_place hstr hp, code_none fun pos => ?_]
          unfold shift block
          dsimp only
          rw [if_neg (by omega)]
        · rfl
  | cur =>
    rw [seekoff, if_congr (guard_iff hstr hp) rfl rfl]
    cases hallowed : p.allowed off .cur with
    | true =>
      rw [if_pos rfl, blocks_place hstr hp, place_pair_iff hstr, code_cur_iff hlen hp hallowed]
    | false =>
      have hseek : p.seek off .cur which = (p, -1) := by
        unfold seek
        dsimp only
        rw [hallowed]
        cases (p.asked_put which).or (p.asked_get which) <;> simp
      rw [hseek, if_neg Bool.false_ne_true]
      simp [Fits, hallowed]
  | «end» =>
    have htarget (pos : Int) : p.target off .end pos = p.length + off := rfl
    by_cases hin : 0 ≤ p.length + off ∧ p.length + off ≤ p.length
    · have hshift (pos : Int) : shift p.length off .end pos =
          some (pos + to_int (p.length + off - pos), pos + to_int (p.length + off - pos)) := by
        unfold shift block
        dsimp only
        rw [Int.sub_zero, Int.sub_zero, if_pos (by omega),
          show off + (p.length - pos) = p.length + off - pos by omega]
      rw [seekoff, if_pos (by omega), blocks_place hstr hp, place_pair_iff hstr,
        code_exact_iff _ (fun pos h => by rw [h]; omega) hshift htarget hin rfl]
      have hinside (pos : Int) : p.inside off .end pos = true := decide_eq_true hin
      simp [Fits, hinside, htarget]
    · have hinside (pos : Int) : p.inside off .end pos = false := decide_eq_false hin
      rw [seek_outside hinside, seekoff]
      refine ⟨fun _ => ?_, fun _ => ?_⟩
      · simp [Fits, hinside]
      · split
        · rw [blocks_place hstr hp, code_none fun pos => ?_]
          unfold shift block
          dsimp only
          rw [if_neg (by omega)]
        · rfl

/-- A seek never leads out of the array. -/
theorem seek_within (hp : p.Within) (off : Int) (dir : Seekdir) (which : Openmode) :
    (p.seek off dir which).1.Within := by
  have moved (asked own : Option Int) (hall : asked.all (p.inside off dir) = true)
      (hown : ∀ pos ∈ own, 0 ≤ pos ∧ pos ≤ p.length) :
      ∀ pos ∈ (asked.map (p.target off dir)).or own, 0 ≤ pos ∧ pos ≤ p.length := by
    cases asked with
    | none => exact hown
    | some pos =>
      rintro _ ⟨⟩
      exact of_decide_eq_true hall
  unfold seek
  dsimp only
  split
  · exact hp
  · split
    next hyes => exact ⟨moved _ _ hyes.2.1 hp.1, moved _ _ hyes.2.2 hp.2⟩
    · exact hp

end FixedbufLemmas

open FixedbufLemmas

open Transition

/-- The seeks of a run, with their offsets, directions and areas. -/
def Positions.next (p : Positions) (x : Int × Seekdir × Openmode) : Option (Int × Positions) :=
  some ((p.seek x.1 x.2.1 x.2.2).2, (p.seek x.1 x.2.1 x.2.2).1)

def seek_next (a : Areas) (x : Int × Seekdir × Openmode) : Option (Int × Areas) :=
  some ((seekoff a x.1 x.2.1 x.2.2).2, (seekoff a x.1 x.2.1 x.2.2).1)

/-- Seeks one after the other on a new buffer. -/
theorem seeks_run {str len : Int} (hstr : 0 < str) (hlen : 0 ≤ len) (mode : Openmode)
    (seeks : List (Int × Seekdir × Openmode))
    (hfits : Along Positions.next (fun p x => p.Fits x.1 x.2.1 x.2.2) (.initial len mode) seeks) :
    ∃ results p, play Positions.next (.initial len mode) seeks = some (results, p) ∧ p.Within ∧
      play seek_next (basic_fixedbuf str len mode) seeks = some (results, p.place str) := by
  have htotal (p : Positions) (x : Int × Seekdir × Openmode) :
      ∃ rc p', p.next x = some (rc, p') := ⟨_, _, rfl⟩
  obtain ⟨results, p, hplay⟩ := play_total htotal (.initial len mode) seeks
  have hstart (there : Bool) : ∀ pos ∈ if there then some (0 : Int) else none,
      0 ≤ pos ∧ pos ≤ len := by
    rintro pos hpos
    cases there with
    | true =>
      cases hpos
      exact ⟨Int.le_refl 0, hlen⟩
    | false => cases hpos
  have hinitial : (Positions.initial len mode).Within := ⟨hstart _, hstart _⟩
  have keep (p : Positions) (a : Areas) (x : Int × Seekdir × Openmode) (rc : Int) (p' : Positions)
      (h : a = p.place str ∧ p.Within ∧ 0 ≤ p.length) (hfit : p.Fits x.1 x.2.1 x.2.2)
      (hnext : p.next x = some (rc, p')) :
      ∃ a', seek_next a x = some (rc, a') ∧
        a' = p'.place str ∧ p'.Within ∧ 0 ≤ p'.length := by
    obtain ⟨rfl, hp, hlength⟩ := h
    cases hnext
    have hexact := (seekoff_exact_iff hstr hlength hp).mpr hfit
    refine ⟨_, ?_, rfl, seek_within hp _ _ _, ?_⟩
    · rw [seek_next, hexact]
    · rwa [seek_length]
  obtain ⟨a, hcode, hplace, hwithin, -⟩ :=
    play_follow keep ⟨basic_fixedbuf_eq str len mode, hinitial, hlen⟩ hfits hplay
  rw [hplace] at hcode
  exact ⟨results, p, hplay, hwithin, hcode⟩

end Kuhllib.Cxxrt.Fixedbuf
