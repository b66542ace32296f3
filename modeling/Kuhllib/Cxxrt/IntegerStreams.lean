import Kuhllib.Cxxrt.IntegerRoundTrip
import Kuhllib.Cxxrt.Ios
import Kuhllib.Cxxrt.Stringbuf

/-!
# `operator<<` and `operator>>` for integers

The streams write to a string buffer and read from it. The locale is the classic one, the
width is 0 and the fill character a space. The stream of a null buffer is not read.

Results:
1. `num_copy_spec`, `num_get_spec`: what is put into the string and taken from it.
2. `roundTrips_iff`: the values that come back.
-/

namespace Kuhllib.Cxxrt

/-- The integer types of the operators. -/
inductive IntType
  | short
  | int
  | long
  | unsigned (u : Unsigned)
  deriving DecidableEq, Repr

/-! `numeric_limits` -/

def IntType.min : IntType → Int
  | .short => -32768
  | .int => -2147483648
  | .long => long_min
  | .unsigned _ => 0

def IntType.max : IntType → Int
  | .short => 32767
  | .int => 2147483647
  | .long => long_max
  | .unsigned u => u.max

/-- What `operator<<` passes to `print`. The narrow signed types are cast to the unsigned
ones first. -/
def IntType.printed : IntType → Int → Int
  | .short, v => v % 2 ^ 16
  | .int, v => v % 2 ^ 32
  | .long, v => v
  | .unsigned _, v => v

/-- `long` is passed, or `unsigned long`. -/
def IntType.is_signed : IntType → Bool
  | .unsigned _ => false
  | _ => true

/-! ## The flags -/

/-- `oct`, `dec` and `hex` alone. -/
def Basefield.of (f : Fmt) : Basefield :=
  if f &&& 0xf = 0x7 then .oct
  else if f &&& 0xf = 0x9 then .dec
  else if f &&& 0xf = 0xf then .hex
  else .none

def Adjustfield.of (f : Fmt) : Adjustfield :=
  if f &&& 0x70 = 0x10 then .internal
  else if f &&& 0x70 = 0x20 then .left
  else if f &&& 0x70 = 0x40 then .right
  else .none

def Fmtflags.of (f : Fmt) : Fmtflags where
  basefield := .of f
  adjustfield := .of f
  showbase := f &&& 0x200 ≠ 0
  showpos := f &&& 0x800 ≠ 0
  uppercase := f &&& 0x4000 ≠ 0

/-! ## Output -/

section

variable {σ α : Type} (b : Streambuf σ α)

/-- Single characters, and whether one was not taken. -/
def put_each : σ → List α → Option (σ × Bool)
  | s, [] => some (s, false)
  | s, c :: cs => do
    let (s, r) ← b.sputc s c
    let (s, failed) ← put_each s cs
    some (s, r.isNone || failed)

/-- `_CS_num_copy` to a stream buffer. -/
def num_copy (s : σ) (cs : List α) : Option (σ × Bool) :=
  let a := b.areas s
  if (cs.length : Int) < a.pend - a.pcur then do
    let s ← b.write_chars (b.with_areas s (a.pbump cs.length)) a.pcur cs
    some (s, false)
  else put_each b s cs

end

variable {ι B : Type} [DecidableEq ι] (heap : Allocator Int)

/-- The streams and the string buffer that all of them have. -/
abbrev World (ι B : Type) := Streams ι B × Option (Stringbuf Int)

/-- `num_put::put`. -/
def put_integer (signed : Bool) (f : Fmt) (v : Int) (x : Option (Stringbuf Int)) :
    Option (Stringbuf Int) × Outcome :=
  let r := do
    let s ← x
    num_copy (Stringbuf.buf heap) s (new_num_put classic signed (.of f) 0 (widen ' ') v)
  match r with
  | none => (none, .done)
  | some (s, failed) => (some s, if failed then .failed else .done)

/-- `operator<<`, and whether it throws. -/
def insert (ty : IntType) (w : World ι B) (i : ι) (v : Int) : World ι B × Bool :=
  print (fun _ x => (x, false))
    (fun _ => put_integer heap ty.is_signed (w.1 i).flags (ty.printed v)) badbit w i

/-! ## Input -/

/-- The characters with the bit `space` in the classic table. -/
def is_space (c : Int) : Bool := c = 32 ∨ 9 ≤ c ∧ c ≤ 13

/-- The loop of `_CS_skip_ws` with the current character. -/
def skip_ws_loop : Nat → Stringbuf Int → Option Int → Option (Stringbuf Int × Bool)
  | 0, _, _ => none
  | fuel + 1, s, c =>
    match c with
    | none => some (s, true)
    | some c =>
      if is_space c then do
        let (s, c) ← (Stringbuf.buf heap).snextc s
        skip_ws_loop fuel s c
      else some (s, false)

/-- `_CS_skip_ws`; no more characters come than there are in the get area. -/
def skip_ws (s : Stringbuf Int) : Option (Stringbuf Int × Bool) := do
  let (s, c) ← (Stringbuf.buf heap).sgetc s
  skip_ws_loop heap ((s.areas.gend - s.areas.gcur).toNat + 1) s c

/-- `basic_istream::sentry(is, noskipws)`, and whether it throws. -/
def istream_sentry (noskipws : Bool) (w : World ι B) (i : ι) : World ι B × Bool :=
  if (w.1 i).good then
    let (w, threw) :=
      match (w.1 i).m_tie with
      | none => (w, false)
      | some t => flush (fun _ x => (x, false)) w t
    let (w, threw) :=
      if threw then (w, true)
      else if !noskipws && (w.1 i).flags &&& skipws ≠ 0 then
        match w.2.bind (skip_ws heap) with
        | none => ((w.1, none), false)
        | some (x, true) =>
          let (s, threw) := (w.1 i).setstate (eofbit ||| failbit)
          ((Function.update w.1 i s, some x), threw)
        | some (x, false) => ((w.1, some x), false)
      else (w, false)
    if threw then
      let (s, threw) := (w.1 i).process_exception
      ((Function.update w.1 i s, w.2), threw)
    else (w, false)
  else (w, false)

/-- `++` of the iterator. -/
def advance : Nat → Stringbuf Int → Option (Stringbuf Int)
  | 0, s => some s
  | k + 1, s => do
    let (s, _) ← (Stringbuf.buf heap).snextc s
    advance k s

/-- `num_get::get`, given by what it does with the characters that are left. -/
def num_get {V : Type} (get : List Int → Got V) (s : Stringbuf Int) :
    Option (Stringbuf Int × Got V) := do
  let input ← (Stringbuf.buf heap).read_chars s s.areas.gcur (s.areas.gend - s.areas.gcur).toNat
  let g := get input
  let s ← advance heap (input.length - g.begin.length) s
  some (s, g)

/-- `_CS_get_numeric`; what `val` holds at the end, and whether it throws. -/
def get_numeric {V : Type} (get : Basefield → List Int → V → Got V) (w : World ι B) (i : ι)
    (val : V) : World ι B × V × Bool :=
  let (w, threw) := istream_sentry heap false w i
  if threw then (w, val, true)
  else
    let (w, val, s, threw) :=
      if (w.1 i).good then
        match w.2.bind (num_get heap (get (.of (w.1 i).flags) · val)) with
        | none => ((w.1, none), val, w.1 i, false)
        | some (x, g) =>
          let err := (if g.failbit then failbit else goodbit) |||
            (if g.eofbit then eofbit else goodbit)
          ((w.1, some x), g.val, (w.1 i).setstate err)
      else (w, val, (w.1 i).setstate failbit)
    let (s, threw) := if threw then s.process_exception else (s, false)
    ((Function.update w.1 i s, w.2), val, threw)

/-- The value replaced by a limit of the type if it lies beyond it. -/
def IntType.clamp (ty : IntType) (v : Int) : Int :=
  if v < ty.min then ty.min else if v > ty.max then ty.max else v

/-- `operator>>`. The narrow signed types read a `long` that holds `tmp` before. -/
def extract (ty : IntType) (w : World ι B) (i : ι) (tmp val : Int) : World ι B × Int × Bool :=
  match ty with
  | .short | .int =>
    let (w, tmp, threw) := get_numeric heap (get_signed_integer classic) w i tmp
    (w, if threw then val else ty.clamp tmp, threw)
  | .long => get_numeric heap (get_signed_integer classic) w i val
  | .unsigned u =>
    let (w, val, threw) := get_numeric heap (get_unsigned_integer classic u) w i val.toNat
    (w, val, threw)

/-! ## 1. The string buffer -/

namespace IntegerStreamsLemmas

open Stringbuf StringbufLemmas

section

variable {heap : Allocator Int} {m : Openmode} {s : Stringbuf Int} {t : Text Int}

theorem put_each_spec (cs : List Int) (h : s.Refines m t) (hout : m.has ios_out = true)
    (hend : t.wpos = t.content.length) (hfits : t.content.length + cs.length < 2 ^ 31) : ∃ s',
      put_each (buf heap) s cs = some (s', false) ∧
        s'.Refines m ⟨t.content ++ cs, t.rpos, t.wpos + cs.length⟩ := by
  induction cs generalizing s t with
  | nil =>
    refine ⟨s, rfl, ?_⟩
    rw [List.append_nil]
    exact h
  | cons c cs ih =>
    rw [List.length_cons] at hfits
    have hput : t.put m c = some ⟨t.content ++ [c], t.rpos, t.wpos + 1⟩ := by
      rw [Text.put, if_pos hout, hend, List.take_length, List.drop_of_length_le (by omega)]
    obtain ⟨-, hsome⟩ := sputc_spec heap h (fun _ _ => by omega) c
    obtain ⟨s₁, hsputc, h₁⟩ := hsome _ hput
    have hlen : (t.content ++ [c]).length = t.content.length + 1 := by
      rw [List.length_append, List.length_singleton]
    obtain ⟨s', hrest, h'⟩ := ih h₁ (by rw [hlen, hend]) (by rw [hlen]; omega)
    refine ⟨s', ?_, ?_⟩
    · rw [put_each, hsputc]
      show Option.bind (put_each (buf heap) s₁ cs) _ = _
      rw [hrest]
      rfl
    · rw [List.length_cons, Nat.add_comm cs.length, ← Nat.add_assoc]
      rwa [List.append_assoc] at h'

/-- There is no room at the end of the content. -/
theorem num_copy_spec (heap : Allocator Int) (cs : List Int) (h : s.Refines m t) (hout : m.has ios_out = true)
    (hend : t.wpos = t.content.length) (hfits : t.content.length + cs.length < 2 ^ 31) : ∃ s',
      num_copy (buf heap) s cs = some (s', false) ∧
        s'.Refines m ⟨t.content ++ cs, t.rpos, t.wpos + cs.length⟩ := by
  obtain ⟨-, hcur, hpend⟩ := h.points.put (by rw [h.mode, hout])
  have hfull : ¬ (cs.length : Int) < s.areas.pend - s.areas.pcur := by omega
  obtain ⟨s', hput, h'⟩ := put_each_spec cs h hout hend hfits
  exact ⟨s', by rw [num_copy, buf_areas, if_neg hfull, hput], h'⟩

theorem skip_ws_spec (h : s.Refines m t) {c : Int} {cs : List Int} (hin : m.has ios_in = true)
    (hnext : t.content.drop t.rpos = c :: cs) (hspace : is_space c = false) :
    skip_ws heap s = some (s, false) := by
  have hget : (t.get m).map Prod.fst = some c := by
    have hhead : t.content[t.rpos]? = some c := by
      rw [← List.head?_drop, hnext]
      rfl
    rw [Text.get, if_pos hin, hhead]
    rfl
  rw [skip_ws, sgetc_spec heap h, hget]
  show skip_ws_loop heap _ s (some c) = _
  rw [skip_ws_loop]
  dsimp only
  rw [hspace, if_neg Bool.false_ne_true]

theorem advance_spec (heap : Allocator Int) (k : Nat) (h : s.Refines m t) (hin : m.has ios_in = true)
    (hk : t.rpos + k ≤ t.content.length) : ∃ s',
      advance heap k s = some s' ∧ s'.Refines m { t with rpos := t.rpos + k } := by
  induction k generalizing s t with
  | zero => exact ⟨s, rfl, h⟩
  | succ k ih =>
    have hlt : t.rpos < t.content.length := by omega
    have hget : t.get m = some (t.content[t.rpos], { t with rpos := t.rpos + 1 }) := by
      rw [Text.get, if_pos hin, List.getElem?_eq_getElem hlt]
      rfl
    obtain ⟨s₁, hsnextc, h₁⟩ := (snextc_spec heap h).2 _ _ hget
    obtain ⟨s', hrest, h'⟩ := ih h₁ (by dsimp only; omega)
    refine ⟨s', ?_, ?_⟩
    · rw [advance, hsnextc]
      exact hrest
    · rw [Nat.add_comm k, ← Nat.add_assoc]
      exact h'

/-- What is left of the input is left in the string. -/
theorem num_get_spec {V : Type} (heap : Allocator Int) (get : List Int → Got V) (h : s.Refines m t)
    (hin : m.has ios_in = true) : ∃ s',
      num_get heap get s = some (s', get (t.content.drop t.rpos)) ∧
        s'.Refines m { t with rpos := t.rpos +
          ((t.content.drop t.rpos).length - (get (t.content.drop t.rpos)).begin.length) } := by
  obtain ⟨-, hcur, hend⟩ := h.points.get (by rw [h.mode, hin])
  have hle := h.points.rpos_le
  have hroom : (s.areas.gend - s.areas.gcur).toNat = t.content.length - t.rpos := by omega
  have hread : (buf heap).read_chars s s.areas.gcur (t.content.length - t.rpos) =
      some (t.content.drop t.rpos) := by
    rw [hcur, read_chars_eq heap h.holds _ (by omega),
      List.take_of_length_le (Nat.le_of_eq List.length_drop)]
  obtain ⟨s', hadvance, h'⟩ := advance_spec heap
    ((t.content.drop t.rpos).length - (get (t.content.drop t.rpos)).begin.length) h hin (by
      rw [List.length_drop]
      omega)
  refine ⟨s', ?_, h'⟩
  rw [num_get, hroom, hread]
  show Option.bind (advance heap _ s) _ = _
  rw [hadvance]
  rfl

end

/-! ## 2. Integers -/

open NumPutLemmas IntegerGrammarLemmas IntegerInputLemmas IntegerRoundTripLemmas

/-- The default flags. -/
def plain : Fmtflags := ⟨.dec, .none, false, false, false⟩

theorem of_default : Fmtflags.of ((dec ||| skipws) &&& fmtmask) = plain := by decide

/-- The characters for a value of a `long` or an `unsigned long`. -/
theorem put_plain {signed : Bool} {v : Int} (fill : Int)
    (h : if signed then long_min ≤ v ∧ v ≤ long_max else 0 ≤ v ∧ v < 2 ^ 64) :
    ∃ q, new_num_put classic signed plain 0 fill v = q ++ body plain 10 v.natAbs ∧ Signed v q := by
  rw [new_num_put_eq]
  cases signed with
  | true =>
    obtain ⟨q, hq, hs⟩ := put_sign_eq plain v (body plain 10 v.natAbs)
    refine ⟨q, ?_, hs⟩
    obtain ⟨habs, -⟩ := natAbs_of_range h
    rw [← hq]
    simp only [plain, Basefield.put_base, put_prefix, put_digits_eq, decide_true, Bool.true_and,
      Bool.and_true, habs, List.append_nil, Bool.false_eq_true, if_false, if_true,
      show (1 < 10) from by decide]
    rfl
  | false =>
    obtain ⟨hlow, hhigh⟩ : 0 ≤ v ∧ v < 2 ^ 64 := h
    have habs : (v % 2 ^ 64).toNat = v.natAbs := by omega
    refine ⟨[], ?_, .nothing hlow⟩
    simp only [plain, Basefield.put_base, put_prefix, put_digits_eq, put_sign, Bool.false_and,
      habs, List.append_nil, Bool.false_eq_true, if_false, if_true, show (1 < 10) from by decide]
    rfl

/-- Every character is read. -/
theorem consumed_plain {v : Int} {q : List Int} (hq : Signed v q) :
    let xs := q ++ body plain 10 v.natAbs
    Consumed .dec xs xs (get_integer classic .dec xs) ∧ digitsOf xs ≠ [] ∧
      isNegative xs = decide (v < 0) ∧ magnitude .dec xs = v.natAbs := by
  have hw : Written .dec v.natAbs (body plain 10 v.natAbs) := written_dec plain v.natAbs
  have hrest : ∀ (c : Int) (cs : List Int), [] = c :: cs →
      (∀ d, digit c = some d → Basefield.dec.put_base ≤ d) ∧
        (body plain 10 v.natAbs = [widen '0'] → ¬ isHex c) := fun c cs he => by cases he
  have hlongest := longest_written hq hw hrest
  have hunsigned := unsignedPart_append hq hw.start hw.ne_nil []
  rw [List.append_nil] at hlongest hunsigned
  obtain ⟨p, h⟩ := get_integer_spec .dec (q ++ body plain 10 v.natAbs)
  obtain rfl : p = q ++ body plain 10 v.natAbs := longest_unique h.longest hlongest
  refine ⟨h, ?_, isNegative_append hq hw.start, ?_⟩
  · rw [digitsOf_append hq]
    exact hw.digits
  · rw [magnitude, hunsigned, List.append_nil, digitsOf_append hq, hw.value]

theorem read_end {v : Int} {q : List Int} (hq : Signed v q) :
    let g := get_integer classic .dec (q ++ body plain 10 v.natAbs)
    g.begin = [] ∧ g.failbit = false ∧ g.eofbit = true := by
  obtain ⟨h, hdigits, -, -⟩ := consumed_plain hq
  have hend := List.self_eq_append_right.mp h.split
  exact ⟨hend, Bool.eq_false_iff.mpr fun hfail => hdigits (h.failbit.mp hfail),
    h.eofbit.mpr (.inl hend)⟩

theorem read_signed {v : Int} {q : List Int} (hq : Signed v q)
    (hrange : long_min ≤ v ∧ v ≤ long_max) (val : Int) :
    (get_signed_integer classic .dec (q ++ body plain 10 v.natAbs) val).val = v := by
  obtain ⟨h, hdigits, hneg, hmag⟩ := consumed_plain hq
  have hvalue : signedValue .dec (q ++ body plain 10 v.natAbs) = v := by
    rw [signedValue, hneg, hmag]
    rcases Int.lt_or_le v 0 with hv | hv
    · rw [if_pos (decide_eq_true hv)]
      omega
    · rw [decide_eq_false (Int.not_lt.mpr hv), if_neg Bool.false_ne_true]
      omega
  rw [signed_read val h hdigits, hvalue, limited, if_neg (Int.not_lt.mpr hrange.2),
    if_neg (Int.not_lt.mpr hrange.1)]

theorem read_unsigned {u : Unsigned} {v : Int} {q : List Int} (hq : Signed v q)
    (hrange : 0 ≤ v ∧ v ≤ u.max) (val : Nat) :
    (get_unsigned_integer classic u .dec (q ++ body plain 10 v.natAbs) val).val = v.toNat := by
  obtain ⟨h, hdigits, hneg, hmag⟩ := consumed_plain hq
  have hle := le_ulong_max u
  have hulong : ulong_max + 1 = 2 ^ 64 := by decide
  have hcapacity : v.natAbs < capacity 10 := by
    rw [capacity, if_neg (by decide)]
    omega
  rw [unsigned_read u val h hdigits, hmag]
  show (if v.natAbs < capacity 10 then u.limited .dec _ else _) = _
  rw [if_pos hcapacity, Unsigned.limited, hmag, hneg,
    if_neg (by omega), decide_eq_false (Int.not_lt.mpr hrange.1), if_neg Bool.false_ne_true]
  omega

/-- The characters fit into a short string, and the first one is not skipped. -/
theorem plain_chars {v : Int} {q : List Int} (hq : Signed v q) (hv : v.natAbs < 2 ^ 64) :
    (q ++ body plain 10 v.natAbs).length ≤ 21 ∧
      ∃ c cs, q ++ body plain 10 v.natAbs = c :: cs ∧ is_space c = false := by
  have hdigit {c : Int} {d : Nat} (hd : digit c = some d) : is_space c = false := by
    refine decide_eq_false fun hspace => ?_
    unfold digit at hd
    rw [if_neg (by omega), if_neg (by omega), if_neg (by omega)] at hd
    cases hd
  constructor
  · have hq : q.length ≤ 1 := by
      cases hq <;> exact (by decide)
    have hlen : (numeral 10 v.natAbs).length ≤ 20 := by
      unfold numeral
      split
      · decide
      · rw [List.length_reverse, Nat.digits_length_le_iff (by decide)]
        omega
    rw [List.length_append, body, List.length_map]
    omega
  · cases hq with
    | nothing =>
      obtain ⟨hall, -⟩ := digits_body plain (by decide : 1 < 10) (by decide) v.natAbs
      cases hbody : body plain 10 v.natAbs with
      | nil =>
        rw [body, List.map_eq_nil_iff] at hbody
        exact absurd hbody (numeral_ne_nil 10 _)
      | cons c cs =>
        obtain ⟨d, hd, -⟩ := hall c (by rw [hbody]; exact List.mem_cons_self)
        exact ⟨c, cs, rfl, hdigit hd⟩
    | plus => exact ⟨_, _, rfl, by decide⟩
    | minus => exact ⟨_, _, rfl, by decide⟩

/-! The streams -/

section

variable {ι B : Type} [DecidableEq ι] {heap : Allocator Int} {m : Openmode}
  {s : Stringbuf Int} {t : Text Int} {w : Streams ι B} {i : ι} {b : B}

omit [DecidableEq ι] in
theorem basic_ios_on_eq :
    (.basic_ios_on (some b) : Ios ι B) = ⟨dec ||| skipws, some b, goodbit, goodbit, none⟩ := rfl

theorem skip_default :
    (!false && decide ((dec ||| skipws) &&& fmtmask &&& skipws ≠ 0)) = true := by
  decide

theorem base_default : Basefield.of ((dec ||| skipws) &&& fmtmask) = .dec := by decide

theorem need_default : decide ((dec ||| skipws) &&& os_check ≠ 0) = false := by decide

theorem insert_spec {ty : IntType} {v : Int} (hw : w i = .basic_ios_on (some b))
    (h : s.Refines m t) (hout : m.has ios_out = true) (hend : t.wpos = t.content.length)
    {xs : List Int} (hxs : new_num_put classic ty.is_signed plain 0 (widen ' ') (ty.printed v) = xs)
    (hfits : t.content.length + xs.length < 2 ^ 31) : ∃ s',
      insert heap ty (w, some s) i v = ((w, some s'), false) ∧
        s'.Refines m ⟨t.content ++ xs, t.rpos, t.wpos + xs.length⟩ := by
  obtain ⟨s', hcopy, h'⟩ := num_copy_spec heap xs h hout hend hfits
  refine ⟨s', ?_, h'⟩
  have hflags : Fmtflags.of (w i).flags = plain := by
    rw [hw]
    exact of_default
  have hneed : (w i).need_osentry = false := by
    rw [hw, basic_ios_on_eq]
    exact need_default
  unfold insert print
  dsimp only
  rw [hneed, if_pos (by decide)]
  unfold try_output put_integer
  rw [hflags, hxs]
  dsimp only [Option.bind_eq_bind, Option.bind_some]
  rw [hcopy]
  dsimp only
  rw [if_neg Bool.false_ne_true]
  dsimp only
  rw [Function.update_eq_self]

/-- There is nothing to skip. -/
theorem istream_sentry_spec (hw : w i = .basic_ios_on (some b)) (h : s.Refines m t)
    (hin : m.has ios_in = true) {c : Int} {cs : List Int}
    (hnext : t.content.drop t.rpos = c :: cs) (hspace : is_space c = false) :
    istream_sentry heap false (w, some s) i = ((w, some s), false) := by
  have hgood : (w i).good = true := by
    rw [hw]
    rfl
  have htie : (w i).m_tie = none := by
    rw [hw]
    rfl
  have hskip : (!false && decide ((w i).flags &&& skipws ≠ 0)) = true := by
    rw [hw]
    exact skip_default
  unfold istream_sentry
  rw [if_pos hgood]
  simp only [htie, hskip, Option.bind_some, skip_ws_spec h hin hnext hspace, if_true,
    Bool.false_eq_true, if_false]

omit [DecidableEq ι] in
/-- A stream without exceptions does not throw. -/
theorem setstate_new (b : B) {err : Iostate} (herr : err &&& failbit = 0) :
    ((.basic_ios_on (some b) : Ios ι B).setstate err).2 = false ∧
      ((.basic_ios_on (some b) : Ios ι B).setstate err).1.m_state &&& failbit = 0 := by
  have hmask : err &&& goodbit = 0 := BitVec.and_zero
  have hstate : goodbit ||| err = err := BitVec.zero_or
  unfold Ios.setstate Ios.clear
  simp only [basic_ios_on_eq, Option.isNone_some, Bool.false_eq_true, if_false, hstate, hmask,
    ne_eq, not_true]
  split <;> exact ⟨rfl, herr⟩

/-- A value is read from the stream at `i`. -/
theorem get_numeric_spec {V : Type} (heap : Allocator Int) (get : Basefield → List Int → V → Got V)
    (val : V)
    (hw : w i = .basic_ios_on (some b)) (h : s.Refines m t) (hin : m.has ios_in = true)
    {c : Int} {cs : List Int} (hnext : t.content.drop t.rpos = c :: cs)
    (hspace : is_space c = false) (hread : (get .dec (c :: cs) val).failbit = false) : ∃ w' s',
      get_numeric heap get (w, some s) i val =
        ((w', some s'), (get .dec (c :: cs) val).val, false) ∧
      (w' i).m_state &&& failbit = 0 := by
  obtain ⟨s', hget, -⟩ := num_get_spec heap (get .dec · val) h hin
  rw [hnext] at hget
  have hgood : (w i).good = true := by
    rw [hw]
    rfl
  have hdec : Basefield.of (w i).flags = .dec := by
    rw [hw]
    exact base_default
  unfold get_numeric
  rw [istream_sentry_spec hw h hin hnext hspace]
  simp only [hgood, hdec, Option.bind_some, hget, hread, if_true, Bool.false_eq_true, if_false]
  have herr : (goodbit ||| if (get .dec (c :: cs) val).eofbit then eofbit else goodbit) &&&
      failbit = 0 := by
    split <;> decide
  obtain ⟨hthrow, hstate⟩ := setstate_new (ι := ι) b herr
  rw [← hw] at hthrow hstate
  refine ⟨_, s', by rw [hthrow, if_neg Bool.false_ne_true], ?_⟩
  rw [Function.update_self]
  exact hstate

/-- The value is in the range of the type that is passed. -/
theorem printed_range {ty : IntType} {v : Int} (hv : ty.min ≤ v ∧ v ≤ ty.max) :
    if ty.is_signed then long_min ≤ ty.printed v ∧ ty.printed v ≤ long_max
    else 0 ≤ ty.printed v ∧ ty.printed v < 2 ^ 64 := by
  have hmin : long_min = -2 ^ 63 := by decide
  have hmax : long_max = 2 ^ 63 - 1 := by decide
  cases ty with
  | short | int =>
    simp only [IntType.is_signed, if_true, IntType.printed]
    omega
  | long => exact hv
  | unsigned u =>
    have hle := le_ulong_max u
    have hulong : ulong_max + 1 = 2 ^ 64 := by decide
    obtain ⟨hlow, hhigh⟩ : 0 ≤ v ∧ v ≤ (u.max : Int) := hv
    simp only [IntType.is_signed, Bool.false_eq_true, if_false, IntType.printed]
    omega

/-- The new string buffer with a value in it. -/
theorem inserted (heap : Allocator Int) {ty : IntType} {v : Int} (hw : w i = .basic_ios_on (some b))
    (hout : m.has ios_out = true) (hv : ty.min ≤ v ∧ v ≤ ty.max) : ∃ q s' c cs,
      (insert heap ty (w, some (basic_stringbuf heap [] m)) i v).1 = (w, some s') ∧
        Signed (ty.printed v) q ∧ q ++ body plain 10 (ty.printed v).natAbs = c :: cs ∧
        is_space c = false ∧ s'.Refines m ⟨c :: cs, 0, (c :: cs).length⟩ := by
  have hrange := printed_range hv
  obtain ⟨q, hxs, hq⟩ := put_plain (widen ' ') hrange
  have habs : (ty.printed v).natAbs < 2 ^ 64 := by
    have hmin : long_min = -2 ^ 63 := by decide
    have hmax : long_max = 2 ^ 63 - 1 := by decide
    split at hrange <;> omega
  obtain ⟨hlen, c, cs, hcs, hspace⟩ := plain_chars hq habs
  rw [hcs] at hxs hlen
  obtain ⟨s', hinsert, h'⟩ := insert_spec hw (basic_stringbuf_refines heap []) hout rfl hxs
    (Nat.lt_of_le_of_lt (Nat.add_le_add_left hlen _) (by decide))
  rw [List.nil_append, Nat.zero_add] at h'
  exact ⟨q, s', c, cs, by rw [hinsert], hq, hcs, hspace, h'⟩

/-- What comes back for a value. -/
def back (ty : IntType) (v : Int) : Int :=
  if (ty = .short ∨ ty = .int) ∧ v < 0 then ty.max else v

/-- A negative value is passed as one that is too large. -/
theorem clamp_printed {ty : IntType} {v : Int} (hty : ty = .short ∨ ty = .int)
    (hv : ty.min ≤ v ∧ v ≤ ty.max) : ty.clamp (ty.printed v) = back ty v := by
  obtain ⟨hmin, hlow, hneg, hpos⟩ : ty.min < 0 ∧ 0 ≤ ty.printed v ∧
      (v < 0 → ty.max < ty.printed v) ∧ (0 ≤ v → ty.printed v = v) := by
    rcases hty with rfl | rfl
    · have hv : -32768 ≤ v ∧ v ≤ 32767 := hv
      show -32768 < 0 ∧ 0 ≤ v % 2 ^ 16 ∧ (v < 0 → 32767 < v % 2 ^ 16) ∧ (0 ≤ v → v % 2 ^ 16 = v)
      omega
    · have hv : -2147483648 ≤ v ∧ v ≤ 2147483647 := hv
      show -2147483648 < 0 ∧ 0 ≤ v % 2 ^ 32 ∧ (v < 0 → 2147483647 < v % 2 ^ 32) ∧
        (0 ≤ v → v % 2 ^ 32 = v)
      omega
  unfold IntType.clamp back
  rw [if_neg (by omega)]
  rcases Int.lt_or_le v 0 with h | h
  · rw [if_pos (hneg h), if_pos ⟨hty, h⟩]
  · rw [hpos h, if_neg (Int.not_lt.mpr hv.2), if_neg fun hbad => Int.not_lt.mpr h hbad.2]

theorem extracted (heap : Allocator Int) {ty : IntType} {v : Int} {q : List Int} {c : Int}
    {cs : List Int} {n : Nat} (tmp val : Int) (hw : w i = .basic_ios_on (some b))
    (hin : m.has ios_in = true) (hv : ty.min ≤ v ∧ v ≤ ty.max) (hq : Signed (ty.printed v) q)
    (hcs : q ++ body plain 10 (ty.printed v).natAbs = c :: cs) (hspace : is_space c = false)
    (h : s.Refines m ⟨c :: cs, 0, n⟩) : ∃ w' s',
      extract heap ty (w, some s) i tmp val = ((w', some s'), back ty v, false) ∧
        (w' i).m_state &&& failbit = 0 := by
  have hmin : long_min = -2 ^ 63 := by decide
  have hmax : long_max = 2 ^ 63 - 1 := by decide
  have hend := (read_end hq).2.1
  have hrange := printed_range hv
  rw [hcs] at hend
  -- a value of a signed type is read as the one that was printed
  have hsigned (hrange : long_min ≤ ty.printed v ∧ ty.printed v ≤ long_max) (start : Int) :
      ∃ w' s', get_numeric heap (get_signed_integer classic) (w, some s) i start =
          ((w', some s'), ty.printed v, false) ∧ (w' i).m_state &&& failbit = 0 := by
    have hval := read_signed hq hrange start
    rw [hcs] at hval
    obtain ⟨w', s', hget, hstate⟩ := get_numeric_spec heap
      (get_signed_integer classic) start hw h hin rfl hspace hend
    exact ⟨w', s', hval ▸ hget, hstate⟩
  cases ty with
  | short =>
    obtain ⟨w', s', hget, hstate⟩ := hsigned hrange tmp
    refine ⟨w', s', ?_, hstate⟩
    unfold extract
    rw [hget]
    dsimp only
    rw [if_neg Bool.false_ne_true, clamp_printed (.inl rfl) hv]
  | int =>
    obtain ⟨w', s', hget, hstate⟩ := hsigned hrange tmp
    refine ⟨w', s', ?_, hstate⟩
    unfold extract
    rw [hget]
    dsimp only
    rw [if_neg Bool.false_ne_true, clamp_printed (.inr rfl) hv]
  | long =>
    obtain ⟨w', s', hget, hstate⟩ := hsigned hrange val
    exact ⟨w', s', hget, hstate⟩
  | unsigned u =>
    have hval := read_unsigned (u := u) hq hv val.toNat
    rw [hcs] at hval
    obtain ⟨w', s', hget, hstate⟩ := get_numeric_spec heap
      (get_unsigned_integer classic u) val.toNat hw h hin rfl hspace hend
    refine ⟨w', s', ?_, hstate⟩
    rw [extract, hget, hval]
    dsimp only
    rw [back, if_neg (fun hno => by rcases hno.1 with hty | hty <;> cases hty)]
    exact congrArg _ (congrArg (·, false) (Int.toNat_of_nonneg hv.1))

end

end IntegerStreamsLemmas

section

open Stringbuf StringbufLemmas IntegerStreamsLemmas IntegerRoundTripLemmas

variable {ι B : Type} [DecidableEq ι]

/-- A value is written to a new string buffer through `o` and read through `i`, where the
target and the temporary variable hold anything before. -/
def RoundTrips (heap : Allocator Int) (m : Openmode) (b : B) (o i : ι) (ty : IntType) (v : Int) :
    Prop :=
  ∀ tmp val : Int,
    let w : World ι B := (constructed fun _ => some (some b), some (basic_stringbuf heap [] m))
    let r := extract heap ty (insert heap ty w o v).1 i tmp val
    r.1.2.isSome ∧ r.2.2 = false ∧ r.2.1 = v ∧ (r.1.1 i).m_state &&& failbit = 0

namespace IntegerStreamsLemmas

theorem roundTrips_iff_back {heap : Allocator Int} {m : Openmode} {b : B} {o i : ι} {ty : IntType}
    {v : Int} (hin : m.has ios_in = true) (hout : m.has ios_out = true)
    (hv : ty.min ≤ v ∧ v ≤ ty.max) : RoundTrips heap m b o i ty v ↔ back ty v = v := by
  have hnew (j : ι) : (constructed fun _ => some (some b) : Streams ι B) j =
      .basic_ios_on (some b) := rfl
  obtain ⟨q, s', c, cs, hinsert, hq, hcs, hspace, h'⟩ := inserted heap (hnew o) hout hv
  have hback (tmp val : Int) := extracted heap tmp val (hnew i) hin hv hq hcs hspace h'
  unfold RoundTrips
  dsimp only
  rw [hinsert]
  constructor
  · intro h
    obtain ⟨w', s'', hext, -⟩ := hback 0 0
    obtain ⟨-, -, hgot, -⟩ := h 0 0
    rwa [hext] at hgot
  · intro hsame tmp val
    obtain ⟨w', s'', hext, hstate⟩ := hback tmp val
    rw [hext]
    exact ⟨rfl, rfl, hsame, hstate⟩

end IntegerStreamsLemmas

/-- Exactly the negative values of `short` and `int` do not come back. -/
theorem roundTrips_iff (heap : Allocator Int) {m : Openmode} (b : B) (o i : ι) {ty : IntType}
    {v : Int} (hin : m.has ios_in = true) (hout : m.has ios_out = true)
    (hv : ty.min ≤ v ∧ v ≤ ty.max) :
    RoundTrips heap m b o i ty v ↔ ¬ ((ty = .short ∨ ty = .int) ∧ v < 0) := by
  rw [roundTrips_iff_back hin hout hv, back]
  constructor
  · intro h hbad
    rw [if_pos hbad] at h
    have hpos : 0 ≤ ty.max := by
      rcases hbad.1 with rfl | rfl <;> decide
    exact absurd hbad.2 (Int.not_lt.mpr (h ▸ hpos))
  · intro h
    rw [if_neg h]

/-- Arrays that lie far apart. -/
def exInts : Allocator Int where
  address n := 1099511627776 * (n + 1)
  address_pos := ex_address_pos
  junk := 0

theorem roundTrips_long_min : RoundTrips exInts ios_inout () () () .long long_min :=
  (roundTrips_iff exInts () () () (by decide) (by decide) (by decide)).mpr (by decide)

/-- `65535` is written. -/
theorem not_roundTrips : ¬ RoundTrips exInts ios_inout () () () .short (-1) := by
  rw [roundTrips_iff_back (by decide) (by decide) (by decide)]
  decide

end

end Kuhllib.Cxxrt
