import Kuhllib.Cxxrt.NumPutGrouping
import Kuhllib.Cxxrt.NumPutPadding
import Kuhllib.Cxxrt.Sinks

/-!
# `operator<<` on a sink that is full

Characters, strings and integers are padded to the width. Most characters are given to `sputc`
and what it returns is dropped: a single character and the fill characters around it, a string
that is padded and all of a narrow string. The iterator of `num_put` keeps in mind what is refused,
but not for the fill characters. Only `sputn` for an unpadded string counts all of it.

The virtual function `sync` of the buffers is that of `basic_streambuf`, which does nothing.

Results:
1. `new_num_put_to_eq`: the characters of an integer are those that `do_put` gives.
2. `put_sink`: how many characters an inserter writes, and how many it looks at.
3. `insertion_reports_iff`: when the state of the stream tells that characters are lost.
-/

namespace Kuhllib.Cxxrt

section

variable {σ α : Type} (b : Streambuf σ α) (adjust : Adjustfield) (fill : α)

/-- `sputc` for each character, whatever it returns. -/
def sputc_each (cs : List α) (s : σ) : Option σ := (put_each b s cs).map Prod.fst

/-- `for (streamsize n = width; n-- > len; ) sputc(fill());`. -/
def sputc_fill (width len : Int) (s : σ) : Option σ :=
  sputc_each b (List.replicate (width - len).toNat fill) s

/-- The buffer and the width afterwards. -/
def print_char (c : α) (width : Int) (s : σ) : Option (σ × Int) :=
  if width = 0 then (sputc_each b [c] s).map (·, width)
  else
    let out := match adjust with
      | .left => do
        let s ← sputc_each b [c] s
        sputc_fill b fill width 1 s
      | .internal | .right | .none => do
        let s ← sputc_fill b fill width 1 s
        sputc_each b [c] s
    out.map (·, 0)

/-- The buffer and the width afterwards, and whether `failbit` is set. -/
def print_string_intern (str : List α) (width : Int) (s : σ) : Option (σ × Int × Bool) :=
  if width ≤ str.length then do
    let (s, n) ← b.sputn s str
    some (s, 0, n ≠ str.length)
  else
    let out := match adjust with
      | .left => do
        let s ← sputc_each b str s
        sputc_fill b fill width str.length s
      | .internal | .right | .none => do
        let s ← sputc_fill b fill width str.length s
        sputc_each b str s
    out.map (·, 0, false)

/-- `operator<<` for a `char const*` and a stream of other characters. Without an adjustment
nothing is filled in. -/
def print_narrow_string (widen : Char → α) (str : List Char) (width : Int) (s : σ) :
    Option (σ × Int) :=
  let text := str.map widen
  let out :=
    if width ≤ str.length then sputc_each b text s
    else match adjust with
      | .left => do
        let s ← sputc_each b text s
        sputc_fill b fill width str.length s
      | .internal | .right => do
        let s ← sputc_fill b fill width str.length s
        sputc_each b text s
      | .none => sputc_each b text s
  out.map (·, 0)

end

/-- `_CS_new_num_put` to an iterator for a stream buffer, and the width afterwards. -/
def new_num_put_to {σ : Type} (b : Streambuf σ Int) (t : Cache) (signed : Bool) (fmt : Fmtflags)
    (fill val : Int) (width : Int) (it : OstreambufIterator σ) :
    Option (OstreambufIterator σ × Int) :=
  let cvt := if fmt.uppercase then t.upper_table else t.lower_table
  let (begin, fillpos) := format cvt signed fmt t.grouping val
  if width ≠ 0 then
    let f := to_int (width - begin.length)
    let out :=
      if f > 0 then do
        let it ← it.num_copy_area b (begin.take (begin.length - fillpos.length))
        let it ← it.fill_n_area b f fill
        it.num_copy_area b fillpos
      else it.num_copy_area b begin
    out.map (·, 0)
  else (it.num_copy_area b begin).map (·, width)

/-! ## The inserters -/

/-- What is written. A character and a string of another type are converted before, a narrow
string on a stream of other characters is converted while it is written. -/
inductive Inserter
  | char (c : Int)
  | string (str : Option (List Int))
  | narrow_string (str : List Char)
  | integer (ty : IntType) (val : Int)
  deriving DecidableEq, Repr

/-- The fill character of the stream, and the facets of its locale. -/
structure Formatting where
  fill : Int
  cache : Cache
  widen : Char → Int

/-- `_CS_null::_CS_str()`. -/
def null_str : List Int := "(null)".toList.map widen

/-- The sinks, and the width of the stream. -/
abbrev Output (B σ : Type) := Option ((B → σ) × Int)

section

variable {ι B σ : Type} [DecidableEq ι] [DecidableEq B]

/-- Characters written to the buffer of the stream. -/
def emit_to (put : Int → σ → Option (σ × Int × Bool)) (sb : Option B) (x : Output B σ) :
    Output B σ × Outcome :=
  let r := do
    let sb ← sb
    let (sinks, width) ← x
    let (s, width, failed) ← put width (sinks sb)
    some ((Function.update sinks sb s, width), failed)
  match r with
  | none => (none, .done)
  | some (x, failed) => (some x, if failed then .failed else .done)

namespace Inserter

variable (b : Streambuf σ Int) (m : Formatting)

/-- The output in the `try` block. -/
def put (f : Fmt) : Inserter → Int → σ → Option (σ × Int × Bool)
  | .char c, width, s =>
    (print_char b (.of f) m.fill c width s).map fun r => (r.1, r.2, false)
  | .string str, width, s => print_string_intern b (.of f) m.fill (str.getD null_str) width s
  | .narrow_string str, width, s =>
    (print_narrow_string b (.of f) m.fill m.widen str width s).map fun r => (r.1, r.2, false)
  | .integer ty val, width, s =>
    let it := ⟨s, false⟩
    (new_num_put_to b m.cache ty.is_signed (.of f) m.fill (ty.printed val) width it).map
      fun r => (r.1.m_sbuf, r.2, r.1.fail)

/-- `operator<<`, and whether it throws. -/
def insert (ins : Inserter) (w : Streams ι B × Output B σ) (i : ι) :
    (Streams ι B × Output B σ) × Bool :=
  let emit := emit_to (ins.put b m (w.1 i).flags)
  match ins with
  | .char _ | .narrow_string _ => sentry_output (fun _ x => (x, false)) emit failbit false w i
  | .string _ => print (fun _ x => (x, false)) emit failbit w i
  | .integer _ _ => print (fun _ x => (x, false)) emit badbit w i

/-- The characters without padding. -/
def text (f : Fmt) : Inserter → List Int
  | .char c => [c]
  | .string str => str.getD null_str
  | .narrow_string str => str.map m.widen
  | .integer ty val => (do_put m.cache ty.is_signed (.of f) 0 m.fill (ty.printed val)).1

/-- The characters and the padding are written, and if fewer characters are taken the state says
so. -/
def Reports (left : σ → Nat) (ins : Inserter) (st : Streams ι B) (sinks : B → σ) (width : Int)
    (i : ι) (sb : B) : Prop :=
  ∃ st' sinks' width' threw,
    ins.insert b m (st, some (sinks, width)) i = ((st', some (sinks', width')), threw) ∧
    (((left (sinks sb) - left (sinks' sb) : Nat) : Int) <
      max width (ins.text m (st i).flags).length → (st' i).fail = true)

end Inserter

end

/-- The fill characters are written behind all others. -/
def Fmtflags.Trailing (fmt : Fmtflags) : Prop :=
  fmt.adjustfield = .left ∨ fmt.adjustfield = .internal ∧ fmt.basefield = .oct

instance (fmt : Fmtflags) : Decidable fmt.Trailing := inferInstanceAs (Decidable (_ ∨ _ ∧ _))

/-- All characters are taken, or one that is looked at is not. The padding of a narrow string and
of an integer is to be complete, too. -/
def Inserter.Notices (m : Formatting) (f : Fmt) (width : Int) (left : Nat) (ins : Inserter) :
    Prop :=
  let n := (ins.text m f).length
  match ins with
  | .char _ => max width n ≤ left
  | .string _ => width ≤ n ∨ width ≤ left
  | .narrow_string _ => max width n ≤ left ∧ (width ≤ n ∨ Adjustfield.of f ≠ .none)
  | .integer _ _ =>
    left < (if (Fmtflags.of f).Trailing then n else n + fill_count width n) ∨
      max width n ≤ left ∧ width ≤ n + fill_count width n

/-! ## 1. What is used up -/

namespace OstreamInsertersLemmas

open BufferIteratorsLemmas SinksLemmas NumPutLemmas NumPutGroupingLemmas NumPutPaddingLemmas

/-- `f` uses up `n` characters. -/
def Spends {σ : Type} (ok : σ → Prop) (left : σ → Nat) (f : σ → Option σ) (n : Nat) : Prop :=
  ∀ s, ok s → ∃ s', f s = some s' ∧ ok s' ∧ left s' = left s - n

section

variable {σ α : Type} {b : Streambuf σ α} {ok : σ → Prop} {left : σ → Nat} {s : σ}

theorem Spends.bind {f g : σ → Option σ} {m n : Nat} (hf : Spends ok left f m)
    (hg : Spends ok left g n) : Spends ok left (fun s => (f s).bind g) (m + n) := by
  intro s hok
  obtain ⟨s₁, hs₁, hok₁, hleft₁⟩ := hf s hok
  obtain ⟨s₂, hs₂, hok₂, hleft₂⟩ := hg s₁ hok₁
  refine ⟨s₂, ?_, hok₂, by rw [hleft₂, hleft₁, Nat.sub_sub]⟩
  show (f s).bind g = some s₂
  rw [hs₁, Option.bind_some, hs₂]

theorem sputc_each_spends (h : b.Sink ok left) (cs : List α) :
    Spends ok left (sputc_each b cs) cs.length := by
  intro s hok
  obtain ⟨s', hput, hok', hleft'⟩ := put_each_sink h hok cs
  refine ⟨s', ?_, hok', hleft'⟩
  rw [sputc_each, hput]
  rfl

theorem sputc_each_append (cs ds : List α) (s : σ) :
    sputc_each b (cs ++ ds) s = (sputc_each b cs s).bind (sputc_each b ds) := by
  induction cs generalizing s with
  | nil => rfl
  | cons c cs ih =>
    unfold sputc_each at ih ⊢
    rw [List.cons_append, put_each_cons_fst, put_each_cons_fst, Option.bind_assoc]
    exact congrArg _ (funext fun r => ih r.1)

theorem sputc_fill_spends (h : b.Sink ok left) (fill : α) (width len : Int) :
    Spends ok left (sputc_fill b fill width len) (width - len).toNat := by
  have hspends := sputc_each_spends h (List.replicate (width - len).toNat fill)
  rwa [List.length_replicate] at hspends

/-- Nothing is noticed. -/
theorem print_char_sink (h : b.Sink ok left) (hok : ok s) (adjust : Adjustfield) (fill c : α)
    (width : Int) : ∃ s' width', print_char b adjust fill c width s = some (s', width') ∧
      left s' = left s - (1 + (width - 1).toNat) := by
  have hchar := sputc_each_spends h [c]
  have hfill := sputc_fill_spends h fill width 1
  unfold print_char
  split
  · next hzero =>
    obtain ⟨s', hs', -, hleft'⟩ := hchar s hok
    refine ⟨s', width, congrArg (Option.map (·, width)) hs', ?_⟩
    rw [hleft', hzero]
    rfl
  · cases adjust with
    | left =>
      obtain ⟨s', hs', -, hleft'⟩ := hchar.bind hfill s hok
      exact ⟨s', 0, congrArg (Option.map (·, 0)) hs', hleft'⟩
    | internal | right | none =>
      obtain ⟨s', hs', -, hleft'⟩ := hfill.bind hchar s hok
      rw [Nat.add_comm] at hleft'
      exact ⟨s', 0, congrArg (Option.map (·, 0)) hs', hleft'⟩

theorem print_narrow_string_sink (h : b.Sink ok left) (hok : ok s) (adjust : Adjustfield)
    (fill : α) (widen : Char → α) (str : List Char) (width : Int) : ∃ s' width',
      print_narrow_string b adjust fill widen str width s = some (s', width') ∧
        left s' = left s -
          (str.length + if adjust = .none then 0 else (width - str.length).toNat) := by
  have htext := sputc_each_spends h (str.map widen)
  have hfill := sputc_fill_spends h fill width str.length
  rw [List.length_map] at htext
  unfold print_narrow_string
  dsimp only
  split
  · next hle =>
    obtain ⟨s', hs', -, hleft'⟩ := htext s hok
    refine ⟨s', 0, congrArg (Option.map (·, 0)) hs', ?_⟩
    rw [hleft', Int.toNat_of_nonpos (Int.sub_nonpos_of_le hle), ite_self, Nat.add_zero]
  · cases adjust with
    | left =>
      obtain ⟨s', hs', -, hleft'⟩ := htext.bind hfill s hok
      exact ⟨s', 0, congrArg (Option.map (·, 0)) hs', hleft'⟩
    | internal | right =>
      obtain ⟨s', hs', -, hleft'⟩ := hfill.bind htext s hok
      rw [Nat.add_comm] at hleft'
      exact ⟨s', 0, congrArg (Option.map (·, 0)) hs', hleft'⟩
    | none =>
      obtain ⟨s', hs', -, hleft'⟩ := htext s hok
      exact ⟨s', 0, congrArg (Option.map (·, 0)) hs', hleft'⟩

/-- Only an unpadded string is looked at. -/
theorem print_string_intern_sink (h : b.Sink ok left) (hok : ok s) (adjust : Adjustfield)
    (fill : α) {str : List α} (width : Int) (hshort : Short b s str) : ∃ s' width',
      print_string_intern b adjust fill str width s = some (s', width',
        decide (left s < if width ≤ str.length then str.length else 0)) ∧
      left s' = left s - (str.length + (width - str.length).toNat) := by
  have htext := sputc_each_spends h str
  have hfill := sputc_fill_spends h fill width str.length
  unfold print_string_intern
  split
  · next hle =>
    obtain ⟨s', hput, hleft'⟩ := sputn_sink h hok hshort
    refine ⟨s', 0, ?_, ?_⟩
    · have hiff : min (left s) str.length ≠ str.length ↔ left s < str.length := by
        rw [ne_eq, min_eq_right_iff, Nat.not_le]
      rw [hput]
      simp only [Option.bind_eq_bind, Option.bind_some, hiff]
    · rw [hleft', Int.toNat_of_nonpos (Int.sub_nonpos_of_le hle), Nat.add_zero]
  · rw [decide_eq_false (Nat.not_lt_zero _)]
    cases adjust with
    | left =>
      obtain ⟨s', hs', -, hleft'⟩ := htext.bind hfill s hok
      exact ⟨s', 0, congrArg (Option.map (·, 0, false)) hs', hleft'⟩
    | internal | right | none =>
      obtain ⟨s', hs', -, hleft'⟩ := hfill.bind htext s hok
      rw [Nat.add_comm] at hleft'
      exact ⟨s', 0, congrArg (Option.map (·, 0, false)) hs', hleft'⟩

end

/-! ## 2. Integers -/

section

variable {cvt grouping : List Int} {base value : Nat} {signed : Bool} {fmt : Fmtflags}
  {fill val width : Int}

theorem put_digits_ne_nil (hb : 1 < base) : put_digits cvt base grouping value [] ≠ [] := by
  unfold put_digits
  split
  · exact List.cons_ne_nil _ _
  · next hvalue =>
    have hdigits : Nat.digits base value ≠ [] := Nat.digits_ne_nil_iff_ne_zero.mpr hvalue
    split
    · rw [digit_loop_eq hb, List.append_nil]
      simpa using hdigits
    · rw [group_loop_eq hb, List.append_nil, List.reverse_ne_nil_iff, ← List.length_pos_iff]
      refine Nat.lt_of_lt_of_le ?_ (le_length_group_list _ _).1
      rw [List.length_map]
      exact List.length_pos_of_ne_nil hdigits

/-- The fill position is behind all characters, or in front of some. -/
theorem format_parts (cvt grouping : List Int) (signed : Bool) (fmt : Fmtflags) (val : Int) :
    ∃ begin fillpos, format cvt signed fmt grouping val = (begin, fillpos) ∧
      begin.length < 2 ^ 31 ∧ fillpos.length ≤ begin.length ∧ (fillpos = [] ↔ fmt.Trailing) := by
  have hlength := length_format cvt grouping signed fmt val
  refine ⟨(format cvt signed fmt grouping val).1, (format cvt signed fmt grouping val).2, rfl,
    Nat.lt_of_le_of_lt hlength (by decide), ?_⟩
  have hb : 1 < fmt.basefield.put_base :=
    Nat.lt_of_lt_of_le (by decide) (eight_le_put_base fmt.basefield)
  have hoct : fmt.basefield.put_base ≠ 8 ↔ fmt.basefield ≠ .oct := by
    cases fmt.basefield <;> decide
  unfold format Fmtflags.Trailing
  dsimp only
  generalize hds : put_digits cvt fmt.basefield.put_base grouping _ [] = ds
  have hne : ds ≠ [] := hds ▸ put_digits_ne_nil hb
  generalize hbegin : put_prefix cvt fmt.basefield.put_base fmt ds val _ = begin
  have hle : ds.length ≤ begin.length := hbegin ▸ ( length_put_prefix ..).1
  have hbegin : begin ≠ [] :=
    List.ne_nil_of_length_pos (Nat.lt_of_lt_of_le (List.length_pos_of_ne_nil hne) hle)
  cases fmt.adjustfield with
  | left => exact ⟨Nat.zero_le _, by simp⟩
  | internal =>
    by_cases ho : fmt.basefield = .oct
    · simp [ho, Basefield.put_base]
    · simp [ho, hoct, hne, hle]
  | right | none => simp [hbegin]

theorem do_put_zero_fst (t : Cache) : (do_put t signed fmt 0 fill val).1 =
    (format (t.cvt fmt) signed fmt t.grouping val).1 := by
  unfold do_put
  dsimp only
  rw [if_neg (not_not.mpr rfl)]
  rfl

end

section

variable {σ : Type} {b : Streambuf σ Int} {ok : σ → Prop} {left : σ → Nat} {s : σ}

/-- An iterator writes what `sputc` writes. -/
theorem num_copy_area_written (h : b.Lawful ok) {cs : List Int} (hlen : cs.length < 2 ^ 31)
    (it : OstreambufIterator σ) :
    (it.num_copy_area b cs).map OstreambufIterator.m_sbuf = sputc_each b cs it.m_sbuf := by
  rw [num_copy_area_eq h hlen, copy_eq, Option.map_map]
  rfl

theorem fill_n_area_written (h : b.Lawful ok) (n : Int) (fill : Int)
    (it : OstreambufIterator σ) : (it.fill_n_area b n fill).map OstreambufIterator.m_sbuf =
      sputc_each b (List.replicate n.toNat fill) it.m_sbuf := by
  unfold OstreambufIterator.fill_n_area sputc_each
  rw [fill_n_area_eq h fill (Nat.le_refl _)]
  cases put_each b it.m_sbuf (List.replicate n.toNat fill) <;> rfl

theorem written_bind {x : Option (OstreambufIterator σ)} {F : σ → Option σ}
    {f : OstreambufIterator σ → Option (OstreambufIterator σ)}
    (hf : ∀ it, (f it).map OstreambufIterator.m_sbuf = F it.m_sbuf) :
    (x.bind f).map OstreambufIterator.m_sbuf = (x.map OstreambufIterator.m_sbuf).bind F := by
  cases x with
  | none => rfl
  | some it => exact hf it

/-- The characters that `do_put` gives are written. -/
theorem new_num_put_to_eq (h : b.Lawful ok) (t : Cache) (signed : Bool) (fmt : Fmtflags)
    (fill val width : Int) (it : OstreambufIterator σ) :
    (new_num_put_to b t signed fmt fill val width it).map (fun r => (r.1.m_sbuf, r.2)) =
      (sputc_each b (do_put t signed fmt width fill val).1 it.m_sbuf).map
        (·, (do_put t signed fmt width fill val).2) := by
  have hcvt : (if fmt.uppercase then t.upper_table else t.lower_table) = t.cvt fmt := rfl
  obtain ⟨begin, fillpos, hformat, hlength, hle, -⟩ :=
    format_parts (t.cvt fmt) t.grouping signed fmt val
  have hmap (x : Option (OstreambufIterator σ)) (width' : Int) :
      (x.map (·, width')).map (fun r => (r.1.m_sbuf, r.2)) =
        (x.map OstreambufIterator.m_sbuf).map (·, width') := by
    rw [Option.map_map, Option.map_map]
    rfl
  have hbegin := num_copy_area_written h hlength it
  unfold new_num_put_to do_put
  simp only [hcvt, hformat]
  by_cases hwidth : width = 0
  · rw [if_neg (not_not.mpr hwidth), if_neg (not_not.mpr hwidth), hmap, hbegin]
  rw [if_pos hwidth, if_pos hwidth, hmap]
  by_cases hpos : to_int (width - begin.length) > 0
  · have htake : (begin.take (begin.length - fillpos.length)).length < 2 ^ 31 :=
      Nat.lt_of_le_of_lt (List.length_take_le' _ _) hlength
    rw [if_pos hpos, if_pos hpos]
    dsimp only [Option.bind_eq_bind]
    rw [List.append_assoc, sputc_each_append, funext (sputc_each_append (b := b) _ fillpos),
      ← num_copy_area_written h htake]
    refine congrArg (Option.map (·, 0)) (written_bind fun it => ?_)
    rw [← fill_n_area_written h]
    exact written_bind (num_copy_area_written h (Nat.lt_of_le_of_lt hle hlength))
  · rw [if_neg hpos, if_neg hpos, hbegin]

/-- The fill characters are not looked at. -/
theorem new_num_put_to_sink (h : b.Sink ok left) (hok : ok s) (t : Cache) (signed : Bool)
    (fmt : Fmtflags) (fill val width : Int) :
    let n := (do_put t signed fmt 0 fill val).1.length
    ∃ s' width', new_num_put_to b t signed fmt fill val width ⟨s, false⟩ = some (⟨s', decide
        (left s < if fmt.Trailing then n else n + fill_count width n)⟩, width') ∧
      left s' = left s - (n + fill_count width n) := by
  have hcvt : (if fmt.uppercase then t.upper_table else t.lower_table) = t.cvt fmt := rfl
  obtain ⟨begin, fillpos, hformat, hlength, hle, hiff⟩ :=
    format_parts (t.cvt fmt) t.grouping signed fmt val
  rw [do_put_zero_fst, hformat]
  unfold new_num_put_to fill_count
  simp only [hcvt, hformat]
  -- nothing is filled in
  have hall : ∃ s', OstreambufIterator.num_copy_area b ⟨s, false⟩ begin =
      some ⟨s', decide (left s < begin.length)⟩ ∧ left s' = left s - begin.length := by
    obtain ⟨s', hcopy, -, hleft'⟩ := num_copy_area_sink h ⟨s, false⟩ hok hlength
    rw [Bool.false_or] at hcopy
    exact ⟨s', hcopy, hleft'⟩
  by_cases hwidth : width = 0
  · obtain ⟨s', hs', hleft'⟩ := hall
    rw [if_neg (not_not.mpr hwidth), if_pos hwidth, Nat.add_zero, ite_self]
    exact ⟨s', width, congrArg (Option.map (·, width)) hs', hleft'⟩
  rw [if_pos hwidth, if_neg hwidth]
  by_cases hpos : to_int (width - begin.length) > 0
  · rw [if_pos hpos]
    generalize to_int (width - begin.length) = f at hpos
    have htake : (begin.take (begin.length - fillpos.length)).length =
        begin.length - fillpos.length := List.length_take_of_le (Nat.sub_le _ _)
    obtain ⟨s₁, hs₁, hok₁, hleft₁⟩ := num_copy_area_sink h ⟨s, false⟩ hok
      (Nat.lt_of_le_of_lt (htake.trans_le (Nat.sub_le _ _)) hlength)
    obtain ⟨s₂, hs₂, hok₂, hleft₂⟩ := fill_n_area_sink h
      ⟨s₁, false || decide (left s < (begin.take (begin.length - fillpos.length)).length)⟩
      hok₁ f fill
    obtain ⟨s₃, hs₃, -, hleft₃⟩ := num_copy_area_sink h
      ⟨s₂, false || decide (left s < (begin.take (begin.length - fillpos.length)).length)⟩
      hok₂ (Nat.lt_of_le_of_lt hle hlength)
    refine ⟨s₃, 0, ?_, ?_⟩
    · rw [hs₁]
      show ((OstreambufIterator.fill_n_area b _ f fill).bind _).map _ = _
      rw [hs₂, Option.bind_some, hs₃]
      refine congrArg (fun failed => some (OstreambufIterator.mk s₃ failed, (0 : Int))) ?_
      dsimp only
      rw [hleft₂, hleft₁, Bool.false_or, ← Bool.decide_or, decide_eq_decide, htake]
      have hlast : fillpos.length = 0 ↔ fmt.Trailing := List.length_eq_zero_iff.trans hiff
      show left s < _ ∨ left s - _ - _ < _ ↔ _
      split
      · next htrailing =>
        have hzero := hlast.mpr htrailing
        omega
      · next htrailing =>
        have hpos := Nat.pos_of_ne_zero fun hzero => htrailing (hlast.mp hzero)
        omega
    · rw [hleft₃, hleft₂, hleft₁, htake]
      show left s - _ - _ - _ = _
      omega
  · obtain ⟨s', hs', hleft'⟩ := hall
    rw [if_neg hpos, Int.toNat_of_nonpos (Int.not_lt.mp hpos), Nat.add_zero, ite_self]
    exact ⟨s', 0, congrArg (Option.map (·, 0)) hs', hleft'⟩

end

/-! ## 3. The state of the stream -/

theorem state_setstate {ι B : Type} {s : Ios ι B} (hbuf : s.m_sbuf.isSome) (bit : Iostate) :
    (s.setstate bit).1.m_state = s.m_state ||| bit := by
  have hstate : (if s.m_sbuf.isNone then s.m_state ||| bit ||| badbit else s.m_state ||| bit) =
      s.m_state ||| bit := by
    rw [if_neg]
    rw [Option.isNone_iff_eq_none]
    exact Option.isSome_iff_ne_none.mp hbuf
  unfold Ios.setstate Ios.clear
  dsimp only
  generalize (if s.m_sbuf.isNone then s.m_state ||| bit ||| badbit else s.m_state ||| bit) = state
    at hstate ⊢
  subst hstate
  split
  · rfl
  · split <;> rfl

theorem state_process {ι B : Type} (s : Ios ι B) :
    s.process_exception.1.m_state = s.m_state ||| badbit := rfl

section

variable {ι B X : Type} [DecidableEq ι] {emit : Option B → X → X × Outcome} {bit : Iostate}
  {w : Streams ι B × X} {i : ι}

theorem flush_sync (w : Streams ι B × X) (i : ι) :
    flush (fun _ x => (x, false)) w i = (w, false) := by
  unfold flush
  split <;> rfl

theorem sentry_output_good (hgood : (w.1 i).good = true) :
    sentry_output (fun _ x => (x, false)) emit bit false w i = try_output emit bit w i := by
  unfold sentry_output
  cases (w.1 i).m_tie with
  | none | some t =>
    simp only [flush_sync, Bool.false_eq_true, if_false, hgood, if_true, Bool.or_false, ite_self]

end

section

variable {ι B σ : Type} [DecidableEq ι] [DecidableEq B] {b : Streambuf σ Int} {ok : σ → Prop}
  {left : σ → Nat} {m : Formatting} {ins : Inserter} {st : Streams ι B} {sinks : B → σ}
  {width : Int} {i : ι} {sb : B}

/-- With or without a sentry. -/
theorem insert_good (b : Streambuf σ Int) (m : Formatting) (ins : Inserter)
    {w : Streams ι B × Output B σ} (hgood : (w.1 i).good = true) :
    ∃ bit, bit &&& (failbit ||| badbit) ≠ 0 ∧ ins.insert b m w i =
      try_output (emit_to (ins.put b m (w.1 i).flags)) bit w i := by
  have hprint (bit : Iostate) (emit : Option B → Output B σ → Output B σ × Outcome) :
      print (fun _ x => (x, false)) emit bit w i = try_output emit bit w i := by
    unfold print
    split
    · rfl
    · exact sentry_output_good hgood
  cases ins with
  | char c | narrow_string str => exact ⟨failbit, by decide, sentry_output_good hgood⟩
  | string str => exact ⟨failbit, by decide, hprint _ _⟩
  | integer ty val => exact ⟨badbit, by decide, hprint _ _⟩

theorem try_output_fail {put : Int → σ → Option (σ × Int × Bool)} {bit : Iostate} {s' : σ}
    {width' : Int} {failed : Bool} (hgood : (st i).good = true) (hbuf : (st i).m_sbuf = some sb)
    (hbit : bit &&& (failbit ||| badbit) ≠ 0)
    (hput : put width (sinks sb) = some (s', width', failed)) : ∃ st' threw,
      try_output (emit_to put) bit (st, some (sinks, width)) i =
        ((st', some (Function.update sinks sb s', width')), threw) ∧ (st' i).fail = failed := by
  have hemit : emit_to put (st i).m_sbuf (some (sinks, width)) =
      (some (Function.update sinks sb s', width'), if failed then .failed else .done) := by
    rw [hbuf]
    simp only [emit_to, Option.bind_eq_bind, Option.bind_some, hput]
  have hstate : (st i).m_state = goodbit := of_decide_eq_true hgood
  unfold try_output
  dsimp only
  rw [hemit]
  cases failed with
  | false =>
    refine ⟨_, _, rfl, ?_⟩
    rw [Function.update_self]
    refine decide_eq_false (not_not.mpr ?_)
    show (st i).m_state &&& (failbit ||| badbit) = 0
    rw [hstate]
    rfl
  | true =>
    have hset := state_setstate (s := st i) (by rw [hbuf]; rfl) bit
    rw [hstate, show goodbit ||| bit = bit from BitVec.zero_or] at hset
    refine ⟨_, _, rfl, ?_⟩
    rw [Function.update_self]
    refine decide_eq_true ?_
    simp only [if_true]
    split
    · rw [state_process, hset, BitVec.and_or_distrib_right]
      exact fun hzero => absurd (BitVec.or_eq_zero_iff.mp hzero).2 (by decide)
    · rw [hset]
      exact hbit

/-- `sent` characters are written, and the first `checked` of them are looked at. -/
theorem reports_of_put {sent checked : Nat} (hgood : (st i).good = true)
    (hbuf : (st i).m_sbuf = some sb)
    (hput : ∃ s' width', ins.put b m (st i).flags width (sinks sb) =
        some (s', width', decide (left (sinks sb) < checked)) ∧
      left s' = left (sinks sb) - sent) :
    ins.Reports b m left st sinks width i sb ↔ left (sinks sb) < checked ∨
      max width (ins.text m (st i).flags).length ≤ (min (left (sinks sb)) sent : Nat) := by
  obtain ⟨s', width', hput, hleft⟩ := hput
  obtain ⟨bit, hbit, hinsert⟩ := insert_good b m ins
    (w := (st, some (sinks, width))) hgood
  obtain ⟨st', threw, hout, hfail⟩ := try_output_fail hgood hbuf hbit hput
  have hrun := hinsert.trans hout
  have htaken : left (sinks sb) - left (Function.update sinks sb s' sb) =
      min (left (sinks sb)) sent := by
    rw [Function.update_self, hleft]
    omega
  constructor
  · rintro ⟨st₁, sinks₁, width₁, threw₁, hrun₁, hreports⟩
    rw [hrun] at hrun₁
    cases hrun₁
    rw [htaken, hfail, decide_eq_true_iff] at hreports
    by_cases hlt : ((min (left (sinks sb)) sent : Nat) : Int) <
        max width (ins.text m (st i).flags).length
    · exact .inl (hreports hlt)
    · exact .inr (Int.not_lt.mp hlt)
  · intro h
    refine ⟨st', _, width', threw, hrun, fun hlt => ?_⟩
    rw [htaken] at hlt
    rw [hfail, decide_eq_true_iff]
    exact h.resolve_right (Int.not_le.mpr hlt)

end

/-- What each inserter writes, and how much of it is looked at. -/
theorem put_sink {σ : Type} {b : Streambuf σ Int} {ok : σ → Prop} {left : σ → Nat} {s : σ}
    (h : b.Sink ok left) (hok : ok s) (m : Formatting) (f : Fmt) (width : Int) (ins : Inserter)
    (hshort : ∀ str, ins = .string str → Short b s (str.getD null_str)) :
    let n := (ins.text m f).length
    ∃ sent checked, (∃ s' width', ins.put b m f width s =
        some (s', width', decide (left s < checked)) ∧ left s' = left s - sent) ∧
      (left s < checked ∨ max width n ≤ (min (left s) sent : Nat) ↔
        ins.Notices m f width (left s)) := by
  cases ins with
  | char c =>
    obtain ⟨s', width', hput, hleft⟩ := print_char_sink h hok (.of f) m.fill c width
    refine ⟨_, 0, ⟨s', width', ?_, hleft⟩, ?_⟩
    · exact congrArg (Option.map fun r => (r.1, r.2, false)) hput
    · show left s < 0 ∨ max width ((1 : Nat) : Int) ≤ _ ↔ max width ((1 : Nat) : Int) ≤ left s
      omega
  | string str =>
    obtain ⟨s', width', hput, hleft⟩ := print_string_intern_sink h hok (.of f) m.fill width
      (hshort str rfl)
    refine ⟨_, _, ⟨s', width', hput, hleft⟩, ?_⟩
    show (_ ∨ max width ((str.getD null_str).length : Int) ≤ _) ↔
      width ≤ (str.getD null_str).length ∨ width ≤ left s
    generalize (str.getD null_str).length = n
    split <;> omega
  | narrow_string str =>
    obtain ⟨s', width', hput, hleft⟩ := print_narrow_string_sink h hok (.of f) m.fill m.widen
      str width
    refine ⟨_, 0, ⟨s', width', ?_, hleft⟩, ?_⟩
    · exact congrArg (Option.map fun r => (r.1, r.2, false)) hput
    · have hlen : (str.map m.widen).length = str.length := List.length_map _
      show (_ ∨ max width ((str.map m.widen).length : Int) ≤ _) ↔
        max width ((str.map m.widen).length : Int) ≤ left s ∧
          (width ≤ (str.map m.widen).length ∨ Adjustfield.of f ≠ .none)
      rw [hlen]
      by_cases hnone : Adjustfield.of f = .none
      · simp only [hnone, if_true, ne_eq, not_true, or_false]
        omega
      · simp only [hnone, if_false, ne_eq, not_false_eq_true, or_true, and_true]
        omega
  | integer ty val =>
    obtain ⟨s', width', hput, hleft⟩ := new_num_put_to_sink h hok m.cache ty.is_signed (.of f)
      m.fill (ty.printed val) width
    have hput := congrArg (Option.map fun r : OstreambufIterator σ × Int =>
      (r.1.m_sbuf, r.2, r.1.fail)) hput
    refine ⟨_, _, ⟨s', width', hput, hleft⟩, or_congr_right ?_⟩
    dsimp only [Inserter.text]
    omega

end OstreamInsertersLemmas

open OstreamInsertersLemmas

section

variable {ι B σ : Type} [DecidableEq ι] [DecidableEq B] {b : Streambuf σ Int} {ok : σ → Prop}
  {left : σ → Nat} {st : Streams ι B} {sinks : B → σ} {i : ι} {sb : B}

/-- What is refused is reported if and only if it is looked at: never for a character or a narrow
string, for a string if it is not padded, and for an integer but for fill characters at the end. -/
theorem insertion_reports_iff (h : b.Sink ok left) (m : Formatting) (ins : Inserter) (width : Int)
    (hgood : (st i).good = true) (hbuf : (st i).m_sbuf = some sb) (hok : ok (sinks sb))
    (hshort : ∀ str, ins = .string str → Short b (sinks sb) (str.getD null_str)) :
    ins.Reports b m left st sinks width i sb ↔
      ins.Notices m (st i).flags width (left (sinks sb)) := by
  obtain ⟨sent, checked, hput, hiff⟩ := put_sink h hok m (st i).flags width ins hshort
  exact (reports_of_put hgood hbuf hput).trans hiff

end

/-! ## 4. An array -/

namespace Device

/-- An array is a device that has no put area behind the first one. -/
def array (size : Nat) : Device Int := ⟨⟨0, 0, 0, 0, 0, size⟩, fun _ => 0, [], []⟩

def room (s : Device Int) : Nat := (s.areas.pend - s.areas.pcur).toNat

theorem array_sink : (buf (α := Int)).Sink
    (fun s => s.areas.pcur ≤ s.areas.pend ∧ s.script = []) room where
  areas_with _ _ := rfl
  with_with _ _ _ := rfl
  with_self _ := rfl
  areas_store := buf_lawful.areas_store
  store_with _ _ _ _ := rfl
  order _ h := h.1
  sputc s c s' r hok h := by
    refine ⟨buf_lawful.sputc s c s' r hok.1 h, ?_⟩
    unfold Streambuf.sputc at h
    dsimp only at h
    split at h
    · simp only [buf, overflow, hok.2] at h
      cases h
      exact hok.2
    · cases h
      exact hok.2
  takes s c hok := by
    obtain ⟨hle, hscript⟩ := hok
    have hareas : (buf.areas s : Areas) = s.areas := rfl
    unfold Streambuf.sputc room
    rw [hareas]
    dsimp only
    split
    · next hfull =>
      have hzero : (s.areas.pend - s.areas.pcur).toNat = 0 := by
        rw [hfull, Int.sub_self]
        rfl
      rw [hzero]
      exact ⟨s, by simp only [buf, overflow, hscript]; rfl, hzero⟩
    · next hne =>
      have hpos : 0 < (s.areas.pend - s.areas.pcur).toNat := by omega
      rw [if_pos hpos]
      refine ⟨_, rfl, ?_⟩
      show (s.areas.pend - (s.areas.pcur + 1)).toNat = _
      omega

end Device

open Device BufferIteratorsLemmas

/-- A good stream with additional flags. -/
def opened (f : Fmt) : Streams Unit Unit := fun _ => (Ios.basic_ios_on (some ())).setf f

def starred : Formatting := ⟨widen '*', classic, Kuhllib.Cxxrt.widen⟩

theorem array_ok (size : Nat) :
    (array size).areas.pcur ≤ (array size).areas.pend ∧ (array size).script = [] :=
  ⟨Int.natCast_nonneg size, rfl⟩

/-- The characters that are due are put into an array, or the state tells that they are not. -/
def Told (ins : Inserter) (f : Fmt) (width : Int) (size : Nat) : Prop :=
  ins.Reports buf starred room (opened f) (fun _ => array size) width () ()

/-- A padded character that fits, and two strings and a number that do not. -/
theorem insertion_reports_iff_example :
    Told (.char (widen 'a')) 0x20 3 3 ∧ Told (.string (some ("hello".toList.map widen))) 0 0 3 ∧
      Told (.string none) 0 6 5 ∧ Told (.integer .long 42) 0x40 5 4 := by
  have htold (ins : Inserter) (f : Fmt) (width : Int) (size : Nat)
      (hgood : (opened f ()).good = true)
      (hshort : ∀ str, ins = .string str → (str.getD null_str).length < 2 ^ 31) :
      Told ins f width size ↔ ins.Notices starred (opened f ()).flags width (room (array size)) :=
    insertion_reports_iff array_sink starred ins width hgood rfl (array_ok size)
      fun str h => short_of_length (hshort str h)
  refine ⟨(htold (.char _) _ _ _ rfl nofun).mpr ?_,
    (htold (.string _) _ _ _ rfl ?_).mpr (Or.inl ?_),
    (htold (.string _) _ _ _ rfl ?_).mpr (Or.inl ?_),
    (htold (.integer _ _) _ _ _ rfl nofun).mpr (Or.inl ?_)⟩
  · show max (3 : Int) (1 : Nat) ≤ (3 : Nat)
    decide
  · intro str h
    cases h
    decide
  · decide
  · intro str h
    cases h
    decide
  · decide
  · show 4 < if _ then _ else (do_put classic true _ 0 (widen '*') 42).1.length +
      fill_count 5 (do_put classic true _ 0 (widen '*') 42).1.length
    rw [do_put_zero rfl]
    decide

/-- Nothing tells that a character, a padded string, a narrow string and the fill characters behind
a number are lost. -/
theorem not_insertion_reports :
    ¬ Told (.char (widen 'a')) 0 0 0 ∧ ¬ Told (.string (some ("hello".toList.map widen))) 0 6 3 ∧
      ¬ Told (.narrow_string "hello".toList) 0 0 3 ∧ ¬ Told (.integer .long 42) 0x20 5 3 := by
  have hnot (ins : Inserter) (f : Fmt) (width : Int) (size : Nat)
      (hgood : (opened f ()).good = true)
      (hshort : ∀ str, ins = .string str → (str.getD null_str).length < 2 ^ 31)
      (hlost : ¬ ins.Notices starred (opened f ()).flags width (room (array size))) :
      ¬ Told ins f width size := by
    obtain ⟨sent, checked, hput, hiff⟩ := put_sink array_sink (array_ok size) starred
      (opened f ()).flags width ins fun str h => short_of_length (hshort str h)
    exact fun h => hlost (hiff.mp ((reports_of_put hgood rfl hput).mp h))
  refine ⟨hnot (.char _) _ _ _ rfl nofun ?_, hnot (.string _) _ _ _ rfl ?_ ?_,
    hnot (.narrow_string _) _ _ _ rfl nofun ?_, hnot (.integer _ _) _ _ _ rfl nofun ?_⟩
  · show ¬ max (0 : Int) (1 : Nat) ≤ (0 : Nat)
    decide
  · intro str h
    cases h
    decide
  · show ¬ ((6 : Int) ≤ (5 : Nat) ∨ (6 : Int) ≤ (3 : Nat))
    decide
  · show ¬ (max (0 : Int) (5 : Nat) ≤ (3 : Nat) ∧ _)
    exact fun h => absurd h.1 (by decide)
  · show ¬ (3 < (if _ then (do_put classic true _ 0 (widen '*') 42).1.length else _) ∨
      max 5 ((do_put classic true _ 0 (widen '*') 42).1.length : Int) ≤ (3 : Nat) ∧ _)
    rw [do_put_zero rfl]
    decide

end Kuhllib.Cxxrt
