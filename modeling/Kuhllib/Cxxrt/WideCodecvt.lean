import Mathlib.Data.List.TakeWhile
import Mathlib.Data.PNat.Defs

/-!
# `codecvt<wchar_t, char>`

Both directions copy characters with a cast. `char` is signed, and `wchar_t` is a signed
type of 32 bits.

Results:
1. `codecvt_round_trips_iff`: bytes come back from wide characters; wide characters come
   back, and errors are found where they are, under a condition on the characters.
2. `do_out_reports`, `do_in_reports`: what a single call says about its conversion.
-/

namespace Kuhllib.Cxxrt

namespace Codecvt

/-- `codecvt_base::result` -/
inductive Result
  | ok
  | partial_
  | error
  | noconv
  deriving DecidableEq, Repr

/-- What a call leaves behind: `fnext` and `tnext` are distances from where source and target
begin, and the characters of `target` are stored. -/
structure Conversion (β : Type) where
  result : Result
  fnext : Nat
  tnext : Nat
  target : List β
  deriving DecidableEq, Repr

section

variable {α β : Type} (accepts : α → Bool) (cast : α → β)

/-- `for (; fbegin != fend && accepts(*fbegin); ++tbegin, ++fbegin) *tbegin = cast(*fbegin);` -/
def copy (fbegin tbegin : Nat) (target : List β) : List α → Nat × Nat × List β
  | [] => (fbegin, tbegin, target)
  | c :: cs =>
    if accepts c then copy (fbegin + 1) (tbegin + 1) (target ++ [cast c]) cs
    else (fbegin, tbegin, target)

/-- Where the source ends that fits in the target, and the result for it. -/
def fitting (source : List α) (room : Nat) : Nat × Result :=
  if room < source.length then (room, .partial_) else (source.length, .ok)

end

def do_out (source : List Int32) (room : Nat) : Conversion Int8 :=
  let (fend, rc) := fitting source room
  let (fnext, tnext, target) := copy (· < 0xff) Int32.toInt8 0 0 [] (source.take fend)
  ⟨if fnext = fend then rc else .error, fnext, tnext, target⟩

def do_in (source : List Int8) (room : Nat) : Conversion Int32 :=
  let (fend, rc) := fitting source room
  let (fnext, tnext, target) := copy (fun _ => true) Int8.toInt32 0 0 [] (source.take fend)
  ⟨rc, fnext, tnext, target⟩

/-- Calls with buffers of the given sizes while the result is `partial`, at most `n` of them. -/
def repeated {α β : Type} (convert : List α → Nat → Conversion β) :
    Nat → (Nat → ℕ+) → List α → Conversion β
  | 0, _, _ => ⟨.partial_, 0, 0, []⟩
  | n + 1, sizes, source =>
    let r := convert source (sizes 0)
    if r.result = .partial_ then
      let rest := repeated convert n (fun k => sizes (k + 1)) (source.drop r.fnext)
      ⟨rest.result, r.fnext + rest.fnext, r.tnext + rest.tnext, r.target ++ rest.target⟩
    else r

/-- No call is left without progress, so that these are all calls. -/
def out_all (sizes : Nat → ℕ+) (source : List Int32) : Conversion Int8 :=
  repeated do_out (source.length + 1) sizes source

def in_all (sizes : Nat → ℕ+) (source : List Int8) : Conversion Int32 :=
  repeated do_in (source.length + 1) sizes source

/-! ## A single call -/

section

variable {α β : Type} (accepts : α → Bool) (cast : α → β)

theorem copy_eq (f t : Nat) (target : List β) (source : List α) :
    copy accepts cast f t target source =
      (f + (source.takeWhile accepts).length, t + (source.takeWhile accepts).length,
        target ++ (source.takeWhile accepts).map cast) := by
  induction source generalizing f t target with
  | nil => simp [copy]
  | cons c cs ih =>
    rw [copy, List.takeWhile_cons]
    split
    · rw [ih]
      simp only [List.length_cons, List.map_cons, List.append_assoc, List.singleton_append]
      rw [Nat.add_right_comm f, Nat.add_right_comm t, Nat.add_assoc f, Nat.add_assoc t]
    · simp

/-- The longest part of the source that fits and is accepted is converted. -/
def conversion (source : List α) (room : Nat) : Conversion β :=
  let taken := (source.take room).takeWhile accepts
  ⟨if taken.length = (source.take room).length then
      if room < source.length then .partial_ else .ok
    else .error, taken.length, taken.length, taken.map cast⟩

theorem take_fitting (source : List α) (room : Nat) :
    source.take (fitting source room).1 = source.take room ∧
      (fitting source room).1 = (source.take room).length ∧
      (fitting source room).2 = if room < source.length then .partial_ else .ok := by
  unfold fitting
  split
  · next h => exact ⟨rfl, by rw [List.length_take_of_le h.le], rfl⟩
  · next h =>
    have hle := Nat.le_of_not_lt h
    rw [List.take_of_length_le hle, List.take_of_length_le (Nat.le_refl _)]
    exact ⟨rfl, rfl, rfl⟩

end

theorem do_out_eq : do_out = conversion (· < 0xff) Int32.toInt8 := by
  funext source room
  obtain ⟨htake, hend, hrc⟩ := take_fitting source room
  simp only [do_out, conversion, copy_eq, htake, hrc, Nat.zero_add, List.nil_append]
  rw [← hend]

theorem do_in_eq : do_in = conversion (fun _ => true) Int8.toInt32 := by
  funext source room
  obtain ⟨htake, _, hrc⟩ := take_fitting source room
  have hall : (source.take room).takeWhile (fun _ => true) = source.take room :=
    List.takeWhile_eq_self_iff.mpr fun _ _ => rfl
  simp only [do_in, conversion, copy_eq, htake, hrc, hall, Nat.zero_add, List.nil_append, if_true]

/-- The numbers are those of the characters converted, which come from the front of the
source. -/
structure Reports {α β : Type} (cast : α → β) (source : List α) (room : Nat)
    (r : Conversion β) : Prop where
  target : r.target = (source.take r.fnext).map cast
  fnext : r.fnext = r.target.length
  tnext : r.tnext = r.target.length
  fits : r.tnext ≤ room

theorem conversion_reports {α β : Type} (accepts : α → Bool) (cast : α → β) (source : List α)
    (room : Nat) : Reports cast source room (conversion accepts cast source room) := by
  have hpre : (source.take room).takeWhile accepts <+: source :=
    (List.takeWhile_prefix accepts).trans (List.take_prefix room source)
  have hle := (List.takeWhile_prefix accepts (l := source.take room)).length_le
  have hmap : ((source.take room).takeWhile accepts).length =
      (((source.take room).takeWhile accepts).map cast).length := List.length_map .. |>.symm
  refine ⟨?_, hmap, hmap, ?_⟩
  · exact congrArg (List.map cast) (List.prefix_iff_eq_take.mp hpre)
  · exact hle.trans (by rw [List.length_take]; exact Nat.min_le_left _ _)

theorem do_out_reports (source : List Int32) (room : Nat) :
    Reports Int32.toInt8 source room (do_out source room) := by
  rw [do_out_eq]
  exact conversion_reports _ _ _ _

theorem do_in_reports (source : List Int8) (room : Nat) :
    Reports Int8.toInt32 source room (do_in source room) := by
  rw [do_in_eq]
  exact conversion_reports _ _ _ _

/-! ## All calls -/

section

variable {α β : Type} (accepts : α → Bool) (cast : α → β)

/-- The conversion of everything. -/
theorem conversion_whole (source : List α) :
    conversion accepts cast source source.length =
      let taken := source.takeWhile accepts
      ⟨if taken.length = source.length then .ok else .error, taken.length, taken.length,
        taken.map cast⟩ := by
  simp only [conversion, List.take_length, Nat.lt_irrefl, if_false]

section

variable {source : List α} {room : Nat}

theorem conversion_filled (hroom : room < source.length)
    (hall : (source.take room).takeWhile accepts = source.take room) :
    conversion accepts cast source room =
      ⟨.partial_, room, room, (source.take room).map cast⟩ := by
  simp only [conversion, hall, List.length_take_of_le hroom.le, if_pos hroom, if_true]

/-- Where the buffer is not filled, a larger one makes no difference. -/
theorem conversion_last (h : room < source.length →
      (source.take room).takeWhile accepts ≠ source.take room) :
    conversion accepts cast source room = conversion accepts cast source source.length := by
  rw [conversion_whole]
  by_cases hroom : room < source.length
  · have hne : ((source.take room).takeWhile accepts).length ≠ (source.take room).length :=
      fun heq => h hroom ((List.takeWhile_prefix accepts).eq_of_length heq)
    have hsplit : (source.take room ++ source.drop room).takeWhile accepts = _ :=
      List.takeWhile_append
    rw [List.take_append_drop, if_neg hne] at hsplit
    have hlt : ((source.take room).takeWhile accepts).length < source.length := by
      have hle := (List.takeWhile_prefix accepts (l := source.take room)).length_le
      rw [List.length_take] at hle hne
      omega
    simp only [conversion, if_neg hne, hsplit, if_neg hlt.ne]
  · have htake := List.take_of_length_le (Nat.le_of_not_lt hroom)
    simp only [conversion, htake, if_neg hroom]

end

/-- A call that leaves something has filled its buffer, and the next one goes on behind it. -/
theorem repeated_conversion (n : Nat) (sizes : Nat → ℕ+) (source : List α)
    (hn : source.length < n) :
    repeated (conversion accepts cast) n sizes source =
      conversion accepts cast source source.length := by
  induction n generalizing sizes source with
  | zero => omega
  | succ n ih =>
    have hpos := (sizes 0).pos
    rw [repeated]
    by_cases hfill : (sizes 0 : Nat) < source.length ∧
        (source.take (sizes 0)).takeWhile accepts = source.take (sizes 0)
    · obtain ⟨hroom, hall⟩ := hfill
      have hlen : (source.take (sizes 0)).length = sizes 0 := List.length_take_of_le hroom.le
      have hsplit : (source.take (sizes 0) ++ source.drop (sizes 0)).takeWhile accepts = _ :=
        List.takeWhile_append
      rw [List.take_append_drop, hall, if_pos rfl] at hsplit
      rw [conversion_filled _ _ hroom hall]
      dsimp only
      rw [if_pos rfl, ih _ _ (by rw [List.length_drop]; omega), conversion_whole, conversion_whole,
        hsplit]
      simp only [List.length_append, hlen, List.map_append, List.length_drop,
        Conversion.mk.injEq, and_true]
      exact if_congr (by omega) rfl rfl
    · rw [conversion_last _ _ fun hroom hall => hfill ⟨hroom, hall⟩, conversion_whole]
      refine if_neg fun h => ?_
      dsimp only at h
      split at h <;> cases h

end

theorem out_all_eq (sizes : Nat → ℕ+) (w : List Int32) :
    out_all sizes w =
      let taken := w.takeWhile (· < 0xff)
      ⟨if taken.length = w.length then .ok else .error, taken.length, taken.length,
        taken.map Int32.toInt8⟩ := by
  rw [out_all, do_out_eq, repeated_conversion _ _ _ _ _ (Nat.lt_succ_self _), conversion_whole]

theorem in_all_eq (sizes : Nat → ℕ+) (b : List Int8) :
    in_all sizes b = ⟨.ok, b.length, b.length, b.map Int8.toInt32⟩ := by
  have hall : b.takeWhile (fun _ => true) = b := List.takeWhile_eq_self_iff.mpr fun _ _ => rfl
  rw [in_all, do_in_eq, repeated_conversion _ _ _ _ _ (Nat.lt_succ_self _), conversion_whole, hall]
  dsimp only
  rw [if_pos rfl]

/-! ## Round trips -/

/-- The codes 0 to 255. -/
def isByte (c : Int32) : Prop := 0 ≤ c.toInt ∧ c.toInt ≤ 255

instance (c : Int32) : Decidable (isByte c) := inferInstanceAs (Decidable (_ ∧ _))

/-- Bytes become wide characters that `out` turns into the same bytes. -/
def BytesReturn (ins outs : Nat → ℕ+) (b : List Int8) : Prop :=
  (in_all ins b).result = .ok ∧ (out_all outs (in_all ins b).target).result = .ok ∧
    (out_all outs (in_all ins b).target).target = b

/-- An error means a code that is no byte, at the first of which `out` stops, and without one
`in` gives the wide characters back. -/
structure WideReturn (outs ins : Nat → ℕ+) (w : List Int32) : Prop where
  error : (out_all outs w).result = .error ↔ ∃ c ∈ w, ¬ isByte c
  position : (out_all outs w).result = .error →
    (out_all outs w).fnext = (w.takeWhile isByte).length
  back : (∀ c ∈ w, isByte c) →
    (in_all ins (out_all outs w).target).result = .ok ∧
      (in_all ins (out_all outs w).target).target = w

/-- Either all codes are below 128, or the first one outside 0 to 254 is above 255. -/
def Convertible (w : List Int32) : Prop :=
  (∀ c ∈ w, 0 ≤ c.toInt ∧ c.toInt < 128) ∨
    ∃ pre c post, w = pre ++ c :: post ∧ (∀ d ∈ pre, 0 ≤ d.toInt ∧ d.toInt < 255) ∧ 255 < c.toInt

theorem accepts_iff (c : Int32) : decide (c < 0xff) = true ↔ c.toInt < 255 := by
  rw [decide_eq_true_iff, Int32.lt_iff_toInt_lt]
  rfl

/-- The cast to `char` keeps what a `char` can be. -/
theorem cast_back_iff (c : Int32) : c.toInt8.toInt32 = c ↔ -128 ≤ c.toInt ∧ c.toInt < 128 := by
  rw [← Int32.toInt_inj, Int8.toInt_toInt32, Int32.toInt_toInt8]
  constructor
  · intro h
    rw [← h]
    exact ⟨Int.le_bmod (by decide), Int.bmod_lt (by decide)⟩
  · rintro ⟨hlo, hhi⟩
    exact Int.bmod_eq_of_le (by omega) (by omega)

theorem casts_back_iff (w : List Int32) :
    (w.map Int32.toInt8).map Int8.toInt32 = w ↔ ∀ c ∈ w, -128 ≤ c.toInt ∧ c.toInt < 128 := by
  have hid := List.map_eq_map_iff (l := w) (f := Int8.toInt32 ∘ Int32.toInt8) (g := id)
  rw [List.map_id, ← List.map_map] at hid
  rw [hid]
  exact forall₂_congr fun c _ => cast_back_iff c

theorem out_all_result (outs : Nat → ℕ+) (w : List Int32) :
    (out_all outs w).result = .error ↔ ∃ c ∈ w, 255 ≤ c.toInt := by
  rw [out_all_eq]
  dsimp only
  have hiff : (w.takeWhile (· < 0xff)).length = w.length ↔ ∀ c ∈ w, c.toInt < 255 := by
    constructor
    · intro h c hc
      rw [← (List.takeWhile_prefix _).eq_of_length h] at hc
      exact (accepts_iff c).mp (List.all_eq_true.mp List.all_takeWhile c hc)
    · intro h
      rw [List.takeWhile_eq_self_iff.mpr fun c hc => (accepts_iff c).mpr (h c hc)]
  split
  · next h =>
    refine ⟨nofun, fun ⟨c, hc, hge⟩ => ?_⟩
    have hlt := hiff.mp h c hc
    omega
  · next h =>
    refine ⟨fun _ => ?_, fun _ => rfl⟩
    rw [hiff] at h
    push Not at h
    exact h

theorem bytes_return (ins outs : Nat → ℕ+) (b : List Int8) : BytesReturn ins outs b := by
  have haccept : ∀ c ∈ b.map Int8.toInt32, decide (c < 0xff) = true := by
    intro c hc
    obtain ⟨x, _, rfl⟩ := List.mem_map.mp hc
    have hlt := x.toInt_lt
    rw [accepts_iff, Int8.toInt_toInt32]
    omega
  rw [BytesReturn, in_all_eq, out_all_eq, List.takeWhile_eq_self_iff.mpr haccept]
  refine ⟨rfl, if_pos rfl, ?_⟩
  dsimp only
  rw [List.map_map]
  exact (List.map_congr_left fun x _ => Int8.toInt8_toInt32 x).trans (List.map_id' b)

/-- Without a code outside 0 to 255. -/
theorem wide_return_bytes {outs ins : Nat → ℕ+} {w : List Int32} (hw : ∀ c ∈ w, isByte c) :
    WideReturn outs ins w ↔ ∀ c ∈ w, 0 ≤ c.toInt ∧ c.toInt < 128 := by
  constructor
  · intro h
    have hback := (h.back hw).2
    have hall : ∀ c ∈ w, decide (c < 0xff) = true := by
      intro c hc
      rw [accepts_iff]
      by_contra hge
      obtain ⟨d, hd, hnd⟩ := h.error.mp ((out_all_result outs w).mpr ⟨c, hc, not_lt.mp hge⟩)
      exact hnd (hw d hd)
    rw [in_all_eq, out_all_eq, List.takeWhile_eq_self_iff.mpr hall] at hback
    exact fun c hc => ⟨(hw c hc).1, ((casts_back_iff w).mp hback c hc).2⟩
  · intro h
    have hall : ∀ c ∈ w, decide (c < 0xff) = true := by
      intro c hc
      have hlt := (h c hc).2
      rw [accepts_iff]
      omega
    have hno : (out_all outs w).result ≠ .error := by
      rw [Ne, out_all_result]
      rintro ⟨c, hc, hge⟩
      have hlt := (h c hc).2
      omega
    refine ⟨⟨fun herr => absurd herr hno, ?_⟩, fun herr => absurd herr hno, fun _ => ?_⟩
    · rintro ⟨c, hc, hn⟩
      exact absurd (hw c hc) hn
    · rw [in_all_eq, out_all_eq, List.takeWhile_eq_self_iff.mpr hall]
      refine ⟨rfl, (casts_back_iff w).mpr fun c hc => ?_⟩
      have hc := h c hc
      omega

/-- A list splits at the first element that a predicate does not accept. -/
theorem takeWhile_split {α : Type} {p : α → Bool} {pre post : List α} {c : α}
    (hpre : ∀ d ∈ pre, p d = true) (hc : p c = false) :
    (pre ++ c :: post).takeWhile p = pre := by
  rw [List.takeWhile_append_of_pos hpre, List.takeWhile_cons_of_neg (by rw [hc]; nofun),
    List.append_nil]

theorem exists_split {α : Type} {p : α → Bool} {w : List α} (h : ∃ d ∈ w, p d = false) :
    ∃ pre c post, w = pre ++ c :: post ∧ (∀ d ∈ pre, p d = true) ∧ p c = false := by
  obtain ⟨d, hd, hpd⟩ := h
  induction w with
  | nil => cases hd
  | cons x xs ih =>
    cases hx : p x with
    | false => exact ⟨[], x, xs, rfl, fun _ h => absurd h List.not_mem_nil, hx⟩
    | true =>
      have hmem : d ∈ xs := by
        rcases List.mem_cons.mp hd with rfl | hmem
        · rw [hx] at hpd
          cases hpd
        · exact hmem
      obtain ⟨pre, c, post, rfl, hpre, hc⟩ := ih hmem
      refine ⟨x :: pre, c, post, rfl, fun y hy => ?_, hc⟩
      rcases List.mem_cons.mp hy with rfl | hy
      · exact hx
      · exact hpre y hy

/-- With a code outside 0 to 255. -/
theorem wide_return_outside {outs ins : Nat → ℕ+} {w : List Int32} (hw : ∃ c ∈ w, ¬ isByte c) :
    WideReturn outs ins w ↔
      ∃ pre c post, w = pre ++ c :: post ∧ (∀ d ∈ pre, 0 ≤ d.toInt ∧ d.toInt < 255) ∧
        255 < c.toInt := by
  have hback : ¬ ∀ c ∈ w, isByte c := by
    push Not
    exact hw
  constructor
  · intro h
    have herr := h.error.mpr hw
    have hpos := h.position herr
    have hge : ∃ d ∈ w, decide (d < 0xff) = false := by
      obtain ⟨d, hd, hge⟩ := (out_all_result outs w).mp herr
      exact ⟨d, hd, by rw [← Bool.not_eq_true, accepts_iff]; omega⟩
    have hout : ∃ d ∈ w, decide (isByte d) = false := by
      obtain ⟨d, hd, hn⟩ := hw
      exact ⟨d, hd, decide_eq_false hn⟩
    rw [out_all_eq] at hpos
    -- both scans end at the same place, in front of a code that neither accepts
    obtain ⟨pre, c, post, rfl, hpre, hc⟩ := exists_split hge
    obtain ⟨pre', c', post', heq, hpre', hc'⟩ := exists_split hout
    rw [takeWhile_split hpre hc, heq, takeWhile_split hpre' hc'] at hpos
    obtain ⟨rfl, hcons⟩ := List.append_inj heq hpos
    obtain ⟨rfl, -⟩ := List.cons.inj hcons
    refine ⟨pre, c, post, rfl, fun d hd => ?_, ?_⟩
    · exact ⟨(of_decide_eq_true (hpre' d hd)).1, (accepts_iff d).mp (hpre d hd)⟩
    · rw [← Bool.not_eq_true, accepts_iff] at hc
      have hn := of_decide_eq_false hc'
      unfold isByte at hn
      omega
  · rintro ⟨pre, c, post, rfl, hpre, hc⟩
    have hmem : c ∈ pre ++ c :: post := List.mem_append_right _ (List.mem_cons_self ..)
    have hout : ∀ d ∈ pre, decide (d < 0xff) = true := fun d hd => (accepts_iff d).mpr (hpre d hd).2
    have hbyte : ∀ d ∈ pre, decide (isByte d) = true := by
      intro d hd
      obtain ⟨hlo, hhi⟩ := hpre d hd
      exact decide_eq_true ⟨hlo, by omega⟩
    have hcout : decide (c < 0xff) = false := by
      rw [← Bool.not_eq_true, accepts_iff]
      omega
    have hcbyte : decide (isByte c) = false := by
      refine decide_eq_false fun hb => ?_
      have hle := hb.2
      omega
    refine ⟨⟨fun _ => hw, fun _ => (out_all_result outs _).mpr ⟨c, hmem, by omega⟩⟩, fun _ => ?_,
      fun h => absurd h hback⟩
    rw [out_all_eq]
    dsimp only
    rw [takeWhile_split hout hcout, takeWhile_split hbyte hcbyte]

theorem wide_return_iff (outs ins : Nat → ℕ+) (w : List Int32) :
    WideReturn outs ins w ↔ Convertible w := by
  by_cases hw : ∀ c ∈ w, isByte c
  · rw [wide_return_bytes hw, Convertible, or_iff_left]
    rintro ⟨pre, c, post, rfl, _, hc⟩
    have hle := (hw c (List.mem_append_right _ (List.mem_cons_self ..))).2
    omega
  · push Not at hw
    rw [wide_return_outside hw, Convertible, or_iff_right]
    intro hall
    obtain ⟨c, hc, hn⟩ := hw
    have hrange := hall c hc
    exact hn ⟨hrange.1, by omega⟩

/-- Bytes come back and every call reports what it has converted; the rest depends on the wide
string. -/
theorem codecvt_round_trips_iff (ins outs : Nat → ℕ+) (b : List Int8) (w : List Int32)
    (room : Nat) :
    (BytesReturn ins outs b ∧ Reports Int32.toInt8 w room (do_out w room) ∧
      Reports Int8.toInt32 b room (do_in b room) ∧ WideReturn outs ins w) ↔ Convertible w := by
  constructor
  · rintro ⟨-, -, -, h⟩
    exact (wide_return_iff outs ins w).mp h
  · intro h
    exact ⟨bytes_return ins outs b, do_out_reports w room, do_in_reports b room,
      (wide_return_iff outs ins w).mpr h⟩

/-- The byte `0xff` does not come out, and `0x80` does not come back. -/
theorem not_wide_return :
    ¬ (∀ outs ins, WideReturn outs ins [255]) ∧ ¬ (∀ outs ins, WideReturn outs ins [128]) ∧
      ¬ (∀ outs ins, WideReturn outs ins [-1]) := by
  refine ⟨fun h => ?_, fun h => ?_, fun h => ?_⟩
  · obtain ⟨c, hc, hbyte⟩ := (h (fun _ => 1) fun _ => 1).error.mp (by decide)
    rw [List.mem_singleton.mp hc] at hbyte
    exact hbyte (by decide)
  · have hbytes : ∀ c ∈ ([128] : List Int32), isByte c := by
      intro c hc
      rw [List.mem_singleton.mp hc]
      decide
    have hback := ((h (fun _ => 1) fun _ => 1).back hbytes).2
    exact absurd hback (by decide)
  · have hbyte : ¬ isByte (-1) := by decide
    have herr := (h (fun _ => 1) fun _ => 1).error.mpr ⟨-1, List.mem_singleton_self _, hbyte⟩
    exact absurd herr (by decide)

end Codecvt

end Kuhllib.Cxxrt
