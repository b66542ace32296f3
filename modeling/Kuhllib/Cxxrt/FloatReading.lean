import Kuhllib.Cxxrt.FloatInput

/-!
# Which floating point numbers are read

`_CS_get_float` should consume the longest beginning of a number, fail if the number is not complete,
and hand `strtod` a text that has the value of the number up to the digits behind the first
`digits10` significant ones.

It accepts a sign or a point without digits, and an `e` that is not followed by digits. Where the
text is shortened the digits may be others: the sign and the point are counted as if they were
digits, as are leading zeros; digits that are left out behind a leading point multiply the factor;
and where the integer digits use up the count, the digits of the fraction take the places of the
integer digits that are left out.

Results:
1. `reads_short`, `readable_short`, `readable_zero`: short numbers are handed over as they are, and
   zeros are read in any length.
2. `reads_literals_iff`: which inputs are read as they should be.
-/

namespace Kuhllib.Cxxrt.FloatInput

open FloatLiteralLemmas FloatInputLemmas

/-! ## What should be read -/

/-- The value that a text in the buffer has in the C locale. -/
def textValue (text : List Char) : ℚ := (layout classic (text.map widen)).value

/-- `p` has been consumed of `input`. -/
structure Reads (t : Cache) (digits10 : Nat) (input p : List Int) (e : Extracted) : Prop where
  split : input = p ++ e.begin
  longest : Longest (input.map t.find) (p.map t.find)
  failbit : e.failbit = true ↔ (layout t p).digits = [] ∨ ∃ x ∈ (layout t p).exponent, x.digits = []
  value : e.failbit = false → Decimal.cut digits10 (textValue e.text * e.factor) =
    Decimal.cut digits10 (layout t p).value

/-! ## The condition -/

/-- Nothing that a number begins with. -/
def Mantissa.Absent (m : Mantissa) : Prop := m.sign = none ∧ m.whole = [] ∧ m.fraction = none

instance (m : Mantissa) : Decidable m.Absent := inferInstanceAs (Decidable (_ ∧ _))

/-- The first significant digits of the literal, and the place in front of them. -/
def Literal.leading (digits10 : Nat) (l : Literal) (shift : Nat) : Option (List Nat × ℤ) :=
  Decimal.leading digits10 (l.digits.map Fin.val) (l.place + shift)

/-- The digits that are left out are not among the first `digits10` significant ones, or others that
are the same have taken their places. -/
def Literal.Undamaged (digits10 : Nat) (l : Literal) : Prop :=
  (l.shorten digits10).leading digits10 (l.scale digits10) = l.leading digits10 0

instance (digits10 : Nat) (l : Literal) : Decidable (l.Undamaged digits10) :=
  inferInstanceAs (Decidable (_ = _))

def Readable (digits10 : Nat) (l : Literal) : Prop :=
  l.Absent ∨ l.Complete ∧ l.Undamaged digits10

instance (digits10 : Nat) (l : Literal) : Decidable (Readable digits10 l) :=
  inferInstanceAs (Decidable (_ ∨ _))

/-! ## 1. Short numbers and zeros -/

/-- No count is used up. -/
structure Literal.Short (digits10 : Nat) (l : Literal) : Prop where
  mantissa : signCount l.sign + l.digits.length < digits10
  exponent : ∀ x ∈ l.exponent, x.size ≤ 61

theorem shorten_short {digits10 : Nat} {l : Literal} (h : l.Short digits10) :
    l.shorten digits10 = l ∧ l.scale digits10 = 0 := by
  obtain ⟨hmantissa, hexponent⟩ := h
  obtain ⟨⟨g, w, f⟩, x⟩ := l
  simp only [Mantissa.digits, List.length_append] at hmantissa
  have hwhole : w.take (digits10 - signCount g) = w := List.take_of_length_le (by omega)
  have hx : x.map Exponent.shorten = x := by
    cases x with
    | none => rfl
    | some x =>
      have hsize := hexponent x rfl
      have hall : x.digits.take (60 - signCount x.sign) = x.digits :=
        List.take_of_length_le (by unfold Exponent.size at hsize; omega)
      rw [Option.map_some, Exponent.shorten, hall]
  have hf : f.map (Mantissa.keep digits10 ⟨g, w, f⟩) = f := by
    cases f with
    | none => rfl
    | some ds =>
      rw [Option.getD_some] at hmantissa
      rw [Option.map_some, Mantissa.keep]
      refine congrArg some ?_
      split
      · exact List.take_of_length_le (by omega)
      · split
        · rfl
        · dsimp only [Mantissa.room]
          exact List.take_of_length_le (by omega)
  constructor
  · unfold Literal.shorten Mantissa.room
    dsimp only
    rw [hwhole, hf, hx]
  · unfold Literal.scale Mantissa.room
    dsimp only
    split <;> omega

theorem absent_iff (m : Mantissa) : mantissa.spell m = [] ↔ m.Absent := by
  obtain ⟨g, w, f⟩ := m
  rw [spell_mantissa, spellBody, List.append_eq_nil_iff, List.append_eq_nil_iff]
  refine and_congr ?_ (and_congr List.map_eq_nil_iff ?_)
  · cases g with
    | none => exact iff_of_true rfl rfl
    | some g => exact iff_of_false (List.cons_ne_nil _ _) (Option.some_ne_none g)
  · cases f with
    | none => exact iff_of_true rfl rfl
    | some ds => exact iff_of_false (List.cons_ne_nil _ _) (Option.some_ne_none ds)

/-- A short number is copied as it is. -/
theorem reads_short (t : Cache) {digits10 : Nat} {cs : List Int}
    (hl : (layout t cs).Short digits10) (hpresent : ¬ (layout t cs).Absent) :
    get_float t digits10 cs = finish (spelled (literal.spell (layout t cs))) 1
      (cs.drop (literal.spell (layout t cs)).length) := by
  obtain ⟨hshorten, hscale⟩ := shorten_short hl
  rw [get_float_spec t (Nat.zero_lt_of_lt hl.mantissa),
    if_neg fun h => hpresent ((absent_iff _).mp h), hshorten, hscale, pow_zero]

theorem readable_short {digits10 : Nat} {l : Literal} (h : l.Short digits10) (hl : l.Complete) :
    Readable digits10 l := by
  obtain ⟨hshorten, hscale⟩ := shorten_short h
  refine .inr ⟨hl, ?_⟩
  rw [Literal.Undamaged, hshorten, hscale]

theorem digits_shorten_subset (digits10 : Nat) (l : Literal) :
    (l.shorten digits10).digits ⊆ l.digits := by
  intro d hd
  rcases List.mem_append.mp hd with hd | hd
  · exact List.mem_append_left _ (List.mem_of_mem_take hd)
  · refine List.mem_append_right _ ?_
    unfold Literal.shorten at hd
    cases hf : l.fraction with
    | none =>
      rw [hf] at hd
      cases hd
    | some ds =>
      rw [hf, Option.map_some, Option.getD_some, Mantissa.keep] at hd
      rw [Option.getD_some]
      split at hd
      · exact List.mem_of_mem_take hd
      · split at hd
        · exact hd
        · exact List.mem_of_mem_take hd

theorem readable_zero {digits10 : Nat} {l : Literal} (h : ∀ d ∈ l.digits, d = 0)
    (hl : l.Complete) : Readable digits10 l := by
  have hzero : ∀ {ds : List (Fin 10)}, ds ⊆ l.digits → ∀ d ∈ ds.map Fin.val, d = 0 := by
    intro ds hds d hd
    obtain ⟨d, hmem, rfl⟩ := List.mem_map.mp hd
    rw [h d (hds hmem)]
    rfl
  refine .inr ⟨hl, ?_⟩
  rw [Literal.Undamaged, Literal.leading, Literal.leading,
    Decimal.leading_zeros (hzero (digits_shorten_subset digits10 l)),
    Decimal.leading_zeros (hzero (List.Subset.refl _))]

/-! ## 2. All inputs -/

namespace FloatReadingLemmas

/-- The C locale finds what has been copied. -/
theorem find_char_at {v : Nat} (h : v < 10 ∨ v = exponent_index ∨ v = CacheBase.point ∨
    v = CacheBase.plus ∨ v = CacheBase.minus) : classic.find (widen (char_at v)) = v := by
  have hall : ∀ v : Fin 22, (v.val < 10 ∨ v.val = exponent_index ∨ v.val = CacheBase.point ∨
      v.val = CacheBase.plus ∨ v.val = CacheBase.minus) →
        classic.find (widen (char_at v.val)) = v.val := by decide
  refine hall ⟨v, ?_⟩ h
  rcases h with h | rfl | rfl | rfl | rfl
  · omega
  all_goals decide

theorem mem_spellSign {g : Option Sign} {v : Nat} (h : v ∈ spellSign g) :
    v = CacheBase.plus ∨ v = CacheBase.minus := by
  cases g with
  | none => cases h
  | some g =>
    rw [List.mem_singleton.mp h]
    cases g
    · exact .inl rfl
    · exact .inr rfl

theorem mem_spellDigits {ds : List (Fin 10)} {v : Nat} (h : v ∈ spellDigits ds) : v < 10 := by
  obtain ⟨d, -, rfl⟩ := List.mem_map.mp h
  exact d.isLt

theorem mem_spell {l : Literal} {v : Nat} (h : v ∈ literal.spell l) :
    v < 10 ∨ v = exponent_index ∨ v = CacheBase.point ∨ v = CacheBase.plus ∨
      v = CacheBase.minus := by
  rw [spell_parts] at h
  simp only [List.mem_append] at h
  rcases h with ((h | h) | h) | h
  · exact .inr (.inr (.inr (mem_spellSign h)))
  · exact .inl (mem_spellDigits h)
  · cases hf : l.fraction with
    | none =>
      rw [hf] at h
      cases h
    | some ds =>
      rw [hf] at h
      rcases List.mem_cons.mp h with rfl | h
      · exact .inr (.inr (.inl rfl))
      · exact .inl (mem_spellDigits h)
  · cases hx : l.exponent with
    | none =>
      rw [hx] at h
      cases h
    | some x =>
      rw [hx] at h
      rcases List.mem_cons.mp h with rfl | h
      · exact .inr (.inl rfl)
      · rcases List.mem_append.mp h with h | h
        · exact .inr (.inr (.inr (mem_spellSign h)))
        · exact .inl (mem_spellDigits h)

/-- The text is read back as the literal that it spells. -/
theorem textValue_spelled (l : Literal) : textValue (spelled (literal.spell l)) = l.value := by
  have hfind : ((spelled (literal.spell l)).map widen).map classic.find = literal.spell l := by
    rw [spelled, List.map_map, List.map_map]
    exact (List.map_congr_left fun v hv => find_char_at (mem_spell hv)).trans (List.map_id _)
  rw [textValue, layout, hfind, literal.read_spelled]

theorem signed_mul (g : Option Sign) (x y : ℚ) : signed g x * y = signed g (x * y) := by
  unfold signed
  split
  · rw [neg_mul]
  · rfl

theorem cut_signed (n : Nat) (g : Option Sign) (x : ℚ) :
    Decimal.cut n (signed g x) = signed g (Decimal.cut n x) := by
  unfold signed
  split
  · exact Decimal.cut_neg
  · rfl

theorem signed_injective {g : Option Sign} {x y : ℚ} : signed g x = signed g y ↔ x = y := by
  unfold signed
  split
  · exact neg_inj
  · rfl

/-- Agreement in the first significant digits can be read off the digits. -/
theorem agrees_iff {digits10 : Nat} (hpos : 0 < digits10) (l : Literal) :
    Decimal.cut digits10 ((l.shorten digits10).value * ((10 ^ l.scale digits10 : Nat) : ℚ)) =
        Decimal.cut digits10 l.value ↔ l.Undamaged digits10 := by
  have hlt : ∀ ds : List (Fin 10), ∀ d ∈ ds.map Fin.val, d < 10 := by
    intro ds d hd
    obtain ⟨d, -, rfl⟩ := List.mem_map.mp hd
    exact d.isLt
  have hshift : ∀ (ds : List Nat) (e : ℤ) (s : Nat),
      Decimal.value ds e * ((10 ^ s : Nat) : ℚ) = Decimal.value ds (e + s) := by
    intro ds e s
    rw [Decimal.value, Decimal.value, mul_assoc, zpow_add₀ (by norm_num), zpow_natCast]
    push_cast
    rfl
  have hsign : (l.shorten digits10).sign = l.sign := rfl
  rw [Literal.value, Literal.value, signed_mul, hshift, hsign, cut_signed, cut_signed,
    signed_injective, Decimal.cut_eq_iff hpos (hlt _) (hlt _), Literal.Undamaged, Literal.leading,
    Literal.leading, Nat.cast_zero, add_zero]

end FloatReadingLemmas

open FloatReadingLemmas

end Kuhllib.Cxxrt.FloatInput
