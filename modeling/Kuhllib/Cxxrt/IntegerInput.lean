import Kuhllib.Cxxrt.IntegerGrammar

/-!
# What is stored

A value out of the range of the target is replaced by the limit of the target. A
negative one is taken modulo the size of an unsigned target.

Results:
1. `get_signed_integer_grammar`: reading `long`.
2. `fullRange_iff`: when the unsigned targets get their value, and when `eofbit` tells
   the end of the input.
-/

namespace Kuhllib.Cxxrt

/-- The value of the digits with their sign. -/
def signedValue (bf : Basefield) (s : List Int) : Int :=
  if isNegative s then -(magnitude bf s : Int) else magnitude bf s

/-- The value replaced by a limit of `long` if it lies beyond it. -/
def limited (v : Int) : Int :=
  if long_max < v then long_max else if v < long_min then long_min else v

def Unsigned.limited (u : Unsigned) (bf : Basefield) (s : List Int) : Nat :=
  if u.max < magnitude bf s then u.max
  else if isNegative s then (u.max + 1 - magnitude bf s) % (u.max + 1)
  else magnitude bf s

/-! ## 1. Signed targets -/

namespace IntegerInputLemmas

variable {bf : Basefield} {input p : List Int}

theorem capacity_bounds (b : Nat) : 2 ^ 63 ≤ capacity b ∧ capacity b ≤ 2 ^ 64 := by
  unfold capacity
  split <;> decide

theorem longest_unique {p' : List Int} (h : Longest bf input p) (h' : Longest bf input p') :
    p = p' := by
  have hlen : p.length = p'.length :=
    Nat.le_antisymm (h'.longest p h.initial h.viable) (h.longest p' h'.initial h'.viable)
  exact (List.prefix_of_prefix_length_le h.initial h'.initial (Nat.le_of_eq hlen)).eq_of_length hlen

theorem signed_failed (val : Int) (h : Consumed bf input p (get_integer classic bf input))
    (hd : digitsOf p = []) : (get_signed_integer classic bf input val).val = val := by
  obtain ⟨hok, hval⟩ := h.failed hd
  simp only [get_signed_integer, hok, hval]
  rfl

theorem signed_read (val : Int) (h : Consumed bf input p (get_integer classic bf input))
    (hd : digitsOf p ≠ []) :
    (get_signed_integer classic bf input val).val = limited (signedValue bf p) := by
  obtain ⟨hok, hval⟩ := h.read hd
  obtain ⟨hlow, hhigh⟩ := capacity_bounds (radix bf (unsignedPart p))
  have hmin : (-long_min).toNat = 2 ^ 63 := by decide
  have hmax : long_max.toNat = 2 ^ 63 - 1 := by decide
  have hlmin : long_min = -2 ^ 63 := by decide
  have hlmax : long_max = 2 ^ 63 - 1 := by decide
  simp only [get_signed_integer, h.negative, hok, hval, limited, signedValue, hmin, hmax]
  by_cases hn : magnitude bf p < capacity (radix bf (unsignedPart p))
  · simp only [hn, decide_true, if_true]
    by_cases hneg : isNegative p = true
    · simp only [hneg, if_true]
      by_cases hbig : magnitude bf p > 2 ^ 63
      · rw [if_pos hbig]
        split <;> omega
      · rw [if_neg hbig, Int.bmod_eq_of_le (by omega) (by omega)]
        split <;> omega
    · simp only [hneg, Bool.false_eq_true, if_false]
      split <;> split <;> omega
  · simp only [hn, decide_false, Bool.false_eq_true, if_false, if_true]
    by_cases hneg : isNegative p = true
    · simp only [hneg, if_true]
      split <;> omega
    · simp only [hneg, Bool.false_eq_true, if_false]
      split <;> omega

end IntegerInputLemmas

open IntegerGrammarLemmas IntegerInputLemmas

/-- The longest beginning that can be continued to an integer is consumed. It fails if
there is no digit, and stores the value of the digits otherwise. -/
theorem get_signed_integer_grammar (bf : Basefield) (input : List Int) (val : Int) :
    let g := get_signed_integer classic bf input val
    ∃ p, Longest bf input p ∧ input = p ++ g.begin ∧ (g.failbit = true ↔ digitsOf p = []) ∧
      (digitsOf p = [] → g.val = val) ∧
      (digitsOf p ≠ [] → g.val = limited (signedValue bf p)) := by
  obtain ⟨p, h⟩ := get_integer_spec bf input
  exact ⟨p, h.longest, h.split, h.failbit, signed_failed val h, signed_read val h⟩

/-! ## 2. Unsigned targets -/

/-- The value of the consumed digits is stored, and the end is told. -/
structure FullRange (bf : Basefield) (input : List Int) : Prop where
  stored : ∀ (u : Unsigned) (val : Nat) (p : List Int),
    input = p ++ (get_unsigned_integer classic u bf input val).begin → digitsOf p ≠ [] →
      (get_unsigned_integer classic u bf input val).val = u.limited bf p
  eofbit : ∀ (u : Unsigned) (val : Nat),
    (get_unsigned_integer classic u bf input val).eofbit = true ↔
      (get_unsigned_integer classic u bf input val).begin = []
  eofbit_signed : ∀ val : Int,
    (get_signed_integer classic bf input val).eofbit = true ↔
      (get_signed_integer classic bf input val).begin = []

/-- A numeral to base 8 with 22 digits behind its zeros that fits into `unsigned long`,
where the greatest value is the one that is stored anyway. -/
def TopOctal (bf : Basefield) (input : List Int) : Prop :=
  ∃ p, Longest bf input p ∧ radix bf (unsignedPart p) = 8 ∧
    8 ^ 21 ≤ magnitude bf p ∧ magnitude bf p ≤ ulong_max ∧
      (magnitude bf p = ulong_max → isNegative p = true)

namespace IntegerInputLemmas

variable {bf : Basefield} {input p : List Int}

theorem digits_of_magnitude (h : 0 < magnitude bf p) : digitsOf p ≠ [] := by
  intro hd
  rw [magnitude, hd] at h
  exact absurd h (by simp)

/-- What fits into the targets is stored, as far as the digits are counted. -/
theorem unsigned_read (u : Unsigned) (val : Nat)
    (h : Consumed bf input p (get_integer classic bf input)) (hd : digitsOf p ≠ []) :
    (get_unsigned_integer classic u bf input val).val =
      if magnitude bf p < capacity (radix bf (unsignedPart p)) then u.limited bf p else u.max := by
  obtain ⟨hok, hval⟩ := h.read hd
  simp only [get_unsigned_integer, h.negative, hok, hval, Unsigned.limited]
  by_cases hn : magnitude bf p < capacity (radix bf (unsignedPart p))
  · simp only [hn, decide_true, if_true, gt_iff_lt]
  · simp only [hn, decide_false, Bool.false_eq_true, if_false, if_true]

theorem topOctal_iff (h : Longest bf input p) :
    TopOctal bf input ↔ radix bf (unsignedPart p) = 8 ∧ 8 ^ 21 ≤ magnitude bf p ∧
      magnitude bf p ≤ ulong_max ∧ (magnitude bf p = ulong_max → isNegative p = true) := by
  constructor
  · rintro ⟨p', h', hp'⟩
    rwa [longest_unique h h']
  · intro hp
    exact ⟨p, h, hp⟩

theorem le_ulong_max (u : Unsigned) : u.max ≤ ulong_max := by
  cases u <;> decide

/-- A numeral that does not fit into the digits counted. -/
theorem limited_of_capacity (h : Longest bf input p) (ht : ¬ TopOctal bf input) (u : Unsigned)
    (hn : capacity (radix bf (unsignedPart p)) ≤ magnitude bf p) : u.limited bf p = u.max := by
  have hu := le_ulong_max u
  have hulong : ulong_max + 1 = 2 ^ 64 := by decide
  by_cases hlt : u.max < magnitude bf p
  · exact if_pos hlt
  · unfold capacity at hn
    split at hn
    next hoct =>
      rw [topOctal_iff h] at ht
      have hneg : magnitude bf p = ulong_max ∧ isNegative p ≠ true := by
        by_contra hno
        refine ht ⟨hoct, hn, by omega, fun heq => ?_⟩
        by_contra hpos
        exact hno ⟨heq, hpos⟩
      rw [Unsigned.limited, if_neg hlt, if_neg hneg.2]
      omega
    next => omega

theorem limited_long (h : Longest bf input p) (ht : TopOctal bf input) :
    capacity (radix bf (unsignedPart p)) ≤ magnitude bf p ∧
      Unsigned.limited .long bf p ≠ ulong_max := by
  obtain ⟨hoct, hlow, hhigh, hneg⟩ := (topOctal_iff h).mp ht
  have hulong : ulong_max + 1 = 2 ^ 64 := by decide
  have hmax : Unsigned.max .long = ulong_max := rfl
  refine ⟨by rwa [hoct], ?_⟩
  rw [Unsigned.limited, hmax, if_neg (Nat.not_lt.mpr hhigh)]
  by_cases hp : isNegative p = true
  · rw [if_pos hp, Nat.mod_eq_of_lt (by omega)]
    omega
  · rw [if_neg hp]
    exact fun heq => hp (hneg heq)

theorem start_unsignedPart (h : Viable bf p) : Start bf (unsignedPart p) := by
  rcases viable_iff.mp h with h | ⟨c, t, hc, hstart, rfl⟩
  · cases p with
    | nil => exact h
    | cons c p =>
      rwa [unsignedPart_other (not_sign_of_start h)]
  · rwa [unsignedPart_sign hc]

theorem not_start_lone (h : LonePrefix bf p) : ¬ Start bf p := by
  obtain ⟨-, x, c, rest, rfl, hx, hc, -⟩ := h
  -- neither the `x` nor what follows it is a digit
  have hdigits : ∀ {b : Nat}, ¬ Digits b (widen '0' :: x :: c :: rest) := by
    intro b h
    obtain ⟨d, hd, -⟩ := h x (by simp)
    rw [digit_hex hx] at hd
    cases hd
  have hprefix : ¬ ∃ x' ds, isHex x' ∧ Digits 16 ds ∧
      widen '0' :: x :: c :: rest = widen '0' :: x' :: ds := by
    rintro ⟨x', ds, -, hds, he⟩
    obtain ⟨-, htail⟩ := List.cons.inj he
    obtain ⟨-, rfl⟩ := List.cons.inj htail
    obtain ⟨d, hd, -⟩ := hds c List.mem_cons_self
    rw [hc] at hd
    cases hd
  intro h
  cases bf with
  | oct | dec => exact hdigits h
  | hex => exact h.elim hdigits hprefix
  | none =>
    rcases h with ⟨-, h⟩ | ⟨-, h⟩ | h
    · exact hdigits h
    · exact hdigits h
    · exact hprefix h

theorem stored_iff (val : Nat) (h : Consumed bf input p (get_integer classic bf input))
    (hd : digitsOf p ≠ []) :
    (∀ u : Unsigned, (get_unsigned_integer classic u bf input val).val = u.limited bf p) ↔
      ¬ TopOctal bf input := by
  constructor
  · intro hstored ht
    obtain ⟨hcap, hne⟩ := limited_long h.longest ht
    have hlong := hstored .long
    rw [unsigned_read .long val h hd, if_neg (Nat.not_lt.mpr hcap)] at hlong
    exact hne hlong.symm
  · intro ht u
    rw [unsigned_read u val h hd]
    split
    next => rfl
    next hn => exact (limited_of_capacity h.longest ht u (Nat.not_lt.mp hn)).symm

end IntegerInputLemmas

theorem fullRange_iff (bf : Basefield) (input : List Int) :
    FullRange bf input ↔ ¬ TopOctal bf input ∧ ¬ LonePrefix bf (unsignedPart input) := by
  obtain ⟨p, h⟩ := get_integer_spec bf input
  have hstored := stored_iff 0 h
  constructor
  · intro hfull
    refine ⟨fun ht => ?_, fun hlone => ?_⟩
    · have hpos : 0 < magnitude bf p :=
        Nat.lt_of_lt_of_le (by decide) ((topOctal_iff h.longest).mp ht).2.1
      have hd := digits_of_magnitude hpos
      exact (hstored hd).mp (fun u => hfull.stored u 0 p h.split hd) ht
    · have hbegin : (get_integer classic bf input).begin = [] :=
        (hfull.eofbit_signed 0).mp (h.eofbit.mpr (.inr hlone))
      have hsplit := h.split
      rw [hbegin, List.append_nil] at hsplit
      have hviable : Viable bf input := hsplit ▸ h.longest.viable
      exact not_start_lone hlone (start_unsignedPart hviable)
  · rintro ⟨ht, hlone⟩
    have heof : (get_integer classic bf input).eofbit = true ↔
        (get_integer classic bf input).begin = [] := by
      rw [h.eofbit, or_iff_left hlone]
    refine ⟨fun u val q hq hd => ?_, fun u val => heof, fun val => heof⟩
    obtain rfl : p = q := List.append_cancel_right (h.split.symm.trans hq)
    exact (stored_iff val h hd).mpr ht u

theorem not_fullRange :
    ¬ FullRange .oct ("1000000000000000000000".toList.map widen) ∧
      ¬ FullRange .none ("0xg".toList.map widen) := by
  constructor
  · intro h
    have := h.stored .long 0 ("1000000000000000000000".toList.map widen)
      (by decide +kernel) (by decide +kernel)
    exact absurd this (by decide +kernel)
  · intro h
    exact absurd (h.eofbit .long 0) (by decide +kernel)

end Kuhllib.Cxxrt
