import Mathlib.Data.Nat.Bitwise
import Mathlib.Data.Nat.Size

/-!
# The highest bit by masks

A mask keeps the bits whose index has one certain bit set. Masking a number with the
masks of `2 ^ k, .., 2, 1` in turn, each if a bit remains, narrows it to its highest bit,
and the masks that were used make up the index of that bit.
-/

namespace BitLength

variable {x m p J : Nat}

/-- The indices with the bit `J`. -/
def IsMask (J m : Nat) : Prop := ∀ i < 32, m.testBit i = decide (i / J % 2 = 1)

instance (J m : Nat) : Decidable (IsMask J m) := inferInstanceAs (Decidable (∀ i < 32, _))

/-- `p` is the highest bit of `x`, and all bits of `x` are in its block of `J`. -/
structure Narrowed (J p x : Nat) : Prop where
  highest : x.testBit p = true
  block : ∀ i, x.testBit i = true → i ≤ p ∧ i / J = p / J

/-- The mask keeps the highest bit and halves the block, or it removes everything. -/
theorem Narrowed.mask (h : Narrowed (J * 2) p x) (hm : IsMask J m) (hp : p < 32) :
    p / J % 2 = 1 ∧ x &&& m ≠ 0 ∧ Narrowed J p (x &&& m) ∨
      p / J % 2 = 0 ∧ x &&& m = 0 ∧ Narrowed J p x := by
  have hhalf : ∀ i, x.testBit i = true → i ≤ p ∧ i / J / 2 = p / J / 2 := by
    intro i hi
    obtain ⟨hle, hblock⟩ := h.block i hi
    rw [Nat.div_div_eq_div_mul, Nat.div_div_eq_div_mul]
    exact ⟨hle, hblock⟩
  have hbit : ∀ i, (x &&& m).testBit i = true ↔ x.testBit i = true ∧ i / J % 2 = 1 := by
    intro i
    rw [Nat.testBit_and, Bool.and_eq_true]
    refine and_congr_right fun hi => ?_
    rw [hm i (Nat.lt_of_le_of_lt (hhalf i hi).1 hp), decide_eq_true_iff]
  rcases Nat.mod_two_eq_zero_or_one (p / J) with heven | hodd
  · right
    refine ⟨heven, ?_, h.highest, fun i hi => ?_⟩
    · refine Nat.eq_of_testBit_eq fun i => ?_
      rw [Nat.zero_testBit, Bool.eq_false_iff]
      intro hi
      obtain ⟨hx, hmod⟩ := (hbit i).mp hi
      obtain ⟨hle, hblock⟩ := hhalf i hx
      have := Nat.div_le_div_right (c := J) hle
      omega
    · obtain ⟨hle, hblock⟩ := hhalf i hi
      have := Nat.div_le_div_right (c := J) hle
      exact ⟨hle, by omega⟩
  · left
    have hhigh : (x &&& m).testBit p = true := (hbit p).mpr ⟨h.highest, hodd⟩
    refine ⟨hodd, ?_, hhigh, fun i hi => ?_⟩
    · intro hzero
      rw [hzero, Nat.zero_testBit] at hhigh
      cases hhigh
    · obtain ⟨hx, hmod⟩ := (hbit i).mp hi
      obtain ⟨hle, hblock⟩ := hhalf i hx
      exact ⟨hle, by omega⟩

/-- The index of the highest bit up to its block. -/
theorem block_start (J p : Nat) :
    p - p % J = p - p % (J * 2) + J * (p / J % 2) := by
  have hmod := Nat.mod_mul (x := p) (a := J) (b := 2)
  have hle := Nat.mod_le p (J * 2)
  omega

/-! ## Counting the masks used -/

def narrow (J m : Nat) (s : Nat × Nat) : Nat × Nat :=
  if s.1 &&& m ≠ 0 then (s.1 &&& m, s.2 + J) else s

/-- The count is one more than the index of the highest bit up to its block. -/
structure Counted (J p : Nat) (s : Nat × Nat) : Prop where
  narrowed : Narrowed J p s.1
  count : s.2 = 1 + (p - p % J)

theorem Counted.narrow {s : Nat × Nat} (h : Counted (J * 2) p s) (hm : IsMask J m) (hp : p < 32) :
    Counted J p (narrow J m s) := by
  have hstart := block_start J p
  have hcount := h.count
  unfold BitLength.narrow
  rcases h.narrowed.mask hm hp with ⟨hodd, hne, hn⟩ | ⟨heven, hzero, hn⟩
  · rw [if_pos hne]
    rw [hodd] at hstart
    exact ⟨hn, by dsimp only; omega⟩
  · rw [if_neg (not_not.mpr hzero)]
    rw [heven] at hstart
    exact ⟨hn, by omega⟩

/-- The count is the length of the number when its highest bit is left. -/
theorem Counted.count_eq {s : Nat × Nat} (h : Counted 1 p s) : s.2 = p + 1 := by
  have := h.count
  omega

theorem counted_start (hx : x ≠ 0) (hlt : x < 2 ^ 32) : Counted 32 (Nat.size x - 1) (x, 1) := by
  have hpos : 0 < Nat.size x := Nat.size_pos.mpr (Nat.pos_of_ne_zero hx)
  have hsize : Nat.size x ≤ 32 := Nat.size_le.mpr hlt
  have hlow : 2 ^ (Nat.size x - 1) ≤ x := Nat.lt_size.mp (by omega)
  refine ⟨⟨?_, fun i hi => ?_⟩, by dsimp only; omega⟩
  · refine Nat.testBit_of_two_pow_le_and_two_pow_add_one_gt hlow ?_
    rw [Nat.sub_add_cancel hpos]
    exact Nat.lt_size_self x
  · have hi' : i < Nat.size x := Nat.lt_size.mpr (Nat.ge_two_pow_of_testBit hi)
    omega

end BitLength
