import Mathlib.Data.Nat.Digits.Defs

/-!
# Numerals

The value of a list of digits to a base, most significant digit first.
-/

namespace Numeral

variable {b d : Nat} {ds es : List Nat}

def value (b : Nat) (ds : List Nat) : Nat := ds.foldl (fun v d => v * b + d) 0

theorem foldl_eq (b v : Nat) (ds : List Nat) :
    ds.foldl (fun v d => v * b + d) v = v * b ^ ds.length + value b ds := by
  induction ds generalizing v with
  | nil => simp [value]
  | cons d ds ih =>
    have hcons : value b (d :: ds) = d * b ^ ds.length + value b ds := by
      rw [value, List.foldl_cons, Nat.zero_mul, Nat.zero_add, ih]
    rw [List.foldl_cons, ih, hcons, List.length_cons, pow_succ]
    ring

@[simp]
theorem value_nil : value b [] = 0 := rfl

theorem value_cons : value b (d :: ds) = d * b ^ ds.length + value b ds := by
  rw [value, List.foldl_cons, foldl_eq, Nat.zero_mul, Nat.zero_add]

@[simp]
theorem value_zero_cons : value b (0 :: ds) = value b ds := by
  rw [value_cons, Nat.zero_mul, Nat.zero_add]

theorem value_lt (h : ∀ d ∈ ds, d < b) : value b ds < b ^ ds.length := by
  induction ds with
  | nil => simp
  | cons d ds ih =>
    have hd := h d List.mem_cons_self
    have hds := ih fun d hd => h d (List.mem_cons_of_mem _ hd)
    rw [value_cons, List.length_cons, pow_succ]
    have hmul : (d + 1) * b ^ ds.length ≤ b * b ^ ds.length := Nat.mul_le_mul_right _ hd
    rw [Nat.add_mul, Nat.one_mul] at hmul
    rw [Nat.mul_comm (b ^ ds.length)]
    omega

/-- A numeral without leading zeros is not less than the power of its length. -/
theorem le_value (hd : d ≠ 0) : b ^ ds.length ≤ value b (d :: ds) := by
  rw [value_cons]
  exact Nat.le_add_right_of_le (Nat.le_mul_of_pos_left _ (Nat.pos_of_ne_zero hd))

theorem value_append : value b (ds ++ es) = value b ds * b ^ es.length + value b es := by
  rw [value, List.foldl_append, foldl_eq]
  rfl

/-- Digits of one length have one value only if they are the same. -/
theorem value_injective (hlen : ds.length = es.length) (hds : ∀ d ∈ ds, d < b)
    (hes : ∀ d ∈ es, d < b) (h : value b ds = value b es) : ds = es := by
  induction ds generalizing es with
  | nil => exact (List.length_eq_zero_iff.mp hlen.symm).symm
  | cons d ds ih =>
    cases es with
    | nil => cases hlen
    | cons e es =>
      have hlen' : ds.length = es.length := Nat.succ.inj hlen
      have hds' := fun x hx => hds x (List.mem_cons_of_mem _ hx)
      have hes' := fun x hx => hes x (List.mem_cons_of_mem _ hx)
      have hlt := value_lt hds'
      have hlt' := value_lt hes'
      have hpos : 0 < b ^ es.length := Nat.zero_lt_of_lt hlt'
      rw [value_cons, value_cons, hlen', Nat.mul_comm, Nat.mul_comm e] at h
      rw [hlen'] at hlt
      have hhead : d = e := by
        have hdiv := congrArg (· / b ^ es.length) h
        rwa [Nat.mul_add_div hpos, Nat.mul_add_div hpos, Nat.div_eq_of_lt hlt,
          Nat.div_eq_of_lt hlt', Nat.add_zero, Nat.add_zero] at hdiv
      subst hhead
      rw [ih hlen' hds' hes' (Nat.add_left_cancel h)]

theorem value_digits (b n : Nat) : value b (Nat.digits b n).reverse = n := by
  rw [value, List.foldl_reverse]
  conv => rhs; rw [← Nat.ofDigits_digits b n, Nat.ofDigits_eq_foldr]
  congr 1
  funext d v
  simp [Nat.mul_comm, Nat.add_comm]

end Numeral
