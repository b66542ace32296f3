import Mathlib.Data.UInt
import Mathlib.Logic.Function.Basic

/-!
# Words in a memory of bytes

`load` and `store` read and write a number of some bytes, the lowest byte first, and `copy`
copies bytes between places that do not overlap.
-/

namespace ByteMemory

abbrev Memory := ℕ → UInt8

def load (m : Memory) (p : ℕ) : ℕ → ℕ
  | 0 => 0
  | k + 1 => (m p).toNat + 256 * load m (p + 1) k

def store (m : Memory) (p v : ℕ) : ℕ → Memory
  | 0 => m
  | k + 1 => store (Function.update m p (UInt8.ofNat v)) (p + 1) (v / 256) k

def copy (m : Memory) (dest src n : ℕ) : Memory := fun a =>
  if dest ≤ a ∧ a < dest + n then m (src + (a - dest)) else m a

variable {m m' : Memory} {p v a k dest src n i : ℕ}

theorem load_congr (h : ∀ a, p ≤ a → a < p + k → m a = m' a) : load m p k = load m' p k := by
  induction k generalizing p with
  | zero => rfl
  | succ k ih =>
    rw [load, load, h p le_rfl (by omega), ih fun a hp ha => h a (by omega) (by omega)]

theorem store_outside (h : a < p ∨ p + k ≤ a) : store m p v k a = m a := by
  induction k generalizing m p v with
  | zero => rfl
  | succ k ih =>
    rw [store, ih (by omega), Function.update_of_ne (by omega)]

theorem load_store (m : Memory) (p v k : ℕ) : load (store m p v k) p k = v % 256 ^ k := by
  induction k generalizing m p v with
  | zero => simp [load, Nat.mod_one]
  | succ k ih =>
    have hfirst : store m p v (k + 1) p = UInt8.ofNat v := by
      rw [store, store_outside (by omega), Function.update_self]
    have hbyte : (UInt8.ofNat v).toNat = v % 256 := UInt8.toNat_ofNat'
    rw [load, hfirst, hbyte, store, ih, Nat.pow_succ', Nat.mod_mul]

theorem copy_inside (h : i < n) : copy m dest src n (dest + i) = m (src + i) := by
  rw [copy, if_pos (by omega), Nat.add_sub_cancel_left]

theorem copy_outside (h : a < dest ∨ dest + n ≤ a) : copy m dest src n a = m a :=
  if_neg (by omega)

theorem copy_self (m : Memory) (p n : ℕ) : copy m p p n = m := by
  funext a
  unfold copy
  split
  · rename_i h
    rw [Nat.add_sub_cancel' h.1]
  · rfl

end ByteMemory
