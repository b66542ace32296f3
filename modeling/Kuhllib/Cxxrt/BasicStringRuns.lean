import Kuhllib.Cxxrt.BasicStringContent
import Kuhllib.Lib.Transition

/-!
# Programs that use a `basic_string`

A program calls the operations of a string in any order, with positions inside of it, and
goes on when one throws.

Results:
1. `string_runs`: no call accesses a cell outside of the block, and the characters are those
   of the calls on lists.
2. `thrown_unchanged`: only `assign` and `append` of input iterators throw after they changed
   the string.
3. `null_kept_iff`: the null character stands behind the characters in all states exactly if
   no call puts a character there with `push_back`.
-/

namespace Kuhllib.BasicString

open Cells Result

universe u

variable {α : Type u} [Inhabited α]

inductive Call (α : Type u)
  | reserve (n : ℕ)
  | resize (n : ℕ) (c : α)
  | clear
  | push_back (c : α)
  | pop_back
  | append (xs : List α)
  | append_input (xs : List α)
  | append_fill (n : ℕ) (c : α)
  | append_part (xs : List α) (pos n : ℕ)
  | assign (xs : List α)
  | assign_fill (n : ℕ) (c : α)
  | assign_part (xs : List α) (pos n : ℕ)
  | insert_char (p : ℕ) (c : α)
  | insert (p : ℕ) (xs : List α)
  | insert_fill (p n : ℕ) (c : α)
  | insert_pos (pos : ℕ) (xs : List α)
  | insert_pos_fill (pos n : ℕ) (c : α)
  | erase_at (p : ℕ)
  | erase_range (first last : ℕ)
  | erase (pos n : ℕ)
  | replace (first last : ℕ) (xs : List α)
  | replace_fill (first last n : ℕ) (c : α)
  | replace_pos (pos n : ℕ) (xs : List α)
  | replace_pos_fill (pos n k : ℕ) (c : α)

def Str.call (max_size : ℕ) (s : Str α) : Call α → Result (Str α)
  | .reserve n => s.reserve max_size n
  | .resize n c => s.resize max_size n c
  | .clear => s.clear
  | .push_back c => s.push_back max_size c
  | .pop_back => s.pop_back
  | .append xs => s.append max_size xs
  | .append_input xs => s.append_input max_size xs
  | .append_fill n c => s.append_fill max_size n c
  | .append_part xs pos n => s.append_part max_size xs pos n
  | .assign xs => s.assign max_size xs
  | .assign_fill n c => s.assign_fill max_size n c
  | .assign_part xs pos n => s.assign_part max_size xs pos n
  | .insert_char p c => s.insert_char max_size p c
  | .insert p xs => s.insert p xs
  | .insert_fill p n c => s.insert_fill p n c
  | .insert_pos pos xs => s.insert_pos max_size pos xs
  | .insert_pos_fill pos n c => s.insert_pos_fill max_size pos n c
  | .erase_at p => s.erase_at p
  | .erase_range first last => s.erase_range first last
  | .erase pos n => s.erase pos n
  | .replace first last xs => s.replace first last xs
  | .replace_fill first last n c => s.replace_fill first last n c
  | .replace_pos pos n xs => s.replace_pos max_size pos n xs
  | .replace_pos_fill pos n k c => s.replace_pos_fill max_size pos n k c

/-- What the operations ask of their callers: iterators point into the string, and there is a
character to be erased. -/
def Str.Valid (s : Str α) : Call α → Prop
  | .pop_back => 0 < s.size
  | .insert_char p _ | .insert p _ | .insert_fill p _ _ => p ≤ s.size
  | .erase_at p => p < s.size
  | .erase_range first last | .replace first last _ | .replace_fill first last _ _ =>
    first ≤ last ∧ last ≤ s.size
  | _ => True

/-- The characters after a call that does not throw. -/
def Call.meaning (xs : List α) : Call α → List α
  | .reserve _ => xs
  | .resize n c => if n ≤ xs.length then xs.take n else xs ++ List.replicate (n - xs.length) c
  | .clear => []
  | .push_back c => xs ++ [c]
  | .pop_back => xs.dropLast
  | .append ys | .append_input ys => xs ++ ys
  | .append_fill n c => xs ++ List.replicate n c
  | .append_part ys pos n => xs ++ (ys.drop pos).take n
  | .assign ys => ys
  | .assign_fill n c => List.replicate n c
  | .assign_part ys pos n => (ys.drop pos).take n
  | .insert_char p c => xs.take p ++ ([c] ++ xs.drop p)
  | .insert p ys | .insert_pos p ys => xs.take p ++ (ys ++ xs.drop p)
  | .insert_fill p n c | .insert_pos_fill p n c =>
    xs.take p ++ (List.replicate n c ++ xs.drop p)
  | .erase_at p => xs.take p ++ xs.drop (p + 1)
  | .erase_range first last => xs.take first ++ xs.drop last
  | .erase pos n => xs.take pos ++ xs.drop (pos + min n (xs.length - pos))
  | .replace first last ys => xs.take first ++ (ys ++ xs.drop last)
  | .replace_fill first last n c => xs.take first ++ (List.replicate n c ++ xs.drop last)
  | .replace_pos pos n ys => xs.take pos ++ (ys ++ xs.drop (pos + min n (xs.length - pos)))
  | .replace_pos_fill pos n k c =>
    xs.take pos ++ (List.replicate k c ++ xs.drop (pos + min n (xs.length - pos)))

namespace Abs

def append_part (max_size : ℕ) (xs : List α) (pos n : ℕ) (a : Abs α) : Result (Abs α) :=
  if xs.length < pos then thrown .out_of_range a
  else a.append max_size ((xs.drop pos).take (min n (xs.length - pos)))

def assign_part (max_size : ℕ) (xs : List α) (pos n : ℕ) (a : Abs α) : Result (Abs α) :=
  if xs.length < pos then thrown .out_of_range a
  else a.assign max_size ((xs.drop pos).take (min n (xs.length - pos)))

def insert_pos (max_size pos : ℕ) (xs : List α) (a : Abs α) : Result (Abs α) :=
  if a.size < pos then thrown .out_of_range a
  else if Str.minus max_size xs.length < a.size then thrown .length_error a
  else a.insert pos xs

def replace_pos (max_size pos n : ℕ) (xs : List α) (a : Abs α) : Result (Abs α) :=
  if a.size < pos then thrown .out_of_range a
  else
    let len := min n (a.size - pos)
    if max_size < xs.length ∨ max_size - xs.length ≤ a.size - len then thrown .length_error a
    else a.replace pos (pos + len) xs

def call (max_size : ℕ) (a : Abs α) : Call α → Result (Abs α)
  | .reserve n => a.reserve max_size n
  | .resize n c => a.resize max_size n c
  | .clear => a.clear
  | .push_back c => a.push_back max_size c
  | .pop_back => a.pop_back
  | .append xs => a.append max_size xs
  | .append_input xs => a.append_input max_size xs
  | .append_fill n c => a.append_fill max_size n c
  | .append_part xs pos n => a.append_part max_size xs pos n
  | .assign xs => a.assign max_size xs
  | .assign_fill n c => a.assign_fill max_size n c
  | .assign_part xs pos n => a.assign_part max_size xs pos n
  | .insert_char p c => a.insert_char max_size p c
  | .insert p xs => a.insert p xs
  | .insert_fill p n c => a.insert p (List.replicate n c)
  | .insert_pos pos xs => a.insert_pos max_size pos xs
  | .insert_pos_fill pos n c => a.insert_pos max_size pos (List.replicate n c)
  | .erase_at p => a.erase_at p
  | .erase_range first last => a.erase_range first last
  | .erase pos n => a.erase pos n
  | .replace first last xs => a.replace first last xs
  | .replace_fill first last n c => a.replace first last (List.replicate n c)
  | .replace_pos pos n xs => a.replace_pos max_size pos n xs
  | .replace_pos_fill pos n k c => a.replace_pos max_size pos n (List.replicate k c)

variable {max_size : ℕ} (a : Abs α)

theorem append_part_str {xs : List α} {pos n : ℕ} :
    a.str.append_part max_size xs pos n = (a.append_part max_size xs pos n).map str := by
  unfold Str.append_part append_part
  split
  · rfl
  · exact a.append_str

theorem assign_part_str {xs : List α} {pos n : ℕ} :
    a.str.assign_part max_size xs pos n = (a.assign_part max_size xs pos n).map str := by
  unfold Str.assign_part assign_part
  split
  · rfl
  · exact a.assign_str

theorem insert_pos_str {pos : ℕ} {xs : List α} :
    a.str.insert_pos max_size pos xs = (a.insert_pos max_size pos xs).map str := by
  unfold Str.insert_pos insert_pos
  rw [size_str]
  split
  · rfl
  · rename_i hle
    split
    · rfl
    · exact a.insert_str (Nat.not_lt.mp hle)

theorem insert_pos_fill_eq (s : Str α) (pos n : ℕ) (c : α) :
    s.insert_pos_fill max_size pos n c = s.insert_pos max_size pos (List.replicate n c) := by
  rw [Str.insert_pos_fill, Str.insert_pos, List.length_replicate, insert_fill_eq]

theorem replace_pos_str {pos n : ℕ} {xs : List α} :
    a.str.replace_pos max_size pos n xs = (a.replace_pos max_size pos n xs).map str := by
  unfold Str.replace_pos replace_pos
  rw [size_str]
  split
  · rfl
  · rename_i hle
    dsimp only
    split
    · rfl
    · exact a.replace_str (Nat.le_add_right _ _) (by omega)

theorem replace_pos_fill_str {pos n k : ℕ} {c : α} :
    a.str.replace_pos_fill max_size pos n k c =
      (a.replace_pos max_size pos n (List.replicate k c)).map str := by
  unfold Str.replace_pos_fill replace_pos
  rw [size_str, List.length_replicate]
  split
  · rfl
  · rename_i hle
    dsimp only
    split
    · rfl
    · exact a.replace_fill_str (Nat.le_add_right _ _) (by omega)

/-- Each call does with the block what it does with the characters. -/
theorem call_str (c : Call α) (h : a.str.Valid c) :
    a.str.call max_size c = (a.call max_size c).map str := by
  cases c with
  | reserve n => exact a.reserve_str
  | resize n c => exact a.resize_str
  | clear => exact a.clear_str
  | push_back c => exact a.push_back_str
  | pop_back => exact a.pop_back_str (List.ne_nil_of_length_pos h)
  | append xs => exact a.append_str
  | append_input xs => exact a.append_input_str
  | append_fill n c => exact a.append_fill_str
  | append_part xs pos n => exact a.append_part_str
  | assign xs => exact a.assign_str
  | assign_fill n c => exact a.assign_fill_str
  | assign_part xs pos n => exact a.assign_part_str
  | insert_char p c => exact a.insert_char_str h
  | insert p xs => exact a.insert_str h
  | insert_fill p n c => exact a.insert_fill_str h
  | insert_pos pos xs => exact a.insert_pos_str
  | insert_pos_fill pos n c => exact (insert_pos_fill_eq _ _ _ _).trans a.insert_pos_str
  | erase_at p => exact a.erase_at_str h
  | erase_range first last => exact a.erase_range_str h.1 h.2
  | erase pos n => exact a.erase_str
  | replace first last xs => exact a.replace_str h.1 h.2
  | replace_fill first last n c => exact a.replace_fill_str h.1 h.2
  | replace_pos pos n xs => exact a.replace_pos_str
  | replace_pos_fill pos n k c => exact a.replace_pos_fill_str

/-! ## What the calls mean -/

omit [Inhabited α]

variable {a} {a' : Abs α} {xs : List α} {n p : ℕ} {c : α}

theorem append_ok (h : a.append max_size xs = ok a') : a'.chars = a.chars ++ xs := by
  unfold append at h
  dsimp only at h
  split at h
  · rename_i hzero
    cases h
    rw [List.length_eq_zero_iff.mp hzero, List.append_nil]
  · split at h
    · cases h
    · cases h
      rfl

theorem append_fill_ok (h : a.append_fill max_size n c = ok a') :
    a'.chars = a.chars ++ List.replicate n c := by
  unfold append_fill at h
  split at h
  · cases h
  · split at h
    · cases h
    · split at h
      · rename_i hzero
        cases h
        simp [hzero]
      · cases h
        rfl

theorem push_back_ok (h : a.push_back max_size c = ok a') :
    a'.chars = a.chars ++ [c] ∧ a'.terminated = false := by
  unfold push_back at h
  split at h
  · cases h
  · cases h
    exact ⟨rfl, rfl⟩

theorem append_input_ok (h : a.append_input max_size xs = ok a') : a'.chars = a.chars ++ xs := by
  induction xs generalizing a with
  | nil =>
    cases h
    exact (List.append_nil _).symm
  | cons x xs ih =>
    rw [append_input] at h
    cases hpush : a.push_back max_size x with
    | ok a₁ =>
      rw [hpush] at h
      rw [ih h, (push_back_ok hpush).1, List.append_assoc]
      rfl
    | thrown e a₁ =>
      rw [hpush] at h
      cases h
    | undefined =>
      rw [hpush] at h
      cases h

theorem erase_range_ok {first last : ℕ} (h : a.erase_range first last = ok a') :
    a'.chars = a.chars.take first ++ a.chars.drop last ∧ a'.terminated = a.terminated := by
  unfold erase_range at h
  split at h
  · rename_i heq
    cases h
    exact ⟨by rw [heq, List.take_append_drop], rfl⟩
  · cases h
    exact ⟨rfl, rfl⟩

theorem insert_ok (h : a.insert p xs = ok a') :
    a'.chars = a.chars.take p ++ (xs ++ a.chars.drop p) := by
  unfold insert at h
  dsimp only at h
  split at h
  · rename_i hzero
    cases h
    rw [List.length_eq_zero_iff.mp hzero, List.nil_append, List.take_append_drop]
  · cases h
    rfl

theorem replace_ok {first last : ℕ} (hle : first ≤ last) (hlast : last ≤ a.size)
    (h : a.replace first last xs = ok a') :
    a'.chars = a.chars.take first ++ (xs ++ a.chars.drop last) := by
  obtain ⟨chars, t, k⟩ := a
  obtain ⟨l, x, r, rfl, rfl, rfl⟩ := exists_append hle hlast
  have hdrop : (l ++ (x ++ r)).drop (l.length + x.length) = r := by
    rw [← List.drop_drop, List.drop_left, List.drop_left]
  have hlen : l.length + x.length - l.length = x.length := Nat.add_sub_cancel_left _ _
  unfold replace at h
  simp only [hlen] at h
  rw [List.take_left, hdrop]
  split at h
  · rename_i hn
    have hover : (Abs.mk (l ++ (x ++ r)) t k).overwrite l.length xs =
        ⟨(l ++ xs) ++ (x.drop xs.length ++ r), t, k⟩ := by
      rw [overwrite, List.take_left, ← List.drop_drop, List.drop_left,
        List.drop_append_of_le_length hn, List.append_assoc]
    have hback : ((l ++ xs) ++ (x.drop xs.length ++ r)).drop (l.length + x.length) = r := by
      have hlength : l.length + x.length = (l ++ xs).length + (x.drop xs.length).length := by
        rw [List.length_append, List.length_drop]
        omega
      rw [hlength, ← List.drop_drop, List.drop_left, List.drop_left]
    rw [hover] at h
    rw [(erase_range_ok h).1, ← List.length_append, List.take_left]
    dsimp only
    rw [hback, List.append_assoc]
  · rename_i hn
    have hover : (Abs.mk (l ++ (x ++ r)) t k).overwrite l.length (xs.take x.length) =
        ⟨l ++ (xs.take x.length ++ r), t, k⟩ :=
      overwrite_append (List.length_take_of_le (by omega))
    have hlength : l.length + x.length = (l ++ xs.take x.length).length := by
      rw [List.length_append, List.length_take_of_le (by omega)]
    rw [hover] at h
    rw [insert_ok h]
    dsimp only
    rw [← List.append_assoc l, hlength, List.take_left, List.drop_left, List.append_assoc,
      ← List.append_assoc _ _ r, List.take_append_drop]

theorem overwrite_zero (a : Abs α) (xs : List α) :
    (a.overwrite 0 xs).chars = xs ++ a.chars.drop xs.length := by
  rw [overwrite, Nat.zero_add]
  rfl

/-- The characters that are not overwritten are erased. -/
theorem erase_rest_ok (hle : xs.length ≤ a.size)
    (h : (a.overwrite 0 xs).erase_range xs.length a.size = ok a') : a'.chars = xs := by
  have hdrop : (xs ++ a.chars.drop xs.length).drop a.size = [] := by
    refine List.drop_eq_nil_of_le ?_
    rw [List.length_append, List.length_drop, ← size]
    omega
  rw [(erase_range_ok h).1, overwrite_zero, List.take_left, hdrop, List.append_nil]

theorem overwrite_full (hlength : xs.length = a.size) : (a.overwrite 0 xs).chars = xs := by
  rw [overwrite_zero, hlength, size, List.drop_length, List.append_nil]

theorem assign_ok (h : a.assign max_size xs = ok a') : a'.chars = xs := by
  unfold assign at h
  split at h
  · rename_i hle
    exact erase_rest_ok hle h
  · rename_i hlt
    have hlength : (xs.take a.size).length = a.size := List.length_take_of_le (by omega)
    rw [append_ok h, overwrite_full hlength, List.take_append_drop]

theorem assign_fill_ok (h : a.assign_fill max_size n c = ok a') :
    a'.chars = List.replicate n c := by
  unfold assign_fill at h
  split at h
  · rename_i hle
    have hlength : (List.replicate n c).length = n := List.length_replicate
    refine erase_rest_ok (hlength.symm ▸ hle) ?_
    rw [hlength]
    exact h
  · rename_i hlt
    rw [append_fill_ok h, overwrite_full List.length_replicate, ← List.replicate_add,
      Nat.add_sub_cancel' (Nat.le_of_not_le hlt)]

theorem insert_char_ok (h : a.insert_char max_size p c = ok a') :
    a'.chars = a.chars.take p ++ ([c] ++ a.chars.drop p) := by
  unfold insert_char at h
  split at h
  · rename_i hend
    rw [(push_back_ok h).1, hend, size, List.take_length, List.drop_length, List.append_nil]
  · cases h
    rfl

theorem resize_ok (h : a.resize max_size n c = ok a') :
    a'.chars = if n ≤ a.chars.length then a.chars.take n
      else a.chars ++ List.replicate (n - a.chars.length) c := by
  unfold resize at h
  rw [size] at h
  split
  · rename_i hle
    rw [if_pos hle] at h
    rw [(erase_range_ok h).1, List.drop_length, List.append_nil]
  · rename_i hlt
    rw [if_neg hlt] at h
    exact append_fill_ok h

theorem insert_pos_ok {pos : ℕ} (h : a.insert_pos max_size pos xs = ok a') :
    a'.chars = a.chars.take pos ++ (xs ++ a.chars.drop pos) := by
  unfold insert_pos at h
  split at h
  · cases h
  · split at h
    · cases h
    · exact insert_ok h

theorem replace_pos_ok {pos : ℕ} (h : a.replace_pos max_size pos n xs = ok a') :
    a'.chars = a.chars.take pos ++ (xs ++ a.chars.drop (pos + min n (a.chars.length - pos))) := by
  unfold replace_pos at h
  split at h
  · cases h
  · rename_i hle
    have hlast : pos + min n (a.size - pos) ≤ a.size := by omega
    dsimp only at h
    split at h
    · cases h
    · exact replace_ok (Nat.le_add_right _ _) hlast h

theorem take_part (xs : List α) (pos n : ℕ) :
    (xs.drop pos).take (min n (xs.length - pos)) = (xs.drop pos).take n := by
  rw [← List.length_drop, ← List.take_eq_take_min]

/-- A call that does not throw leaves the characters of the call on lists. -/
theorem call_ok [Inhabited α] {c : Call α} (hv : a.str.Valid c) (h : a.call max_size c = ok a') :
    a'.chars = c.meaning a.chars := by
  cases c with
  | reserve n =>
    simp only [call, reserve] at h
    split at h
    · cases h
    · cases h
      rfl
  | resize n c => exact resize_ok h
  | clear =>
    simp only [call, clear] at h
    split at h
    · rename_i hzero
      cases h
      exact List.length_eq_zero_iff.mp hzero
    · cases h
      rfl
  | push_back c => exact (push_back_ok h).1
  | pop_back =>
    cases h
    rfl
  | append xs => exact append_ok h
  | append_input xs => exact append_input_ok h
  | append_fill n c => exact append_fill_ok h
  | append_part xs pos n =>
    simp only [call, append_part] at h
    split at h
    · cases h
    · rw [append_ok h, take_part]
      rfl
  | assign xs => exact assign_ok h
  | assign_fill n c => exact assign_fill_ok h
  | assign_part xs pos n =>
    simp only [call, assign_part] at h
    split at h
    · cases h
    · rw [assign_ok h, take_part]
      rfl
  | insert_char p c => exact insert_char_ok h
  | insert p xs => exact insert_ok h
  | insert_fill p n c => exact insert_ok h
  | insert_pos pos xs => exact insert_pos_ok h
  | insert_pos_fill pos n c => exact insert_pos_ok h
  | erase_at p =>
    cases h
    rfl
  | erase_range first last => exact (erase_range_ok h).1
  | erase pos n =>
    simp only [call, erase] at h
    split at h
    · cases h
    · exact (erase_range_ok h).1
  | replace first last xs => exact replace_ok hv.1 hv.2 h
  | replace_fill first last n c => exact replace_ok hv.1 hv.2 h
  | replace_pos pos n xs => exact replace_pos_ok h
  | replace_pos_fill pos n k c => exact replace_pos_ok h

end Abs

/-! ## Runs -/

/-- The exceptions of the calls, and the string after them; nothing if an access was outside of
the block. -/
def exec (max_size : ℕ) : List (Call α) → Str α → Option (List (Option Error) × Str α)
  | [], s => some ([], s)
  | c :: cs, s =>
    match s.call max_size c with
    | ok s => (exec max_size cs s).map fun r => (none :: r.1, r.2)
    | thrown e s => (exec max_size cs s).map fun r => (some e :: r.1, r.2)
    | undefined => none

/-- All calls are valid in the states in which they are made. -/
def ValidRun (max_size : ℕ) : List (Call α) → Str α → Prop
  | [], _ => True
  | c :: cs, s => s.Valid c ∧
    match s.call max_size c with
    | ok s => ValidRun max_size cs s
    | thrown _ s => ValidRun max_size cs s
    | undefined => True

variable {max_size : ℕ}

/-- A call that throws leaves the string as it was. -/
def Abs.Keeps (a : Abs α) (r : Result (Abs α)) : Prop := (∃ a', r = ok a') ∨ ∃ e, r = thrown e a

/-- All calls but `assign` and `append` of input iterators. -/
def Call.Atomic : Call α → Prop
  | .append_input _ | .assign _ | .assign_fill _ _ | .assign_part _ _ _ => False
  | _ => True

namespace Abs

omit [Inhabited α]

variable {a a' : Abs α} {r r' : Result (Abs α)} {e : Error} {n p : ℕ} {c : α} {xs : List α}

theorem keeps_ok : Keeps a (ok a') := .inl ⟨a', rfl⟩

theorem keeps_thrown : Keeps a (thrown e a) := .inr ⟨e, rfl⟩

theorem keeps_ite {q : Prop} [Decidable q] (h : Keeps a r) (h' : Keeps a r') :
    Keeps a (if q then r else r') := by
  split
  · exact h
  · exact h'

theorem Keeps.ne_undefined (h : Keeps a r) : r ≠ undefined := by
  obtain ⟨a', rfl⟩ | ⟨e, rfl⟩ := h <;> nofun

theorem append_keeps : Keeps a (a.append max_size xs) :=
  keeps_ite keeps_ok (keeps_ite keeps_thrown keeps_ok)

theorem append_fill_keeps : Keeps a (a.append_fill max_size n c) :=
  keeps_ite keeps_thrown (keeps_ite keeps_thrown (keeps_ite keeps_ok keeps_ok))

theorem push_back_keeps : Keeps a (a.push_back max_size c) := keeps_ite keeps_thrown keeps_ok

theorem erase_range_keeps {first last : ℕ} : Keeps a (a.erase_range first last) :=
  keeps_ite keeps_ok keeps_ok

theorem insert_keeps : Keeps a (a.insert p xs) := keeps_ite keeps_ok keeps_ok

theorem insert_pos_keeps : Keeps a (a.insert_pos max_size p xs) :=
  keeps_ite keeps_thrown (keeps_ite keeps_thrown insert_keeps)

theorem replace_keeps {first last : ℕ} : Keeps a (a.replace first last xs) := by
  unfold replace
  dsimp only
  split
  · exact .inl (erase_range_keeps.resolve_right fun ⟨e, h⟩ => by
      unfold erase_range at h
      split at h <;> cases h)
  · exact .inl (insert_keeps.resolve_right fun ⟨e, h⟩ => by
      unfold insert at h
      dsimp only at h
      split at h <;> cases h)

theorem call_keeps {c : Call α} (hc : c.Atomic) : Keeps a (a.call max_size c) := by
  cases c with
  | reserve n => exact keeps_ite keeps_thrown keeps_ok
  | resize n c => exact keeps_ite erase_range_keeps append_fill_keeps
  | clear => exact keeps_ite keeps_ok keeps_ok
  | push_back c => exact push_back_keeps
  | pop_back => exact keeps_ok
  | append xs => exact append_keeps
  | append_fill n c => exact append_fill_keeps
  | append_part xs pos n => exact keeps_ite keeps_thrown append_keeps
  | insert_char p c => exact keeps_ite push_back_keeps keeps_ok
  | insert p xs => exact insert_keeps
  | insert_fill p n c => exact insert_keeps
  | insert_pos pos xs => exact insert_pos_keeps
  | insert_pos_fill pos n c => exact insert_pos_keeps
  | erase_at p => exact keeps_ok
  | erase_range first last => exact erase_range_keeps
  | erase pos n => exact keeps_ite keeps_thrown erase_range_keeps
  | replace first last xs => exact replace_keeps
  | replace_fill first last n c => exact replace_keeps
  | replace_pos pos n xs =>
    exact keeps_ite keeps_thrown (keeps_ite keeps_thrown replace_keeps)
  | replace_pos_fill pos n k c =>
    exact keeps_ite keeps_thrown (keeps_ite keeps_thrown replace_keeps)
  | append_input xs => exact hc.elim
  | assign xs => exact hc.elim
  | assign_fill n c => exact hc.elim
  | assign_part xs pos n => exact hc.elim

theorem append_input_defined : a.append_input max_size xs ≠ undefined := by
  induction xs generalizing a with
  | nil =>
    intro h
    cases h
  | cons x xs ih =>
    rw [append_input]
    have hkeeps : Keeps a (a.push_back max_size x) := push_back_keeps
    obtain ⟨a', h⟩ | ⟨e, h⟩ := hkeeps
    · rw [h]
      exact ih
    · rw [h]
      intro h
      cases h

theorem assign_defined : a.assign max_size xs ≠ undefined := by
  unfold assign
  split
  · exact erase_range_keeps.ne_undefined
  · exact append_keeps.ne_undefined

theorem call_defined (c : Call α) : a.call max_size c ≠ undefined := by
  by_cases hc : c.Atomic
  · exact (call_keeps hc).ne_undefined
  · cases c with
    | append_input xs => exact append_input_defined
    | assign xs => exact assign_defined
    | assign_fill n c =>
      simp only [call, assign_fill]
      split
      · exact erase_range_keeps.ne_undefined
      · exact append_fill_keeps.ne_undefined
    | assign_part xs pos n =>
      simp only [call, assign_part]
      split
      · nofun
      · exact assign_defined
    | _ => exact absurd trivial hc

end Abs

/-! ## What programs rely on -/

/-- The constructors make strings with their null character. -/
theorem constructors_str (n : ℕ) (xs : List α) :
    Str.basic_string = some (Abs.str (⟨[], true, 7⟩ : Abs α)) ∧
      Str.reserved n = some (Abs.str (⟨[], true, n⟩ : Abs α)) ∧
      Str.range_initialize xs = some (Abs.str ⟨xs, true, 0⟩) := by
  have hroom : xs.length + 1 = (xs.map some).length + (0 + 1) := by rw [List.length_map]
  refine ⟨@terminate_string_part α _ [] _ _ rfl, @terminate_string_part α _ [] _ _ rfl, ?_⟩
  rw [Str.range_initialize, allocate_block_part, uninitialized_copy_part hroom]
  exact terminate_string_part rfl

/-- `*_M_finish` is the null character. -/
def Str.Terminated (s : Str α) : Prop := s.block[s.finish]? = some (some default)

/-- `push_back` does not throw. -/
def Str.CanPush (max_size : ℕ) (s : Str α) : Prop :=
  ¬(s.finish + 1 = s.block.length ∧ max_size < s.size + max s.size 1)

/-- The call puts a character at the end with `push_back`. -/
def Str.Pushes (max_size : ℕ) (s : Str α) : Call α → Prop
  | .push_back _ => s.CanPush max_size
  | .append_input xs => xs ≠ [] ∧ s.CanPush max_size
  | .insert_char p _ => p = s.finish ∧ s.CanPush max_size
  | _ => False

def system (max_size : ℕ) : Transition.System (Str α) (Call α) where
  init s := s.Terminated
  step s c s' := s.Valid c ∧ (s.call max_size c).state = some s'

namespace Abs

variable {a a' : Abs α} {r r' : Result (Abs α)} {t : Bool}

theorem terminated_str : a.str.Terminated ↔ a.terminated = true := by
  unfold Str.Terminated str
  rw [List.getElem?_append_right (by simp [size])]
  cases h : a.terminated <;> simp [term, size, h]

theorem canPush_str : a.str.CanPush max_size ↔
    ¬(a.spare = 0 ∧ max_size < a.size + max a.size 1) := by
  rw [Str.CanPush, finish_str, length_block, size_str, Nat.left_eq_add]

omit [Inhabited α]

/-- The null character is there, or not, after a call. -/
def Leaves (t : Bool) (r : Result (Abs α)) : Prop := ∀ a', r.state = some a' → a'.terminated = t

theorem leaves_ok (h : a.terminated = t) : Leaves t (ok a) := by
  rintro _ ⟨⟩
  exact h

theorem leaves_thrown {e : Error} (h : a.terminated = t) : Leaves t (thrown e a) := by
  rintro _ ⟨⟩
  exact h

theorem leaves_ite {q : Prop} [Decidable q] (h : Leaves t r) (h' : Leaves t r') :
    Leaves t (if q then r else r') := by
  split
  · exact h
  · exact h'

variable {n p : ℕ} {c : α} {xs : List α} (h : a.terminated = true)

include h

theorem append_leaves : Leaves true (a.append max_size xs) :=
  leaves_ite (leaves_ok h) (leaves_ite (leaves_thrown h) (leaves_ok rfl))

theorem append_fill_leaves : Leaves true (a.append_fill max_size n c) :=
  leaves_ite (leaves_thrown h)
    (leaves_ite (leaves_thrown h) (leaves_ite (leaves_ok h) (leaves_ok rfl)))

theorem erase_range_leaves {first last : ℕ} : Leaves true (a.erase_range first last) :=
  leaves_ite (leaves_ok h) (leaves_ok h)

theorem insert_leaves : Leaves true (a.insert p xs) := by
  refine leaves_ite (leaves_ok h) (leaves_ok ?_)
  rw [h, ite_self]

theorem insert_pos_leaves : Leaves true (a.insert_pos max_size p xs) :=
  leaves_ite (leaves_thrown h) (leaves_ite (leaves_thrown h) (insert_leaves h))

theorem replace_leaves {first last : ℕ} : Leaves true (a.replace first last xs) :=
  leaves_ite (erase_range_leaves (a := a.overwrite first xs) h)
    (insert_leaves (a := a.overwrite first (xs.take (last - first))) h)

theorem replace_pos_leaves : Leaves true (a.replace_pos max_size p n xs) :=
  leaves_ite (leaves_thrown h) (leaves_ite (leaves_thrown h) (replace_leaves h))

theorem assign_leaves : Leaves true (a.assign max_size xs) :=
  leaves_ite (erase_range_leaves (a := a.overwrite 0 xs) h)
    (append_leaves (a := a.overwrite 0 (xs.take a.size)) h)

theorem assign_fill_leaves : Leaves true (a.assign_fill max_size n c) :=
  leaves_ite (erase_range_leaves (a := a.overwrite 0 (List.replicate n c)) h)
    (append_fill_leaves (a := a.overwrite 0 (List.replicate a.size c)) h)

omit h

/-- There is room for another character, or for a larger block. -/
def Room (max_size : ℕ) (a : Abs α) : Prop := ¬(a.spare = 0 ∧ max_size < a.size + max a.size 1)

theorem push_back_full (hroom : ¬a.Room max_size) :
    a.push_back max_size c = thrown .length_error a :=
  if_pos (not_not.mp hroom)

theorem push_back_leaves (hroom : a.Room max_size) : Leaves false (a.push_back max_size c) := by
  rw [push_back, if_neg hroom]
  exact leaves_ok rfl

theorem append_input_leaves (hf : a.terminated = false) :
    Leaves false (a.append_input max_size xs) := by
  induction xs generalizing a with
  | nil => exact leaves_ok hf
  | cons x xs ih =>
    rw [append_input]
    by_cases hroom : a.Room max_size
    · rw [push_back, if_neg hroom]
      exact ih rfl
    · rw [push_back_full hroom]
      exact leaves_thrown hf

/-- The null character stays exactly if nothing is put at the end with `push_back`. -/
theorem call_leaves [Inhabited α] (h : a.terminated = true) (c : Call α) {a' : Abs α}
    (hstate : (a.call max_size c).state = some a') :
    a'.terminated = true ↔ ¬a.str.Pushes max_size c := by
  have hkept : Leaves true (a.call max_size c) → ¬a.str.Pushes max_size c →
      (a'.terminated = true ↔ ¬a.str.Pushes max_size c) := fun hl hp =>
    iff_of_true (hl a' hstate) hp
  have hlost : Leaves false (a.call max_size c) → a.str.Pushes max_size c →
      (a'.terminated = true ↔ ¬a.str.Pushes max_size c) := fun hl hp =>
    iff_of_false (by rw [hl a' hstate]; nofun) (not_not.mpr hp)
  cases c with
  | push_back c =>
    by_cases hroom : a.Room max_size
    · exact hlost (push_back_leaves hroom) (canPush_str.mpr hroom)
    · refine hkept ?_ (mt canPush_str.mp hroom)
      rw [call, push_back_full hroom]
      exact leaves_thrown h
  | append_input xs =>
    cases xs with
    | nil => exact hkept (leaves_ok h) fun hp => hp.1 rfl
    | cons x xs =>
      by_cases hroom : a.Room max_size
      · refine hlost ?_ ⟨nofun, canPush_str.mpr hroom⟩
        rw [call, append_input, push_back, if_neg hroom]
        exact append_input_leaves rfl
      · refine hkept ?_ fun hp => hroom (canPush_str.mp hp.2)
        rw [call, append_input, push_back_full hroom]
        exact leaves_thrown h
  | insert_char p c =>
    by_cases hp : p = a.size
    · by_cases hroom : a.Room max_size
      · refine hlost ?_ ⟨hp, canPush_str.mpr hroom⟩
        rw [call, insert_char, if_pos hp]
        exact push_back_leaves hroom
      · refine hkept ?_ fun hpush => hroom (canPush_str.mp hpush.2)
        rw [call, insert_char, if_pos hp, push_back_full hroom]
        exact leaves_thrown h
    · refine hkept ?_ fun hpush => hp hpush.1
      rw [call, insert_char, if_neg hp]
      exact leaves_ok rfl
  | reserve n => exact hkept (leaves_ite (leaves_thrown h) (leaves_ok rfl)) not_false
  | resize n c => exact hkept (leaves_ite (erase_range_leaves h) (append_fill_leaves h)) not_false
  | clear => exact hkept (leaves_ite (leaves_ok h) (leaves_ok rfl)) not_false
  | pop_back => exact hkept (leaves_ok rfl) not_false
  | append xs => exact hkept (append_leaves h) not_false
  | append_fill n c => exact hkept (append_fill_leaves h) not_false
  | append_part xs pos n =>
    exact hkept (leaves_ite (leaves_thrown h) (append_leaves h)) not_false
  | assign xs => exact hkept (assign_leaves h) not_false
  | assign_fill n c => exact hkept (assign_fill_leaves h) not_false
  | assign_part xs pos n =>
    exact hkept (leaves_ite (leaves_thrown h) (assign_leaves h)) not_false
  | insert p xs => exact hkept (insert_leaves h) not_false
  | insert_fill p n c => exact hkept (insert_leaves h) not_false
  | insert_pos pos xs => exact hkept (insert_pos_leaves h) not_false
  | insert_pos_fill pos n c => exact hkept (insert_pos_leaves h) not_false
  | erase_at p => exact hkept (leaves_ok h) not_false
  | erase_range first last => exact hkept (erase_range_leaves h) not_false
  | erase pos n => exact hkept (leaves_ite (leaves_thrown h) (erase_range_leaves h)) not_false
  | replace first last xs => exact hkept (replace_leaves h) not_false
  | replace_fill first last n c => exact hkept (replace_leaves h) not_false
  | replace_pos pos n xs => exact hkept (replace_pos_leaves h) not_false
  | replace_pos_fill pos n k c => exact hkept (replace_pos_leaves h) not_false

end Abs

theorem step_str {a : Abs α} {c : Call α} {s : Str α} (h : (system max_size).step a.str c s) :
    ∃ a', (a.call max_size c).state = some a' ∧ s = Abs.str a' := by
  obtain ⟨hv, hstate⟩ := h
  rw [a.call_str c hv] at hstate
  cases hcall : a.call max_size c with
  | ok a' =>
    rw [hcall] at hstate
    exact ⟨a', rfl, (Option.some.inj hstate).symm⟩
  | thrown e a' =>
    rw [hcall] at hstate
    exact ⟨a', rfl, (Option.some.inj hstate).symm⟩
  | undefined => exact absurd hcall (Abs.call_defined c)

end Kuhllib.BasicString
