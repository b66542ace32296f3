import Kuhllib.Cxxrt.BasicString

/-!
# The characters of a `basic_string`

`Abs` is a string without its block: the characters, whether the null character stands
behind them, and how many cells are left. Each operation of the code takes the block that
`Abs.str` describes to the block of what the operation with the same name does here.
-/

namespace Kuhllib.BasicString

open Cells Result

universe u

variable {α : Type u} [Inhabited α]

structure Abs (α : Type u) where
  chars : List α
  terminated : Bool
  spare : ℕ
deriving DecidableEq, Repr

namespace Abs

def size (a : Abs α) : ℕ := a.chars.length

def term (a : Abs α) : Option α := if a.terminated then some default else none

/-- The characters, the cell for the null character, and memory without objects. -/
def str (a : Abs α) : Str α :=
  ⟨a.chars.map some ++ ([a.term] ++ List.replicate a.spare none), a.size⟩

def reserve (max_size n : ℕ) (a : Abs α) : Result (Abs α) :=
  if max_size < n then thrown .length_error a
  else ok ⟨a.chars, true, max n a.size - a.size⟩

def append_fill (max_size n : ℕ) (c : α) (a : Abs α) : Result (Abs α) :=
  if max_size < n ∨ max_size - n < a.size then thrown .length_error a
  else if a.spare < n ∧ max_size < a.size + max a.size n then thrown .length_error a
  else if n = 0 then ok a
  else
    ok ⟨a.chars ++ List.replicate n c, true,
      (if a.spare < n then max a.size n else a.spare) - n⟩

def append (max_size : ℕ) (xs : List α) (a : Abs α) : Result (Abs α) :=
  let n := xs.length
  if n = 0 then ok a
  else if max_size < n ∨ max_size - n < a.size then thrown .length_error a
  else ok ⟨a.chars ++ xs, true, (if a.spare < n then max a.size n else a.spare) - n⟩

def push_back (max_size : ℕ) (c : α) (a : Abs α) : Result (Abs α) :=
  if a.spare = 0 ∧ max_size < a.size + max a.size 1 then thrown .length_error a
  else ok ⟨a.chars ++ [c], false, (if a.spare = 0 then max a.size 1 else a.spare) - 1⟩

def append_input (max_size : ℕ) : List α → Abs α → Result (Abs α)
  | [], a => ok a
  | x :: xs, a => (a.push_back max_size x).bind (append_input max_size xs)

def pop_back (a : Abs α) : Result (Abs α) := ok ⟨a.chars.dropLast, true, a.spare + 1⟩

def clear (a : Abs α) : Result (Abs α) :=
  if a.size = 0 then ok a else ok ⟨[], true, a.spare + a.size⟩

def erase_at (p : ℕ) (a : Abs α) : Result (Abs α) :=
  ok ⟨a.chars.take p ++ a.chars.drop (p + 1), a.terminated, a.spare + 1⟩

def erase_range (first last : ℕ) (a : Abs α) : Result (Abs α) :=
  if first = last then ok a
  else ok ⟨a.chars.take first ++ a.chars.drop last, a.terminated, a.spare + (last - first)⟩

def erase (pos n : ℕ) (a : Abs α) : Result (Abs α) :=
  if a.size < pos then thrown .out_of_range a
  else a.erase_range pos (pos + min n (a.size - pos))

def resize (max_size n : ℕ) (c : α) (a : Abs α) : Result (Abs α) :=
  if n ≤ a.size then a.erase_range n a.size else a.append_fill max_size (n - a.size) c

/-- The first characters become `xs`. -/
def overwrite (i : ℕ) (xs : List α) (a : Abs α) : Abs α :=
  { a with chars := a.chars.take i ++ (xs ++ a.chars.drop (i + xs.length)) }

def assign_fill (max_size n : ℕ) (c : α) (a : Abs α) : Result (Abs α) :=
  if n ≤ a.size then (a.overwrite 0 (List.replicate n c)).erase_range n a.size
  else (a.overwrite 0 (List.replicate a.size c)).append_fill max_size (n - a.size) c

def assign (max_size : ℕ) (xs : List α) (a : Abs α) : Result (Abs α) :=
  if xs.length ≤ a.size then (a.overwrite 0 xs).erase_range xs.length a.size
  else (a.overwrite 0 (xs.take a.size)).append max_size (xs.drop a.size)

def insert_aux (p : ℕ) (c : α) (a : Abs α) : Result (Abs α) :=
  ok ⟨a.chars.take p ++ ([c] ++ a.chars.drop p), true,
    (if a.spare = 0 then max a.size 1 else a.spare) - 1⟩

def insert_char (max_size p : ℕ) (c : α) (a : Abs α) : Result (Abs α) :=
  if p = a.size then a.push_back max_size c else a.insert_aux p c

/-- Only in a new block the null character is written. -/
def insert (p : ℕ) (xs : List α) (a : Abs α) : Result (Abs α) :=
  let n := xs.length
  if n = 0 then ok a
  else
    ok ⟨a.chars.take p ++ (xs ++ a.chars.drop p), if a.spare < n then true else a.terminated,
      (if a.spare < n then max a.size n else a.spare) - n⟩

def insert_fill (p n : ℕ) (c : α) (a : Abs α) : Result (Abs α) := a.insert p (List.replicate n c)

def replace (first last : ℕ) (xs : List α) (a : Abs α) : Result (Abs α) :=
  let n := xs.length
  let len := last - first
  if n ≤ len then (a.overwrite first xs).erase_range (first + n) last
  else (a.overwrite first (xs.take len)).insert last (xs.drop len)

def replace_fill (first last n : ℕ) (c : α) (a : Abs α) : Result (Abs α) :=
  a.replace first last (List.replicate n c)

end Abs

/-! ## A block that is being filled -/

omit [Inhabited α]

/-- A new block in which the objects `xs` are constructed. -/
def part (xs : List (Option α)) (room : ℕ) : Str α := ⟨xs ++ List.replicate room none, xs.length⟩

theorem allocate_block_part (n : ℕ) : allocate_block n = part ([] : List (Option α)) n := rfl

theorem uninitialized_copy_part {xs ys : List (Option α)} {room left : ℕ}
    (h : room = ys.length + left) :
    uninitialized_copy (part xs room) ys = some (part (xs ++ ys) left) := by
  subst h
  have hput : put (part xs (ys.length + left)).block (part xs (ys.length + left)).finish ys =
      some (xs ++ (ys ++ List.replicate left none)) :=
    put_append (o := List.replicate ys.length none) (by rw [part, List.replicate_add]) rfl
      (List.length_replicate ..).symm
  rw [uninitialized_copy, hput]
  simp [part]

theorem terminate_string_part [Inhabited α] {xs : List α} {room spare : ℕ} (h : room = spare + 1) :
    terminate_string (part (xs.map some) room) = some (Abs.mk xs true spare).str := by
  subst h
  have hput : construct_null (part (xs.map some) (spare + 1)).block
      (part (xs.map some) (spare + 1)).finish =
      some (xs.map some ++ ([some default] ++ List.replicate spare none)) :=
    put_append (o := [none]) rfl rfl rfl
  rw [terminate_string, hput]
  simp [part, Abs.str, Abs.term, Abs.size]

namespace Abs

variable [Inhabited α] {max_size n p : ℕ} {c : α} {xs : List α} (a : Abs α)

@[simp]
theorem size_str : a.str.size = a.size := rfl

@[simp]
theorem finish_str : a.str.finish = a.size := rfl

@[simp]
theorem length_block : a.str.block.length = a.size + 1 + a.spare := by
  simp only [str, size, List.length_append, List.length_map, List.length_replicate,
    List.length_singleton]
  omega

@[simp]
theorem capacity_str : a.str.capacity = a.size + a.spare := by
  rw [Str.capacity, length_block]
  omega

theorem get_all : get a.str.block 0 a.size = some (a.chars.map some) :=
  get_append (p := []) rfl rfl (List.length_map ..).symm

/-! ## Longer strings -/

theorem reserve_str : a.str.reserve max_size n = (a.reserve max_size n).map str := by
  unfold Str.reserve reserve
  split
  · rfl
  · have hroom : max n a.size + 1 = (a.chars.map some).length + (max n a.size - a.size + 1) := by
      have hle := Nat.le_max_right n a.size
      rw [List.length_map, ← size]
      omega
    simp only [size_str, finish_str, get_all, Option.bind_eq_bind, Option.bind_some,
      allocate_block_part, uninitialized_copy_part hroom, List.nil_append,
      terminate_string_part rfl]
    rfl

/-- Characters that fit into the block: the first one replaces the null character last. -/
theorem append_in_place {x : α} {rest : List α} (h : rest.length + 1 ≤ a.spare) :
    (do
      let b ← put a.str.block (a.size + 1) (rest.map some)
      let b ← construct_null b (a.size + (rest.length + 1))
      let b ← put b a.size [some x]
      pure (Str.mk b (a.size + (rest.length + 1)))) =
      some (Abs.mk (a.chars ++ x :: rest) true (a.spare - (rest.length + 1))).str := by
  obtain ⟨m, hm⟩ := Nat.exists_eq_add_of_le h
  have hblock : a.str.block = (a.chars.map some ++ [a.term]) ++
      (List.replicate rest.length none ++ ([none] ++ List.replicate m none)) := by
    rw [str, hm, List.replicate_add, List.replicate_succ', List.append_assoc, List.append_assoc]
  have hsize : a.size = (a.chars.map some).length := (List.length_map ..).symm
  have hrest : put a.str.block (a.size + 1) (rest.map some) =
      some ((a.chars.map some ++ [a.term]) ++ (rest.map some ++ ([none] ++ List.replicate m none))) :=
    put_append hblock (by simp [hsize]) (by simp)
  have hnull : construct_null
      ((a.chars.map some ++ [a.term]) ++ (rest.map some ++ ([none] ++ List.replicate m none)))
      (a.size + (rest.length + 1)) =
      some ((a.chars.map some ++ ([a.term] ++ rest.map some)) ++
        ([some default] ++ List.replicate m none)) :=
    put_append (o := [none]) (by simp) (by simp [hsize]) rfl
  have hfirst : put ((a.chars.map some ++ ([a.term] ++ rest.map some)) ++
      ([some default] ++ List.replicate m none)) a.size [some x] =
      some (a.chars.map some ++ ([some x] ++ (rest.map some ++
        ([some default] ++ List.replicate m none)))) :=
    put_append (o := [a.term]) (by simp) hsize rfl
  simp only [hrest, hnull, hfirst, Option.bind_eq_bind, Option.bind_some, Option.pure_def, hm,
    Nat.add_sub_cancel_left]
  simp [str, term, size]

theorem append_str : a.str.append max_size xs = (a.append max_size xs).map str := by
  cases xs with
  | nil => rfl
  | cons x rest =>
    unfold Str.append append
    simp only [size_str, finish_str, capacity_str, List.length_cons, Nat.add_lt_add_iff_left,
      Nat.succ_ne_zero, if_false]
    split
    · rfl
    · split
      · rename_i hlt
        have hroom : a.size + max a.size (rest.length + 1) + 1 =
            (a.chars.map some).length + (max a.size (rest.length + 1) + 1) := by
          rw [List.length_map, ← size, Nat.add_assoc]
        have hroom' : max a.size (rest.length + 1) + 1 = ((x :: rest).map some).length +
            (max a.size (rest.length + 1) - (rest.length + 1) + 1) := by
          have hle := Nat.le_max_right a.size (rest.length + 1)
          rw [List.length_map, List.length_cons]
          omega
        simp only [get_all, Option.bind_eq_bind, Option.bind_some, allocate_block_part,
          uninitialized_copy_part hroom, uninitialized_copy_part hroom', List.nil_append,
          ← List.map_append, terminate_string_part rfl]
        rfl
      · rename_i hle
        rw [a.append_in_place (Nat.not_lt.mp hle)]
        rfl

/-- What `append(n, c)` and `append(first, last)` do in the block is the same. -/
theorem fill_in_place (h : n + 1 ≤ a.spare) :
    (do
      let b ← fill a.str.block (a.str.finish + 1) (n + 1 - 1) c
      let b ← construct_null b (a.str.finish + (n + 1))
      let b ← put b a.str.finish [some c]
      pure (Str.mk b (a.str.finish + (n + 1)))) =
      some (Abs.mk (a.chars ++ List.replicate (n + 1) c) true (a.spare - (n + 1))).str := by
  have hroom : (List.replicate n c).length + 1 ≤ a.spare := by simpa using h
  have hplace := a.append_in_place (x := c) hroom
  rw [List.map_replicate, List.length_replicate, ← List.replicate_succ] at hplace
  exact hplace

theorem append_fill_str : a.str.append_fill max_size n c = (a.append_fill max_size n c).map str := by
  unfold Str.append_fill append_fill
  simp only [size_str, capacity_str, Nat.add_lt_add_iff_left]
  split
  · rfl
  · split
    · rename_i hlt
      rw [reserve_str, reserve]
      split
      · rename_i hmax
        rw [if_pos ⟨hlt, hmax⟩]
        rfl
      · rename_i hmax
        rw [if_neg fun h => hmax h.2]
        obtain ⟨m, rfl⟩ : ∃ m, n = m + 1 := Nat.exists_eq_add_one.mpr (by omega)
        have hspare : max (a.size + max a.size (m + 1)) a.size - a.size = max a.size (m + 1) := by
          omega
        simp only [Result.map, Result.bind, if_pos (Nat.succ_pos m), Nat.succ_ne_zero, if_false,
          hspare]
        exact congrArg lift
          (fill_in_place ⟨a.chars, true, max a.size (m + 1)⟩ (Nat.le_max_right _ _))
    · rename_i hle
      rw [if_neg fun h => hle h.1]
      cases n with
      | zero => rfl
      | succ m =>
        simp only [Result.bind, if_pos (Nat.succ_pos m), Nat.succ_ne_zero, if_false,
          fill_in_place _ (Nat.not_lt.mp hle)]
        rfl

theorem push_in_place (h : 0 < a.spare) :
    (do
      let b ← put a.str.block a.str.finish [some c]
      pure (Str.mk b (a.str.finish + 1))) =
      some (Abs.mk (a.chars ++ [c]) false (a.spare - 1)).str := by
  have hput : put a.str.block a.str.finish [some c] =
      some (a.chars.map some ++ ([some c] ++ List.replicate a.spare none)) :=
    put_append (o := [a.term]) rfl (List.length_map ..).symm rfl
  obtain ⟨m, hm⟩ := Nat.exists_eq_add_one.mpr h
  simp only [hput, Option.bind_eq_bind, Option.bind_some, Option.pure_def, hm,
    Nat.add_sub_cancel]
  simp [str, term, size, List.replicate_succ]

theorem push_back_str : a.str.push_back max_size c = (a.push_back max_size c).map str := by
  unfold Str.push_back push_back
  simp only [finish_str, size_str, length_block, Nat.left_eq_add]
  split
  · rename_i hzero
    rw [reserve_str, reserve]
    split
    · rename_i hmax
      rw [if_pos ⟨hzero, hmax⟩]
      rfl
    · rename_i hmax
      have hspare : max (a.size + max a.size 1) a.size - a.size = max a.size 1 := by omega
      rw [if_neg fun h => hmax h.2, hspare]
      exact congrArg lift (push_in_place ⟨a.chars, true, max a.size 1⟩
        (Nat.lt_of_lt_of_le Nat.zero_lt_one (Nat.le_max_right _ _)))
  · rename_i hne
    rw [if_neg fun h => hne h.1]
    exact congrArg lift (a.push_in_place (Nat.pos_of_ne_zero hne))

theorem append_input_str :
    a.str.append_input max_size xs = (a.append_input max_size xs).map str := by
  induction xs generalizing a with
  | nil => rfl
  | cons x xs ih =>
    rw [Str.append_input, append_input, push_back_str]
    cases a.push_back max_size x with
    | ok a' => exact ih a'
    | thrown e a' => rfl
    | undefined => rfl

/-! ## Shorter strings -/

theorem pop_back_str (h : a.chars ≠ []) : a.str.pop_back = a.pop_back.map str := by
  obtain ⟨chars, t, k⟩ := a
  obtain ⟨l, x, rfl⟩ : ∃ l x, chars = l ++ [x] :=
    ⟨_, _, (List.dropLast_append_getLast h).symm⟩
  have hnull : put (Abs.mk (l ++ [x]) t k).str.block ((Abs.mk (l ++ [x]) t k).size - 1)
      [some default] = some (l.map some ++ ([some default] ++
        ([(Abs.mk (l ++ [x]) t k).term] ++ List.replicate k none))) :=
    put_append (o := [some x]) (by simp [str]) (by simp [size]) rfl
  have hdestroy : destroy (l.map some ++ ([some default] ++
      ([(Abs.mk (l ++ [x]) t k).term] ++ List.replicate k none))) (Abs.mk (l ++ [x]) t k).size
      ((Abs.mk (l ++ [x]) t k).size + 1) =
      some ((l.map some ++ [some default]) ++ ([none] ++ List.replicate k none)) := by
    rw [destroy, Nat.add_sub_cancel_left]
    exact put_append (o := [(Abs.mk (l ++ [x]) t k).term]) (by simp) (by simp [size]) rfl
  simp only [Str.pop_back, finish_str, hnull, hdestroy, Option.bind_eq_bind, Option.bind_some,
    Option.pure_def, lift, pop_back, Result.map]
  simp [str, term, size, List.replicate_succ]

theorem clear_str : a.str.clear = a.clear.map str := by
  unfold Str.clear clear
  rw [finish_str]
  split
  · rfl
  · rename_i hne
    obtain ⟨chars, t, k⟩ := a
    cases chars with
    | nil => exact absurd rfl hne
    | cons x r =>
      have hnull : put (Abs.mk (x :: r) t k).str.block 0 [some default] =
          some ([some default] ++ ((r.map some ++ [(Abs.mk (x :: r) t k).term]) ++
            List.replicate k none)) :=
        put_append (p := []) (o := [some x]) (by simp [str, term]) rfl rfl
      have hdestroy : destroy ([some default] ++
          ((r.map some ++ [(Abs.mk (x :: r) t k).term]) ++ List.replicate k none)) 1
          ((Abs.mk (x :: r) t k).size + 1) =
          some ([some default] ++ (List.replicate (Abs.mk (x :: r) t k).size none ++
            List.replicate k none)) :=
        put_append rfl rfl (by simp [size])
      simp only [hnull, hdestroy, Option.bind_eq_bind, Option.bind_some, Option.pure_def, lift,
        Result.map, ← List.replicate_add]
      simp [str, term, size, List.replicate_succ, ← Nat.add_assoc, Nat.add_comm]

theorem erase_range_str {first last : ℕ} (hle : first ≤ last) (hlast : last ≤ a.size) :
    a.str.erase_range first last = (a.erase_range first last).map str := by
  unfold Str.erase_range erase_range
  split
  · rfl
  · obtain ⟨chars, t, k⟩ := a
    obtain ⟨l, x, r, rfl, rfl, rfl⟩ := exists_append hle hlast
    -- the characters behind the range and the null character move to its beginning
    have hmove : move (Abs.mk (l ++ (x ++ r)) t k).str.block l.length (l.length + x.length)
        ((Abs.mk (l ++ (x ++ r)) t k).size - (l.length + x.length) + 1) =
        some (l.map some ++ ((r.map some ++ [(Abs.mk (l ++ (x ++ r)) t k).term]) ++
          (((x ++ r).map some ++ [(Abs.mk (l ++ (x ++ r)) t k).term]).drop (r.length + 1) ++
            List.replicate k none))) := by
      refine move_append (s := l.map some ++ x.map some)
        (o := ((x ++ r).map some ++ [(Abs.mk (l ++ (x ++ r)) t k).term]).take (r.length + 1))
        (t := List.replicate k none) (by simp [str]) ?_ (by simp) (by simp)
        (by simp [size]; omega) (by simp)
      rw [← List.append_assoc (List.take _ _), List.take_append_drop]
      simp [str]
    have hsize : (Abs.mk (l ++ (x ++ r)) t k).size = l.length + (x.length + r.length) := by
      simp [size]
    have hfinish : l.length + (x.length + r.length) - (l.length + x.length - l.length) =
        l.length + r.length := by omega
    have hdestroy : destroy (l.map some ++ ((r.map some ++ [(Abs.mk (l ++ (x ++ r)) t k).term]) ++
        (((x ++ r).map some ++ [(Abs.mk (l ++ (x ++ r)) t k).term]).drop (r.length + 1) ++
          List.replicate k none))) (l.length + r.length + 1)
        (l.length + (x.length + r.length) + 1) =
        some ((l.map some ++ (r.map some ++ [(Abs.mk (l ++ (x ++ r)) t k).term])) ++
          (List.replicate (l.length + (x.length + r.length) + 1 - (l.length + r.length + 1)) none ++
            List.replicate k none)) := by
      refine put_append
        (o := ((x ++ r).map some ++ [(Abs.mk (l ++ (x ++ r)) t k).term]).drop (r.length + 1))
        (by simp only [List.append_assoc]) (by simp; omega) ?_
      simp only [List.length_replicate, List.length_drop, List.length_append, List.length_map,
        List.length_singleton]
      omega
    have hroom : l.length + (x.length + r.length) + 1 - (l.length + r.length + 1) = x.length := by
      omega
    simp only [finish_str, hmove, Option.bind_eq_bind, Option.bind_some]
    simp only [hsize, hfinish, hdestroy, hroom, Option.bind_some, Option.pure_def, lift,
      Result.map]
    simp [str, term, size, Nat.add_comm]

/-- `erase(position)` is `erase(position, position + 1)`. -/
theorem erase_at_str (h : p < a.size) : a.str.erase_at p = (a.erase_at p).map str := by
  have hrange := a.erase_range_str (Nat.le_add_right p 1) h
  have hne : ¬p = p + 1 := by omega
  have hcount : a.size - (p + 1) + 1 = a.size - p := by omega
  have hfinish : a.size - 1 + 1 = a.size := by omega
  simp only [Str.erase_range, erase_range, if_neg hne, finish_str, Nat.add_sub_cancel_left,
    hcount, hfinish] at hrange
  exact hrange

theorem erase_str : a.str.erase p n = (a.erase p n).map str := by
  unfold Str.erase erase
  rw [size_str]
  split
  · rfl
  · rename_i hle
    exact a.erase_range_str (Nat.le_add_right _ _) (by omega)

theorem resize_str : a.str.resize max_size n c = (a.resize max_size n c).map str := by
  unfold Str.resize resize
  rw [size_str]
  split
  · rename_i hle
    exact a.erase_range_str hle (Nat.le_refl _)
  · exact a.append_fill_str

/-! ## Other characters in their place -/

omit [Inhabited α] in
theorem overwrite_append {l x r : List α} {t : Bool} {k : ℕ} (h : xs.length = x.length) :
    (Abs.mk (l ++ (x ++ r)) t k).overwrite l.length xs = ⟨l ++ (xs ++ r), t, k⟩ := by
  rw [overwrite, List.take_left, ← List.drop_drop, List.drop_left, h, List.drop_left]

theorem put_chars {i : ℕ} (h : i + xs.length ≤ a.size) :
    put a.str.block i (xs.map some) = some (a.overwrite i xs).str.block ∧
      (a.overwrite i xs).size = a.size := by
  obtain ⟨chars, t, k⟩ := a
  obtain ⟨l, x, r, rfl, rfl, hlength⟩ := exists_append (Nat.le_add_right i xs.length) h
  replace hlength := Nat.add_left_cancel hlength
  have hput : put (Abs.mk (l ++ (x ++ r)) t k).str.block l.length (xs.map some) =
      some (l.map some ++ (xs.map some ++ (r.map some ++
        ([(Abs.mk (l ++ (x ++ r)) t k).term] ++ List.replicate k none)))) :=
    put_append (o := x.map some) (by simp [str]) (by simp) (by simpa using hlength)
  rw [overwrite_append hlength, hput]
  simp [str, term, size, hlength]

theorem overwrite_str {i : ℕ} (h : i + xs.length ≤ a.size) :
    (do pure (Str.mk (← put a.str.block i (xs.map some)) a.str.finish)) =
      some (a.overwrite i xs).str := by
  obtain ⟨hput, hsize⟩ := a.put_chars h
  simp only [hput, Option.bind_eq_bind, Option.bind_some, Option.pure_def, finish_str, ← hsize]
  rfl

theorem assign_str : a.str.assign max_size xs = (a.assign max_size xs).map str := by
  unfold Str.assign assign
  dsimp only
  rw [size_str]
  obtain hlt | hle := Nat.lt_or_ge a.size xs.length
  · have h : 0 + (xs.take a.size).length ≤ a.size := by
      rw [Nat.zero_add, List.length_take]
      exact Nat.min_le_left _ _
    rw [if_neg (Nat.not_le.mpr hlt), if_neg (Nat.not_le.mpr hlt), a.overwrite_str h]
    simp only [lift, Result.bind, size_str, (a.put_chars h).2]
    exact append_str _
  · have h : 0 + xs.length ≤ a.size := (Nat.zero_add _).symm ▸ hle
    have hsize := (a.put_chars h).2
    rw [if_pos hle, if_pos hle, a.overwrite_str h]
    simp only [lift, Result.bind, finish_str, hsize]
    exact (a.overwrite 0 xs).erase_range_str hle (Nat.le_of_eq hsize.symm)

theorem assign_fill_str : a.str.assign_fill max_size n c = (a.assign_fill max_size n c).map str := by
  unfold Str.assign_fill assign_fill fill
  rw [size_str, ← List.map_replicate, ← List.map_replicate]
  obtain hlt | hle := Nat.lt_or_ge a.size n
  · have h : 0 + (List.replicate a.size c).length ≤ a.size := by simp
    rw [if_neg (Nat.not_le.mpr hlt), if_neg (Nat.not_le.mpr hlt), a.overwrite_str h]
    simp only [lift, Result.bind, size_str, (a.put_chars h).2]
    exact append_fill_str _
  · have h : 0 + (List.replicate n c).length ≤ a.size := by simpa using hle
    have hsize := (a.put_chars h).2
    rw [if_pos hle, if_pos hle, a.overwrite_str h]
    simp only [lift, Result.bind, finish_str, hsize]
    exact (a.overwrite 0 (List.replicate n c)).erase_range_str hle (Nat.le_of_eq hsize.symm)

/-! ## Characters in the middle -/

section

variable {l r : List α} {t : Bool} {k : ℕ}

theorem str_append : (Abs.mk (l ++ r) t k).str =
    ⟨l.map some ++ (r.map some ++ ([(Abs.mk (l ++ r) t k).term] ++ List.replicate k none)),
      l.length + r.length⟩ := by
  simp [str, size]

/-- A new block: the characters before the position, those that come in, and the others. -/
theorem insert_new_block {x : List α} {len left : ℕ}
    (hlen : len = l.length + (x.length + (r.length + (left + 1)))) :
    (do
      let new ← uninitialized_copy (allocate_block len)
        (← get (Abs.mk (l ++ r) t k).str.block 0 l.length)
      let new ← uninitialized_copy new (x.map some)
      let new ← uninitialized_copy new (← get (Abs.mk (l ++ r) t k).str.block l.length r.length)
      terminate_string new) = some (Abs.mk (l ++ (x ++ r)) true left).str := by
  have hleft : get (Abs.mk (l ++ r) t k).str.block 0 l.length = some (l.map some) :=
    get_append (p := []) (by rw [str_append]; rfl) rfl (List.length_map ..).symm
  have hright : get (Abs.mk (l ++ r) t k).str.block l.length r.length = some (r.map some) :=
    get_append (by rw [str_append]) (List.length_map ..).symm (List.length_map ..).symm
  have hroom : len = (l.map some).length + (x.length + (r.length + (left + 1))) := by
    rw [hlen, List.length_map]
  have hroom₁ : x.length + (r.length + (left + 1)) =
      (x.map some).length + (r.length + (left + 1)) := by rw [List.length_map]
  have hroom₂ : r.length + (left + 1) = (r.map some).length + (left + 1) := by
    rw [List.length_map]
  simp only [hleft, hright, Option.bind_eq_bind, Option.bind_some, allocate_block_part,
    uninitialized_copy_part hroom, uninitialized_copy_part hroom₁, uninitialized_copy_part hroom₂,
    List.nil_append, ← List.map_append, terminate_string_part rfl, List.append_assoc]

/-- There is room, and fewer characters come in than are behind the position. -/
theorem insert_before_many {r₁ r₂ x : List α} {m : ℕ} (hx : r₂.length + 1 = x.length)
    (hr : 0 < r₁.length) :
    (do
      let s := (Abs.mk (l ++ (r₁ ++ r₂)) t (x.length + m)).str
      let b ← move s.block (s.finish + 1) (s.finish - x.length + 1) x.length
      let b ← move b (l.length + x.length) l.length (r₁.length + r₂.length - x.length + 1)
      let b ← put b l.length (x.map some)
      pure (Str.mk b (s.finish + x.length))) =
      some (Abs.mk (l ++ (x ++ (r₁ ++ r₂))) t m).str := by
  have hfinish : (Abs.mk (l ++ (r₁ ++ r₂)) t (x.length + m)).str.finish =
      l.length + (r₁.length + r₂.length) := by simp [size]
  obtain ⟨term, hterm⟩ : ∃ term, (Abs.mk (l ++ (r₁ ++ r₂)) t (x.length + m)).term = term :=
    ⟨_, rfl⟩
  have hterm' : (Abs.mk (l ++ (x ++ (r₁ ++ r₂))) t m).term = term := hterm
  have hblock : (Abs.mk (l ++ (r₁ ++ r₂)) t (x.length + m)).str.block =
      l.map some ++ (r₁.map some ++ ((r₂.map some ++ [term]) ++
        (List.replicate x.length none ++ List.replicate m none))) := by
    rw [str, hterm, List.replicate_add]
    simp only [List.map_append, List.append_assoc]
  -- the last characters and the null character go behind the end
  have hlast : move (Abs.mk (l ++ (r₁ ++ r₂)) t (x.length + m)).str.block
      (l.length + (r₁.length + r₂.length) + 1)
      (l.length + (r₁.length + r₂.length) - x.length + 1) x.length =
      some ((l.map some ++ (r₁.map some ++ (r₂.map some ++ [term]))) ++
        ((r₂.map some ++ [term]) ++ List.replicate m none)) := by
    refine move_append (s := l.map some ++ r₁.map some) (o := List.replicate x.length none)
      (t := List.replicate x.length none ++ List.replicate m none) ?_ ?_ ?_ ?_ ?_ ?_
    · rw [hblock]
      simp only [List.append_assoc]
    · rw [hblock]
      simp only [List.append_assoc]
    · simp
      omega
    · simp
      omega
    · simp [hx]
    · simp [hx]
  -- those before them follow, over some of what has just been copied
  have hmiddle : move ((l.map some ++ (r₁.map some ++ (r₂.map some ++ [term]))) ++
      ((r₂.map some ++ [term]) ++ List.replicate m none)) (l.length + x.length) l.length
      (r₁.length + r₂.length - x.length + 1) =
      some ((l.map some ++ (r₁.map some ++ (r₂.map some ++ [term])).take x.length) ++
        (r₁.map some ++ ((r₂.map some ++ [term]) ++ List.replicate m none))) := by
    refine move_append (s := l.map some)
      (o := (r₁.map some ++ (r₂.map some ++ [term])).drop x.length)
      (t := (r₂.map some ++ [term]) ++ ((r₂.map some ++ [term]) ++ List.replicate m none))
      ?_ ?_ ?_ ?_ ?_ ?_
    · simp only [List.append_assoc]
    · conv_rhs => rw [List.append_assoc, ← List.append_assoc (List.take _ _), List.take_append_drop]
      rw [List.append_assoc]
    · simp
    · simp
      omega
    · simp
      omega
    · simp
      omega
  have hnew : put ((l.map some ++ (r₁.map some ++ (r₂.map some ++ [term])).take x.length) ++
      (r₁.map some ++ ((r₂.map some ++ [term]) ++ List.replicate m none))) l.length
      (x.map some) =
      some (l.map some ++ (x.map some ++
        (r₁.map some ++ ((r₂.map some ++ [term]) ++ List.replicate m none)))) := by
    refine put_append (o := (r₁.map some ++ (r₂.map some ++ [term])).take x.length) ?_ ?_ ?_
    · rw [List.append_assoc]
    · simp
    · simp
      omega
  simp only [hfinish, hlast, hmiddle, hnew, Option.bind_eq_bind, Option.bind_some, Option.pure_def]
  rw [str, hterm']
  simp [size]
  omega

/-- There is room, and more characters come in than are behind the position. -/
theorem insert_before_few {x₁ x₂ : List α} {m : ℕ} (hx : x₁.length = r.length + 1) :
    (do
      let s := (Abs.mk (l ++ r) t (x₂.length + (r.length + 1) + m)).str
      let b ← put s.block (s.finish + 1) (x₂.map some)
      let b ← move b (s.finish + (x₁.length + x₂.length - r.length)) l.length (r.length + 1)
      let b ← put b l.length (x₁.map some)
      pure (Str.mk b (s.finish + (x₁.length + x₂.length - r.length) + r.length))) =
      some (Abs.mk (l ++ ((x₁ ++ x₂) ++ r)) t m).str := by
  have hfinish : (Abs.mk (l ++ r) t (x₂.length + (r.length + 1) + m)).str.finish =
      l.length + r.length := by simp [size]
  obtain ⟨term, hterm⟩ :
      ∃ term, (Abs.mk (l ++ r) t (x₂.length + (r.length + 1) + m)).term = term := ⟨_, rfl⟩
  have hterm' : (Abs.mk (l ++ ((x₁ ++ x₂) ++ r)) t m).term = term := hterm
  have hblock : (Abs.mk (l ++ r) t (x₂.length + (r.length + 1) + m)).str.block =
      (l.map some ++ (r.map some ++ [term])) ++ (List.replicate x₂.length none ++
        (List.replicate (r.length + 1) none ++ List.replicate m none)) := by
    rw [str, hterm, List.replicate_add, List.replicate_add]
    simp only [List.map_append, List.append_assoc]
  have hbehind : put (Abs.mk (l ++ r) t (x₂.length + (r.length + 1) + m)).str.block
      (l.length + r.length + 1) (x₂.map some) =
      some ((l.map some ++ (r.map some ++ [term])) ++ (x₂.map some ++
        (List.replicate (r.length + 1) none ++ List.replicate m none))) :=
    put_append hblock (by simp; omega) (by simp)
  have hmove : move ((l.map some ++ (r.map some ++ [term])) ++ (x₂.map some ++
      (List.replicate (r.length + 1) none ++ List.replicate m none)))
      (l.length + r.length + (x₁.length + x₂.length - r.length)) l.length (r.length + 1) =
      some ((l.map some ++ (r.map some ++ ([term] ++ x₂.map some))) ++
        ((r.map some ++ [term]) ++ List.replicate m none)) := by
    refine move_append (s := l.map some) (o := List.replicate (r.length + 1) none)
      (t := x₂.map some ++ (List.replicate (r.length + 1) none ++ List.replicate m none))
      ?_ ?_ ?_ ?_ ?_ ?_
    · rw [List.append_assoc]
    · simp only [List.append_assoc]
    · simp
    · simp
      omega
    · simp
    · simp
  have hnew : put ((l.map some ++ (r.map some ++ ([term] ++ x₂.map some))) ++
      ((r.map some ++ [term]) ++ List.replicate m none)) l.length (x₁.map some) =
      some (l.map some ++ (x₁.map some ++
        (x₂.map some ++ ((r.map some ++ [term]) ++ List.replicate m none)))) := by
    refine put_append (o := r.map some ++ [term]) ?_ ?_ ?_
    · simp only [List.append_assoc]
    · simp
    · simp [hx]
  simp only [hfinish, hbehind, hmove, hnew, Option.bind_eq_bind, Option.bind_some, Option.pure_def]
  rw [str, hterm']
  simp [size]
  omega

end

theorem insert_str (h : p ≤ a.size) : a.str.insert p xs = (a.insert p xs).map str := by
  obtain ⟨chars, t, k⟩ := a
  obtain ⟨l, r, rfl, rfl⟩ : ∃ l r, chars = l ++ r ∧ p = l.length :=
    ⟨chars.take p, chars.drop p, (List.take_append_drop p chars).symm,
      (List.length_take_of_le h).symm⟩
  unfold Str.insert insert
  dsimp only
  have hroom : (Abs.mk (l ++ r) t k).str.block.length - (Abs.mk (l ++ r) t k).str.finish =
      k + 1 := by
    rw [length_block, finish_str]
    dsimp only
    omega
  have hafter : (Abs.mk (l ++ r) t k).str.finish - l.length = r.length := by simp [size]
  rw [hroom, hafter]
  split
  · rfl
  · rename_i hne
    split
    · rename_i hle
      have hfits : ¬k < xs.length := by omega
      obtain ⟨m, rfl⟩ := Nat.exists_eq_add_of_le (Nat.not_lt.mp hfits)
      simp only [List.take_left, List.drop_left, if_neg hfits, Nat.add_sub_cancel_left]
      split
      · rename_i hmany
        obtain ⟨r₁, r₂, rfl, hlength⟩ : ∃ r₁ r₂, r = r₁ ++ r₂ ∧ r₂.length + 1 = xs.length := by
          refine ⟨r.take (r.length - (xs.length - 1)), r.drop (r.length - (xs.length - 1)),
            (List.take_append_drop _ r).symm, ?_⟩
          rw [List.length_drop]
          omega
        rw [List.length_append] at hmany ⊢
        exact congrArg lift (insert_before_many hlength (by omega))
      · rename_i hfew
        obtain ⟨x₁, x₂, rfl, hlength⟩ : ∃ x₁ x₂, xs = x₁ ++ x₂ ∧ x₁.length = r.length + 1 :=
          ⟨xs.take (r.length + 1), xs.drop (r.length + 1), (List.take_append_drop _ xs).symm,
            List.length_take_of_le (by omega)⟩
        have hspare : (x₁ ++ x₂).length + m = x₂.length + (r.length + 1) + m := by
          rw [List.length_append]
          omega
        have hcount : (Abs.mk (l ++ r) t ((x₁ ++ x₂).length + m)).str.finish + 1 - l.length =
            r.length + 1 := by
          rw [finish_str, size, List.length_append]
          omega
        rw [hcount, ← hlength, List.drop_left, List.take_left, hlength, hspare,
          List.length_append]
        exact congrArg lift (insert_before_few hlength)
    · rename_i hlt
      have hover : k < xs.length := by omega
      have hlen : (Abs.mk (l ++ r) t k).size + max (Abs.mk (l ++ r) t k).size xs.length + 1 =
          l.length + (xs.length + (r.length +
            (max (Abs.mk (l ++ r) t k).size xs.length - xs.length + 1))) := by
        have hle := Nat.le_max_right (Abs.mk (l ++ r) t k).size xs.length
        have hsize : (Abs.mk (l ++ r) t k).size = l.length + r.length := List.length_append
        omega
      simp only [List.take_left, List.drop_left, if_pos hover]
      exact congrArg lift (insert_new_block hlen)

/-- `insert(p, n, c)` writes what `insert(p, first, last)` would copy. -/
theorem insert_fill_eq (s : Str α) (p n : ℕ) (c : α) :
    s.insert_fill p n c = s.insert p (List.replicate n c) := by
  unfold Str.insert_fill Str.insert fill
  simp only [List.length_replicate, List.map_replicate, List.drop_replicate, List.take_replicate,
    Nat.sub_sub]
  split
  · rfl
  · split
    · split
      · rfl
      · rename_i hfew
        have hmin : min (s.finish - p + 1) n = s.finish - p + 1 := by omega
        rw [hmin]
    · rfl

theorem insert_fill_str (h : p ≤ a.size) :
    a.str.insert_fill p n c = (a.insert_fill p n c).map str := by
  rw [insert_fill_eq]
  exact a.insert_str h

theorem insert_aux_str (h : p ≤ a.size) : a.str.insert_aux p c = (a.insert_aux p c).map str := by
  obtain ⟨chars, t, k⟩ := a
  obtain ⟨l, r, rfl, rfl⟩ : ∃ l r, chars = l ++ r ∧ p = l.length :=
    ⟨chars.take p, chars.drop p, (List.take_append_drop p chars).symm,
      (List.length_take_of_le h).symm⟩
  have hsize : (Abs.mk (l ++ r) t k).size = l.length + r.length := List.length_append
  have hafter : (Abs.mk (l ++ r) t k).size - l.length = r.length := by omega
  unfold Str.insert_aux insert_aux
  simp only [length_block, finish_str, size_str, hafter, List.take_left, List.drop_left]
  cases k with
  | zero =>
    have hlen : (Abs.mk (l ++ r) t 0).size + max (Abs.mk (l ++ r) t 0).size 1 + 1 =
        l.length + ([c].length + (r.length + (max (Abs.mk (l ++ r) t 0).size 1 - 1 + 1))) := by
      have hle := Nat.le_max_right (Abs.mk (l ++ r) t 0).size 1
      simp only [List.length_singleton]
      omega
    rw [if_neg (Nat.lt_irrefl _), if_pos rfl]
    exact congrArg lift (insert_new_block hlen)
  | succ m =>
    obtain ⟨term, hterm⟩ : ∃ term, (Abs.mk (l ++ r) t (m + 1)).term = term := ⟨_, rfl⟩
    have hnull : construct_null (Abs.mk (l ++ r) t (m + 1)).str.block
        ((Abs.mk (l ++ r) t (m + 1)).size + 1) =
        some ((l.map some ++ (r.map some ++ [term])) ++
          ([some default] ++ List.replicate m none)) := by
      refine put_append (o := [none]) ?_ ?_ rfl
      · rw [str, hterm, List.replicate_succ]
        simp
      · simp [hsize]
        omega
    have hmove : move ((l.map some ++ (r.map some ++ [term])) ++
        ([some default] ++ List.replicate m none)) (l.length + 1) l.length r.length =
        some ((l.map some ++ (r.map some ++ [term]).take 1) ++
          (r.map some ++ ([some default] ++ List.replicate m none))) := by
      refine move_append (s := l.map some) (o := (r.map some ++ [term]).drop 1)
        (t := [term] ++ ([some default] ++ List.replicate m none)) ?_ ?_ ?_ ?_ ?_ ?_
      · simp only [List.append_assoc]
      · conv_rhs => rw [List.append_assoc, ← List.append_assoc (List.take _ _),
          List.take_append_drop]
        rw [List.append_assoc]
      · simp
      · simp
      · simp
      · simp
    have hnew : put ((l.map some ++ (r.map some ++ [term]).take 1) ++
        (r.map some ++ ([some default] ++ List.replicate m none))) l.length [some c] =
        some (l.map some ++ ([some c] ++
          (r.map some ++ ([some default] ++ List.replicate m none)))) := by
      refine put_append (o := (r.map some ++ [term]).take 1) ?_ ?_ ?_
      · rw [List.append_assoc]
      · simp
      · simp
    have hlt : (Abs.mk (l ++ r) t (m + 1)).size + 1 <
        (Abs.mk (l ++ r) t (m + 1)).size + 1 + (m + 1) := by omega
    rw [if_pos hlt, if_neg (Nat.succ_ne_zero m)]
    simp only [hnull, hmove, hnew, Option.bind_eq_bind, Option.bind_some, Option.pure_def, lift,
      Result.map, Nat.add_sub_cancel]
    simp [str, Abs.term, size]
    omega

theorem insert_char_str (h : p ≤ a.size) :
    a.str.insert_char max_size p c = (a.insert_char max_size p c).map str := by
  unfold Str.insert_char insert_char
  rw [finish_str]
  split
  · exact a.push_back_str
  · exact a.insert_aux_str h

theorem replace_str {first last : ℕ} (hle : first ≤ last) (hlast : last ≤ a.size) :
    a.str.replace first last xs = (a.replace first last xs).map str := by
  unfold Str.replace replace
  dsimp only
  split
  · rename_i hn
    have h : first + xs.length ≤ a.size := by omega
    have hsize := (a.put_chars h).2
    rw [a.overwrite_str h]
    exact (a.overwrite first xs).erase_range_str (by omega) (hsize.symm ▸ hlast)
  · have h : first + (xs.take (last - first)).length ≤ a.size := by
      rw [List.length_take]
      omega
    have hsize := (a.put_chars h).2
    rw [a.overwrite_str h]
    exact (a.overwrite first _).insert_str (hsize.symm ▸ hlast)

theorem replace_fill_str {first last : ℕ} (hle : first ≤ last) (hlast : last ≤ a.size) :
    a.str.replace_fill first last n c = (a.replace_fill first last n c).map str := by
  rw [replace_fill, ← a.replace_str hle hlast]
  unfold Str.replace_fill Str.replace fill
  simp only [List.length_replicate, List.map_replicate, List.take_replicate, List.drop_replicate]
  split
  · rfl
  · rename_i hn
    rw [Nat.min_eq_left (by omega)]
    congr 1
    funext s
    exact insert_fill_eq s _ _ _

end Abs

end Kuhllib.BasicString
