import Kuhllib.Lib.Cells
import Mathlib.Algebra.Ring.Nat

/-!
# `basic_string`

A string has a block of cells; a cell without a character is memory without an object. The
first `_M_finish - _M_start` cells are the characters, the next one should hold the null
character. All accesses are checked: one outside of the block makes the call undefined.

Arguments are ranges of other strings or arrays, and the allocator has memory for all blocks.

Results: `Abs.str` is what the block looks like between calls. Each operation takes a block
of this form to one of this form (`reserve_str`, `append_str`, `insert_str` and so on).
-/

namespace Kuhllib.BasicString

open Cells

universe u

variable {α : Type u} [Inhabited α]

structure Str (α : Type u) where
  block : List (Option α)
  finish : ℕ
deriving DecidableEq, Repr

inductive Error
  | length_error
  | out_of_range
deriving DecidableEq, Repr

/-- An exception leaves the string as it was when it was thrown. -/
inductive Result (σ : Type u)
  | ok (s : σ)
  | thrown (e : Error) (s : σ)
  | undefined
deriving DecidableEq, Repr

namespace Result

variable {σ τ : Type u}

def bind (r : Result σ) (f : σ → Result σ) : Result σ :=
  match r with
  | ok s => f s
  | thrown e s => thrown e s
  | undefined => undefined

def map (f : σ → τ) : Result σ → Result τ
  | ok s => ok (f s)
  | thrown e s => thrown e (f s)
  | undefined => undefined

/-- The string after the call. -/
def state : Result σ → Option σ
  | ok s => some s
  | thrown _ s => some s
  | undefined => none

def lift : Option σ → Result σ
  | some s => ok s
  | none => undefined

end Result

open Result

/-- `_M_construct_null` -/
def construct_null (b : List (Option α)) (i : ℕ) : Option (List (Option α)) :=
  put b i [some default]

/-- `uninitialized_fill_n` and `_Traits::assign(p, n, c)` -/
def fill (b : List (Option α)) (i n : ℕ) (c : α) : Option (List (Option α)) :=
  put b i (List.replicate n (some c))

/-- `destroy(first, last)` -/
def destroy (b : List (Option α)) (first last : ℕ) : Option (List (Option α)) :=
  put b first (List.replicate (last - first) none)

/-- `uninitialized_copy(first, last, new_finish)`: the new finish is behind what was copied. -/
def uninitialized_copy (s : Str α) (xs : List (Option α)) : Option (Str α) := do
  let b ← put s.block s.finish xs
  pure ⟨b, s.finish + xs.length⟩

/-- `_M_allocate_block` -/
def allocate_block (n : ℕ) : Str α := ⟨List.replicate n none, 0⟩

/-- `_M_terminate_string` -/
def terminate_string (s : Str α) : Option (Str α) := do
  let b ← construct_null s.block s.finish
  pure { s with block := b }

namespace Str

def size (s : Str α) : ℕ := s.finish

def capacity (s : Str α) : ℕ := s.block.length - 1

/-! ## Constructors -/

def basic_string : Option (Str α) := terminate_string (allocate_block 8)

/-- `basic_string(_Reserve_t, n)` -/
def reserved (n : ℕ) : Option (Str α) := terminate_string (allocate_block (n + 1))

/-- `_M_range_initialize`; a range of more than `max_size()` characters is none of this model. -/
def range_initialize (xs : List α) : Option (Str α) := do
  terminate_string (← uninitialized_copy (allocate_block (xs.length + 1)) (xs.map some))

/-- `basic_string(n, c)` -/
def filled (n : ℕ) (c : α) : Option (Str α) := range_initialize (List.replicate n c)

/-! ## Operations -/

def reserve (max_size res_arg : ℕ) (s : Str α) : Result (Str α) :=
  if max_size < res_arg then thrown .length_error s
  else
    let n := max res_arg s.size + 1
    lift do
      let new ← uninitialized_copy (allocate_block n) (← get s.block 0 s.finish)
      terminate_string new

def append_fill (max_size n : ℕ) (c : α) (s : Str α) : Result (Str α) :=
  if max_size < n ∨ max_size - n < s.size then thrown .length_error s
  else
    (if s.capacity < s.size + n then s.reserve max_size (s.size + max s.size n)
      else ok s).bind fun s =>
    if 0 < n then
      lift do
        let b ← fill s.block (s.finish + 1) (n - 1) c
        let b ← construct_null b (s.finish + n)
        let b ← put b s.finish [some c]
        pure ⟨b, s.finish + n⟩
    else ok s

/-- `append(first, last, forward_iterator_tag)` -/
def append (max_size : ℕ) (xs : List α) (s : Str α) : Result (Str α) :=
  match xs with
  | [] => ok s
  | x :: rest =>
    let old_size := s.size
    let n := xs.length
    if max_size < n ∨ max_size - n < old_size then thrown .length_error s
    else if s.capacity < old_size + n then
      let len := old_size + max old_size n + 1
      lift do
        let new ← uninitialized_copy (allocate_block len) (← get s.block 0 s.finish)
        let new ← uninitialized_copy new (xs.map some)
        terminate_string new
    else
      lift do
        let b ← put s.block (s.finish + 1) (rest.map some)
        let b ← construct_null b (s.finish + n)
        let b ← put b s.finish [some x]
        pure ⟨b, s.finish + n⟩

def push_back (max_size : ℕ) (c : α) (s : Str α) : Result (Str α) :=
  (if s.finish + 1 = s.block.length then s.reserve max_size (s.size + max s.size 1)
    else ok s).bind fun s =>
  lift do
    let b ← put s.block s.finish [some c]
    pure ⟨b, s.finish + 1⟩

/-- `append(first, last, input_iterator_tag)` -/
def append_input (max_size : ℕ) : List α → Str α → Result (Str α)
  | [], s => ok s
  | x :: xs, s => (s.push_back max_size x).bind (append_input max_size xs)

def pop_back (s : Str α) : Result (Str α) :=
  lift do
    let b ← put s.block (s.finish - 1) [some default]
    let b ← destroy b s.finish (s.finish + 1)
    pure ⟨b, s.finish - 1⟩

def clear (s : Str α) : Result (Str α) :=
  if s.finish = 0 then ok s
  else
    lift do
      let b ← put s.block 0 [some default]
      let b ← destroy b 1 (s.finish + 1)
      pure ⟨b, 0⟩

/-- `erase(position)` -/
def erase_at (position : ℕ) (s : Str α) : Result (Str α) :=
  lift do
    let b ← move s.block position (position + 1) (s.finish - position)
    let b ← destroy b s.finish (s.finish + 1)
    pure ⟨b, s.finish - 1⟩

/-- `erase(first, last)` -/
def erase_range (first last : ℕ) (s : Str α) : Result (Str α) :=
  if first = last then ok s
  else
    lift do
      let b ← move s.block first last (s.finish - last + 1)
      let new_finish := s.finish - (last - first)
      let b ← destroy b (new_finish + 1) (s.finish + 1)
      pure ⟨b, new_finish⟩

def erase (pos n : ℕ) (s : Str α) : Result (Str α) :=
  if s.size < pos then thrown .out_of_range s
  else s.erase_range pos (pos + min n (s.size - pos))

def resize (max_size n : ℕ) (c : α) (s : Str α) : Result (Str α) :=
  if n ≤ s.size then s.erase_range n s.finish else s.append_fill max_size (n - s.size) c

def assign_fill (max_size n : ℕ) (c : α) (s : Str α) : Result (Str α) :=
  if n ≤ s.size then
    (lift do pure ⟨← fill s.block 0 n c, s.finish⟩).bind fun s => s.erase_range n s.finish
  else
    (lift do pure ⟨← fill s.block 0 s.size c, s.finish⟩).bind fun s =>
      s.append_fill max_size (n - s.size) c

def assign (max_size : ℕ) (xs : List α) (s : Str α) : Result (Str α) :=
  let n := xs.length
  if n ≤ s.size then
    (lift do pure ⟨← put s.block 0 (xs.map some), s.finish⟩).bind fun s =>
      s.erase_range n s.finish
  else
    (lift do pure ⟨← put s.block 0 ((xs.take s.size).map some), s.finish⟩).bind fun s =>
      s.append max_size (xs.drop s.size)

/-- `_M_insert_aux` -/
def insert_aux (p : ℕ) (c : α) (s : Str α) : Result (Str α) :=
  if s.finish + 1 < s.block.length then
    lift do
      let b ← construct_null s.block (s.finish + 1)
      let b ← move b (p + 1) p (s.finish - p)
      let b ← put b p [some c]
      pure ⟨b, s.finish + 1⟩
  else
    let old_len := s.size
    let len := old_len + max old_len 1 + 1
    lift do
      let new ← uninitialized_copy (allocate_block len) (← get s.block 0 p)
      let new ← uninitialized_copy new [some c]
      let new ← uninitialized_copy new (← get s.block p (s.finish - p))
      terminate_string new

/-- `insert(p, c)` -/
def insert_char (max_size p : ℕ) (c : α) (s : Str α) : Result (Str α) :=
  if p = s.finish then s.push_back max_size c else s.insert_aux p c

/-- `insert(position, n, c)` -/
def insert_fill (position n : ℕ) (c : α) (s : Str α) : Result (Str α) :=
  if n = 0 then ok s
  else if n + 1 ≤ s.block.length - s.finish then
    let elems_after := s.finish - position
    let old_finish := s.finish
    if n ≤ elems_after then
      lift do
        let b ← move s.block (s.finish + 1) (s.finish - n + 1) n
        let b ← move b (position + n) position (elems_after - n + 1)
        let b ← fill b position n c
        pure ⟨b, s.finish + n⟩
    else
      lift do
        let b ← fill s.block (s.finish + 1) (n - elems_after - 1) c
        let finish := s.finish + (n - elems_after)
        let b ← move b finish position (old_finish + 1 - position)
        let b ← fill b position (elems_after + 1) c
        pure ⟨b, finish + elems_after⟩
  else
    let old_size := s.size
    let len := old_size + max old_size n + 1
    lift do
      let new ← uninitialized_copy (allocate_block len) (← get s.block 0 position)
      let new ← uninitialized_copy new (List.replicate n (some c))
      let new ← uninitialized_copy new (← get s.block position (s.finish - position))
      terminate_string new

/-- `insert(position, first, last, forward_iterator_tag)` -/
def insert (position : ℕ) (xs : List α) (s : Str α) : Result (Str α) :=
  let n := xs.length
  if n = 0 then ok s
  else if n + 1 ≤ s.block.length - s.finish then
    let elems_after := s.finish - position
    let old_finish := s.finish
    if n ≤ elems_after then
      lift do
        let b ← move s.block (s.finish + 1) (s.finish - n + 1) n
        let b ← move b (position + n) position (elems_after - n + 1)
        let b ← put b position (xs.map some)
        pure ⟨b, s.finish + n⟩
    else
      lift do
        let b ← put s.block (s.finish + 1) ((xs.drop (elems_after + 1)).map some)
        let finish := s.finish + (n - elems_after)
        let b ← move b finish position (old_finish + 1 - position)
        let b ← put b position ((xs.take (elems_after + 1)).map some)
        pure ⟨b, finish + elems_after⟩
  else
    let old_size := s.size
    let len := old_size + max old_size n + 1
    lift do
      let new ← uninitialized_copy (allocate_block len) (← get s.block 0 position)
      let new ← uninitialized_copy new (xs.map some)
      let new ← uninitialized_copy new (← get s.block position (s.finish - position))
      terminate_string new

/-- `replace(first, last, n, c)` -/
def replace_fill (first last n : ℕ) (c : α) (s : Str α) : Result (Str α) :=
  let len := last - first
  if n ≤ len then
    (lift do pure ⟨← fill s.block first n c, s.finish⟩).bind (erase_range (first + n) last)
  else
    (lift do pure ⟨← fill s.block first len c, s.finish⟩).bind (insert_fill last (n - len) c)

/-- `replace(first, last, f, l, forward_iterator_tag)` -/
def replace (first last : ℕ) (xs : List α) (s : Str α) : Result (Str α) :=
  let n := xs.length
  let len := last - first
  if n ≤ len then
    (lift do pure ⟨← put s.block first (xs.map some), s.finish⟩).bind
      (erase_range (first + n) last)
  else
    (lift do pure ⟨← put s.block first ((xs.take len).map some), s.finish⟩).bind
      (insert last (xs.drop len))

/-! ## Operations with positions -/

/-- A difference of two values of `size_t`. -/
def minus (n k : ℕ) : ℕ := (n + 2 ^ 64 - k) % 2 ^ 64

/-- `append(s, pos, n)` -/
def append_part (max_size : ℕ) (xs : List α) (pos n : ℕ) (s : Str α) : Result (Str α) :=
  if xs.length < pos then thrown .out_of_range s
  else s.append max_size ((xs.drop pos).take (min n (xs.length - pos)))

/-- `assign(s, pos, n)` -/
def assign_part (max_size : ℕ) (xs : List α) (pos n : ℕ) (s : Str α) : Result (Str α) :=
  if xs.length < pos then thrown .out_of_range s
  else s.assign max_size ((xs.drop pos).take (min n (xs.length - pos)))

/-- `insert(pos, s, n)` -/
def insert_pos (max_size pos : ℕ) (xs : List α) (s : Str α) : Result (Str α) :=
  if s.size < pos then thrown .out_of_range s
  else if minus max_size xs.length < s.size then thrown .length_error s
  else s.insert pos xs

/-- `insert(pos, n, c)` -/
def insert_pos_fill (max_size pos n : ℕ) (c : α) (s : Str α) : Result (Str α) :=
  if s.size < pos then thrown .out_of_range s
  else if minus max_size n < s.size then thrown .length_error s
  else s.insert_fill pos n c

/-- `replace(pos, n1, s, n2)` -/
def replace_pos (max_size pos n : ℕ) (xs : List α) (s : Str α) : Result (Str α) :=
  if s.size < pos then thrown .out_of_range s
  else
    let len := min n (s.size - pos)
    if max_size < xs.length ∨ max_size - xs.length ≤ s.size - len then thrown .length_error s
    else s.replace pos (pos + len) xs

/-- `replace(pos, n1, n2, c)` -/
def replace_pos_fill (max_size pos n k : ℕ) (c : α) (s : Str α) : Result (Str α) :=
  if s.size < pos then thrown .out_of_range s
  else
    let len := min n (s.size - pos)
    if max_size < k ∨ max_size - k ≤ s.size - len then thrown .length_error s
    else s.replace_fill pos (pos + len) k c

end Str

end Kuhllib.BasicString
