import Kuhllib.Lib.ByteMemory
import Kuhllib.Lib.Chain
import Kuhllib.Lib.Regions

/-!
# `__default_alloc_template`

Objects of at most `_MAX_BYTES` bytes are cut from chunks, and go to one of sixteen lists
when they come back; the lists are threaded through the objects themselves. All others
come from `malloc`.

The answers of `malloc` are given, one for each call; `0` is a null pointer. When the
list of them is at its end, `malloc` fails and no `__malloc_alloc_oom_handler` calls it
again, so `bad_alloc` is thrown. A pointer has eight bytes.

Results: `Lists.push`, `Lists.pop` and `Lists.threaded`, the lists hold the objects that
were put into them and did not leave them.
-/

namespace Kuhllib.DefaultAlloc

open Regions ByteMemory

def ALIGN : ℕ := 8
def MAX_BYTES : ℕ := 128
def NFREELISTS : ℕ := 16

/-- The mask takes the lowest three bits off. -/
def round_up (bytes : ℕ) : ℕ := (bytes + ALIGN - 1) % 2 ^ 64 / ALIGN * ALIGN

def freelist_index (bytes : ℕ) : ℕ := (bytes + ALIGN - 1) / ALIGN - 1

structure Heap where
  memory : Memory
  free_list : ℕ → ℕ
  start_free : ℕ
  end_free : ℕ
  heap_size : ℕ

/-- No `value`: `bad_alloc` was thrown. `got` is what `malloc` was asked for and gave. -/
structure Outcome (α : Type) where
  value : Option α
  heap : Heap
  got : List Region

def malloc : List ℕ → ℕ × List ℕ
  | [] => (0, [])
  | p :: answers => (p, answers)

/-- `malloc_alloc::allocate` and the loop of `_S_oom_malloc`. -/
def malloc_allocate : List ℕ → Option (ℕ × List ℕ)
  | [] => none
  | p :: answers => if p = 0 then malloc_allocate answers else some (p, answers)

namespace Heap

/-- `p -> _M_free_list_link = _S_free_list[i]; _S_free_list[i] = p;` -/
def push (h : Heap) (i p : ℕ) : Heap :=
  { h with
    memory := store h.memory p (h.free_list i) 8
    free_list := Function.update h.free_list i p }

/-- `_S_free_list[i] = _S_free_list[i] -> _M_free_list_link;` -/
def pop (h : Heap) (i : ℕ) : Heap :=
  { h with free_list := Function.update h.free_list i (load h.memory (h.free_list i) 8) }

/-- The first two branches of `_S_chunk_alloc`: objects from what is left of the chunk. -/
def carve (h : Heap) (size nobjs : ℕ) : Option (ℕ × ℕ × Heap) :=
  let total_bytes := size * nobjs
  let bytes_left := h.end_free - h.start_free
  if total_bytes ≤ bytes_left then
    some (h.start_free, nobjs, { h with start_free := h.start_free + total_bytes })
  else if size ≤ bytes_left then
    let nobjs := bytes_left / size
    let total_bytes := size * nobjs
    some (h.start_free, nobjs, { h with start_free := h.start_free + total_bytes })
  else none

/-- `Try to make use of the left-over piece.` -/
def stash (h : Heap) : Heap :=
  let bytes_left := h.end_free - h.start_free
  if 0 < bytes_left then h.push (freelist_index bytes_left) h.start_free else h

/-- The `for` loop over the lists of objects with at least `i` bytes, for at most the given
number of turns: the size of an object that is there. -/
def scan (h : Heap) : ℕ → ℕ → Option ℕ
  | 0, _ => none
  | turns + 1, i =>
    if i ≤ MAX_BYTES then
      if h.free_list (freelist_index i) = 0 then h.scan turns (i + ALIGN) else some i
    else none

def grow (h : Heap) (p bytes_to_get : ℕ) : Heap :=
  { h with
    start_free := p
    heap_size := h.heap_size + bytes_to_get
    end_free := p + bytes_to_get }

/-- The object of `i` bytes becomes what is left of the chunk. -/
def reuse (h : Heap) (i : ℕ) : Heap :=
  let p := h.free_list (freelist_index i)
  { h.pop (freelist_index i) with start_free := p, end_free := p + i }

end Heap

/-- `_S_chunk_alloc` for at most the given number of nested calls. -/
def chunk_alloc : ℕ → Heap → ℕ → ℕ → List ℕ → Option (Outcome (ℕ × ℕ))
  | 0, _, _, _, _ => none
  | calls + 1, h, size, nobjs, answers =>
    match h.carve size nobjs with
    | some (result, nobjs, h) => some ⟨some (result, nobjs), h, []⟩
    | none =>
      let bytes_to_get := 2 * (size * nobjs) + round_up (h.heap_size / 16)
      let h := h.stash
      let again (p : ℕ) (answers : List ℕ) :=
        (chunk_alloc calls (h.grow p bytes_to_get) size nobjs answers).map fun o =>
          { o with got := ⟨p, bytes_to_get⟩ :: o.got }
      let (p, answers) := malloc answers
      if p = 0 then
        match h.scan NFREELISTS size with
        | some i => chunk_alloc calls (h.reuse i) size nobjs answers
        | none =>
          match malloc_allocate answers with
          | some (p, answers) => again p answers
          | none => some ⟨none, { h with start_free := 0, end_free := 0 }, []⟩
      else again p answers

/-- The loop of `_S_refill`: `k` objects of `n` bytes, each linked to the next one. -/
def thread (m : Memory) (current n : ℕ) : ℕ → Memory
  | 0 => m
  | 1 => store m current 0 8
  | k + 2 => thread (store m current (current + n) 8) (current + n) n (k + 1)

def refill (h : Heap) (n : ℕ) (answers : List ℕ) : Option (Outcome ℕ) := do
  let o ← chunk_alloc 2 h n 20 answers
  match o.value with
  | none => pure ⟨none, o.heap, o.got⟩
  | some (chunk, nobjs) =>
    if nobjs = 1 then pure ⟨some chunk, o.heap, o.got⟩
    else
      let heap := { o.heap with
        memory := thread o.heap.memory (chunk + n) n (nobjs - 1)
        free_list := Function.update o.heap.free_list (freelist_index n) (chunk + n) }
      pure ⟨some chunk, heap, o.got⟩

def allocate (h : Heap) (n : ℕ) (answers : List ℕ) : Option (Outcome ℕ) :=
  if MAX_BYTES < n then
    match malloc_allocate answers with
    | some (p, _) => some ⟨some p, h, [⟨p, n⟩]⟩
    | none => some ⟨none, h, []⟩
  else
    let result := h.free_list (freelist_index n)
    if result = 0 then refill h (round_up n) answers
    else some ⟨some result, h.pop (freelist_index n), []⟩

/-- `free` leaves the memory of others alone. -/
def deallocate (h : Heap) (p n : ℕ) : Heap :=
  if MAX_BYTES < n then h else h.push (freelist_index n) p

/-- `realloc` copies what both objects have room for, unless it returns a null pointer. -/
def reallocate (h : Heap) (p old_sz new_sz : ℕ) (answers : List ℕ) : Option (Outcome ℕ) :=
  if MAX_BYTES < old_sz ∧ MAX_BYTES < new_sz then
    let (result, _) := malloc answers
    if result = 0 then some ⟨some 0, h, []⟩
    else
      let heap := { h with memory := copy h.memory result p (min old_sz new_sz) }
      some ⟨some result, heap, [⟨result, new_sz⟩]⟩
  else if round_up old_sz = round_up new_sz then some ⟨some p, h, []⟩
  else do
    let o ← allocate h new_sz answers
    match o.value with
    | none => pure o
    | some result =>
      let copy_sz := if old_sz < new_sz then old_sz else new_sz
      let heap := { o.heap with memory := copy o.heap.memory result p copy_sz }
      pure ⟨some result, deallocate heap p old_sz, o.got⟩

theorem malloc_allocate_none {answers : List ℕ} :
    malloc_allocate answers = none ↔ ∀ p ∈ answers, p = 0 := by
  induction answers with
  | nil => simp [malloc_allocate]
  | cons p answers ih =>
    rw [malloc_allocate, List.forall_mem_cons, ← ih]
    split <;> simp [*]

theorem malloc_zero {answers : List ℕ} (h : (malloc answers).1 = 0) :
    (∀ p ∈ (malloc answers).2, p = 0) ↔ ∀ p ∈ answers, p = 0 := by
  cases answers with
  | nil => rfl
  | cons p answers => exact ⟨fun ha => List.forall_mem_cons.mpr ⟨h, ha⟩, fun ha =>
      (List.forall_mem_cons.mp ha).2⟩

theorem malloc_mem {answers : List ℕ} (h : (malloc answers).1 ≠ 0) :
    (malloc answers).1 ∈ answers := by
  cases answers with
  | nil => exact absurd rfl h
  | cons p answers => exact List.mem_cons_self

/-! ## Sizes -/

/-- The sizes of the objects in the lists. -/
def SizeClass (n : ℕ) : Prop := 8 ∣ n ∧ 0 < n ∧ n ≤ 128

theorem SizeClass.index {n : ℕ} (h : SizeClass n) :
    freelist_index n < NFREELISTS ∧ n = 8 * (freelist_index n + 1) := by
  obtain ⟨⟨k, rfl⟩, hpos, hle⟩ := h
  simp only [freelist_index, ALIGN, NFREELISTS]
  omega

theorem SizeClass.index_inj {n k : ℕ} (hn : SizeClass n) (hk : SizeClass k)
    (h : freelist_index n = freelist_index k) : n = k := by
  rw [hn.index.2, hk.index.2, h]

theorem round_up_bounds {n : ℕ} (hn : n < 2 ^ 63) :
    8 ∣ round_up n ∧ n ≤ round_up n ∧ round_up n < n + 8 := by
  simp only [round_up, ALIGN]
  omega

theorem round_up_class {n : ℕ} (hpos : 0 < n) (hn : n ≤ 128) :
    SizeClass (round_up n) ∧ freelist_index (round_up n) = freelist_index n := by
  simp only [SizeClass, round_up, freelist_index, ALIGN]
  omega

theorem round_up_large {n : ℕ} (h : 128 < n) (hn : n < 2 ^ 64) :
    round_up n = 0 ∨ 128 < round_up n := by
  simp only [round_up, ALIGN]
  omega

/-! ## The lists of free objects -/

def ptr (p : ℕ) : Option ℕ := if p = 0 then none else some p

def link (m : Memory) (p : ℕ) : Option ℕ := ptr (load m p 8)

/-- The objects of the list `i` among those that are free. -/
def cells (free : List Region) (i : ℕ) : List ℕ :=
  (free.filter fun r => freelist_index r.size = i).map Region.base

/-- An object that a list can hold. -/
structure Piece (r : Region) : Prop where
  sized : SizeClass r.size
  aligned : 8 ∣ r.base
  addresses : ∀ a ∈ r.bytes, 0 < a ∧ a < 2 ^ 64

/-- The lists hold the objects `free`. -/
structure Lists (m : Memory) (heads : ℕ → ℕ) (free : List Region) : Prop where
  links : ∀ i < NFREELISTS, Chain.Path (link m) (ptr (heads i)) (cells free i)
  objects : ∀ r ∈ free, Piece r
  apart : (spread free).Nodup

theorem Piece.base_bounds {r : Region} (h : Piece r) : 0 < r.base ∧ r.base < 2 ^ 64 :=
  h.addresses r.base (Region.mem_bytes.mpr ⟨le_rfl, Nat.lt_add_of_pos_right h.sized.2.1⟩)

theorem ptr_some {p : ℕ} (h : 0 < p) : ptr p = some p := if_neg h.ne'

theorem ptr_eq_none {p : ℕ} : ptr p = none ↔ p = 0 := by simp [ptr]

theorem ptr_eq_some {p q : ℕ} (h : ptr p = some q) : p = q ∧ 0 < q := by
  unfold ptr at h
  split at h
  · cases h
  · cases h
    exact ⟨rfl, Nat.pos_of_ne_zero ‹_›⟩

@[simp]
theorem cells_cons (r : Region) (free : List Region) (i : ℕ) :
    cells (r :: free) i =
      if freelist_index r.size = i then r.base :: cells free i else cells free i := by
  unfold cells
  rw [List.filter_cons]
  split <;> rename_i h <;> simp only [decide_eq_true_eq] at h <;> simp [h]

theorem mem_cells {free : List Region} {i p : ℕ} :
    p ∈ cells free i ↔ ∃ r ∈ free, freelist_index r.size = i ∧ r.base = p := by
  simp [cells, and_assoc]

/-- The link of an object is inside of it. -/
theorem Piece.link_congr {m m' : Memory} {r : Region} (h : Piece r)
    (hm : ∀ a ∈ r.bytes, m' a = m a) : link m' r.base = link m r.base := by
  have hsize : 8 ≤ r.size := Nat.le_of_dvd h.sized.2.1 h.sized.1
  unfold link
  rw [load_congr fun a hp ha => hm a (Region.mem_bytes.mpr ⟨hp, by omega⟩)]

/-- What is written elsewhere does not change the lists. -/
theorem Lists.congr {m m' : Memory} {heads : ℕ → ℕ} {free : List Region} (h : Lists m heads free)
    (hm : ∀ a ∈ spread free, m' a = m a) : Lists m' heads free := by
  refine ⟨fun i hi => (h.links i hi).congr fun p hp => ?_, h.objects, h.apart⟩
  obtain ⟨r, hr, -, rfl⟩ := mem_cells.mp hp
  exact (h.objects r hr).link_congr fun a ha => hm a (mem_spread.mpr ⟨r, hr, ha⟩)

theorem Lists.head_bound {m : Memory} {heads : ℕ → ℕ} {free : List Region} {i : ℕ}
    (h : Lists m heads free) (hi : i < NFREELISTS) : heads i < 2 ^ 64 := by
  have hpath := h.links i hi
  cases hcells : cells free i with
  | nil =>
    rw [hcells] at hpath
    rw [ptr_eq_none.mp hpath]
    decide
  | cons p ps =>
    rw [hcells] at hpath
    obtain ⟨r, hr, -, rfl⟩ := mem_cells.mp (hcells ▸ List.mem_cons_self : p ∈ cells free i)
    rw [(ptr_eq_some hpath.1).1]
    exact (h.objects r hr).base_bounds.2

theorem store_outside_piece {m : Memory} {r : Region} {v a : ℕ} (h : Piece r)
    (ha : a ∉ r.bytes) : store m r.base v 8 a = m a := by
  have hsize : 8 ≤ r.size := Nat.le_of_dvd h.sized.2.1 h.sized.1
  rw [Region.mem_bytes] at ha
  exact store_outside (by omega)

/-- An object goes to the front of the list of its size. -/
theorem Lists.push {m : Memory} {heads : ℕ → ℕ} {free : List Region} {r : Region}
    (h : Lists m heads free) (hr : Piece r) (hapart : (spread (r :: free)).Nodup) :
    Lists (store m r.base (heads (freelist_index r.size)) 8)
      (Function.update heads (freelist_index r.size) r.base) (r :: free) := by
  have hdisjoint : ∀ a ∈ spread free, a ∉ r.bytes := by
    rw [spread_cons, Multiset.nodup_add, Multiset.disjoint_left] at hapart
    exact fun a ha hb => hapart.2.2 hb ha
  have hkept := h.congr fun a ha =>
    store_outside_piece (v := heads (freelist_index r.size)) hr (hdisjoint a ha)
  have hword : load (store m r.base (heads (freelist_index r.size)) 8) r.base 8 =
      heads (freelist_index r.size) := by
    rw [load_store]
    exact Nat.mod_eq_of_lt (h.head_bound hr.sized.index.1)
  refine ⟨fun i hi => ?_, List.forall_mem_cons.mpr ⟨hr, h.objects⟩, hapart⟩
  rw [cells_cons]
  split
  · rename_i heq
    subst heq
    rw [Function.update_self]
    refine ⟨ptr_some hr.base_bounds.1, ?_⟩
    unfold link
    rw [hword]
    exact hkept.links _ hi
  · rename_i hne
    rw [Function.update_of_ne (Ne.symm hne)]
    exact hkept.links i hi

/-- The first object of a list leaves it. -/
theorem Lists.pop {m : Memory} {heads : ℕ → ℕ} {free : List Region} {i : ℕ}
    (h : Lists m heads free) (hi : i < NFREELISTS) (hhead : heads i ≠ 0) :
    ∃ r ∈ free, r.base = heads i ∧ freelist_index r.size = i ∧
      Lists m (Function.update heads i (load m (heads i) 8)) (free.erase r) := by
  have hpath := h.links i hi
  cases hfilter : free.filter fun r => freelist_index r.size = i with
  | nil =>
    rw [cells, hfilter] at hpath
    exact absurd (ptr_eq_none.mp hpath) hhead
  | cons r rs =>
    have hr : r ∈ free ∧ freelist_index r.size = i := by
      have hmem : r ∈ free.filter fun r => freelist_index r.size = i := by simp [hfilter]
      simpa using hmem
    rw [cells, hfilter] at hpath
    have hbase := (ptr_eq_some hpath.1).1
    have hapart := h.apart
    rw [spread_erase hr.1, Multiset.nodup_add] at hapart
    refine ⟨r, hr.1, hbase.symm, hr.2, fun j hj => ?_,
      fun s hs => h.objects s (List.mem_of_mem_erase hs), hapart.2.1⟩
    by_cases heq : j = i
    · subst heq
      rw [Function.update_self, hbase, cells, ← List.erase_filter, hfilter, List.erase_cons_head]
      exact hpath.2
    · have hcells : cells (free.erase r) j = cells free j := by
        rw [cells, cells, ← List.erase_filter, List.erase_of_not_mem]
        rw [List.mem_filter, decide_eq_true_eq]
        exact fun hmem => heq (hmem.2.symm.trans hr.2)
      rw [Function.update_of_ne heq, hcells]
      exact h.links j hj

/-! ## The loop that links the objects of a chunk -/

/-- `k` objects of `n` bytes. -/
def pieces (p n : ℕ) : ℕ → List Region
  | 0 => []
  | k + 1 => ⟨p, n⟩ :: pieces (p + n) n k

theorem spread_pieces (p n k : ℕ) : spread (pieces p n k) = (Region.mk p (n * k)).bytes := by
  induction k generalizing p with
  | zero => simp [pieces]
  | succ k ih => rw [pieces, spread_cons, ih, Region.bytes_mul_succ]

theorem forall_pieces {p n k : ℕ} (hn : SizeClass n) (hp : 8 ∣ p)
    (hbytes : ∀ a ∈ (Region.mk p (n * k)).bytes, 0 < a ∧ a < 2 ^ 64) :
    ∀ r ∈ pieces p n k, Piece r ∧ r.size = n := by
  induction k generalizing p with
  | zero => simp [pieces]
  | succ k ih =>
    rw [Region.bytes_mul_succ] at hbytes
    refine List.forall_mem_cons.mpr ⟨⟨⟨hn, hp, fun a ha => ?_⟩, rfl⟩, ?_⟩
    · exact hbytes a (Multiset.mem_add.mpr (.inl ha))
    · exact ih (Nat.dvd_add hp hn.1) fun a ha => hbytes a (Multiset.mem_add.mpr (.inr ha))

theorem thread_outside {m : Memory} {p n k a : ℕ} (hn : 8 ≤ n)
    (ha : a ∉ (Region.mk p (n * k)).bytes) : thread m p n k a = m a := by
  fun_induction thread m p n k with
  | case1 => rfl
  | case2 m p =>
    simp only [Region.mem_bytes] at ha
    exact store_outside (by omega)
  | case3 m p k ih =>
    rw [Region.bytes_mul_succ, Multiset.mem_add, not_or] at ha
    rw [ih ha.2]
    have hfirst := ha.1
    simp only [Region.mem_bytes] at hfirst
    exact store_outside (by omega)

/-- Each object is linked to the next one, and the last one to none. -/
theorem thread_path {m : Memory} {p n k : ℕ} (hn : 8 ≤ n)
    (hbytes : ∀ a ∈ (Region.mk p (n * (k + 1))).bytes, 0 < a ∧ a < 2 ^ 64) :
    Chain.Path (link (thread m p n (k + 1))) (some p)
      ((pieces p n (k + 1)).map Region.base) := by
  induction k generalizing m p with
  | zero =>
    refine ⟨rfl, ?_⟩
    unfold link
    rw [thread, load_store]
    rfl
  | succ k ih =>
    have hrest := hbytes
    rw [Region.bytes_mul_succ] at hrest
    have hnext : 0 < p + n ∧ p + n < 2 ^ 64 :=
      hbytes _ (Region.mem_bytes.mpr ⟨Nat.le_add_right _ _, by
        simp only [Nat.mul_succ]
        omega⟩)
    have hword : load (thread (store m p (p + n) 8) (p + n) n (k + 1)) p 8 = p + n := by
      rw [load_congr fun a hp ha => thread_outside hn ?_]
      · rw [load_store]
        exact Nat.mod_eq_of_lt hnext.2
      · simp only [Region.mem_bytes]
        omega
    refine ⟨rfl, ?_⟩
    unfold link
    rw [thread, hword, ptr_some hnext.1]
    exact ih fun a ha => hrest a (Multiset.mem_add.mpr (.inr ha))

theorem cells_append (free free' : List Region) (i : ℕ) :
    cells (free ++ free') i = cells free i ++ cells free' i := by
  simp [cells]

theorem cells_pieces {p n k i : ℕ} : cells (pieces p n k) i =
    if freelist_index n = i then (pieces p n k).map Region.base else [] := by
  induction k generalizing p with
  | zero => simp [pieces, cells]
  | succ k ih =>
    rw [pieces, cells_cons, ih]
    split <;> rfl

/-- An empty list is filled with the objects of a chunk. -/
theorem Lists.threaded {m : Memory} {heads : ℕ → ℕ} {free : List Region} {p n k : ℕ}
    (h : Lists m heads free) (hn : SizeClass n) (hp : 8 ∣ p)
    (hempty : cells free (freelist_index n) = [])
    (hbytes : ∀ a ∈ (Region.mk p (n * (k + 1))).bytes, 0 < a ∧ a < 2 ^ 64)
    (hapart : ((Region.mk p (n * (k + 1))).bytes + spread free).Nodup) :
    Lists (thread m p n (k + 1)) (Function.update heads (freelist_index n) p)
      (pieces p n (k + 1) ++ free) := by
  have hsize : 8 ≤ n := Nat.le_of_dvd hn.2.1 hn.1
  have hdisjoint : ∀ a ∈ spread free, a ∉ (Region.mk p (n * (k + 1))).bytes := by
    rw [Multiset.nodup_add, Multiset.disjoint_left] at hapart
    exact fun a ha hb => hapart.2.2 hb ha
  have hkept := h.congr fun a ha => thread_outside (m := m) hsize (hdisjoint a ha)
  have hpos : 0 < p := (hbytes p (Region.mem_bytes.mpr ⟨le_rfl, by
    simp only [Nat.mul_succ]
    omega⟩)).1
  refine ⟨fun i hi => ?_, fun r hr => ?_, ?_⟩
  · rw [cells_append, cells_pieces]
    split
    · rename_i heq
      subst heq
      rw [hempty, List.append_nil, Function.update_self, ptr_some hpos]
      exact thread_path hsize hbytes
    · rename_i hne
      rw [Function.update_of_ne (Ne.symm hne)]
      exact hkept.links i hi
  · obtain hr | hr := List.mem_append.mp hr
    · exact (forall_pieces hn hp hbytes r hr).1
    · exact h.objects r hr
  · rw [spread_append, spread_pieces]
    exact hapart

theorem cells_eq_nil {free : List Region} {i : ℕ} :
    cells free i = [] ↔ ∀ r ∈ free, freelist_index r.size ≠ i := by
  simp [cells]

/-- A null pointer is the head of a list without objects. -/
theorem Lists.head_eq_zero {m : Memory} {heads : ℕ → ℕ} {free : List Region} {n : ℕ}
    (h : Lists m heads free) (hn : SizeClass n) :
    heads (freelist_index n) = 0 ↔ ∀ r ∈ free, r.size ≠ n := by
  have hpath := h.links _ hn.index.1
  constructor
  · intro hzero r hr heq
    have hnil : cells free (freelist_index n) = [] := by
      cases hcells : cells free (freelist_index n) with
      | nil => rfl
      | cons p ps =>
        rw [hcells, hzero] at hpath
        cases hpath.1
    exact cells_eq_nil.mp hnil r hr (by rw [heq])
  · intro hsizes
    have hnil : cells free (freelist_index n) = [] :=
      cells_eq_nil.mpr fun r hr heq => hsizes r hr ((h.objects r hr).sized.index_inj hn heq)
    rw [hnil] at hpath
    exact ptr_eq_none.mp hpath

end Kuhllib.DefaultAlloc
