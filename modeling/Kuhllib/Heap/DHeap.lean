import Kuhllib.Lib.BackPointers
import Kuhllib.Lib.HandleQueue
import Kuhllib.Lib.HeapOrder
import Kuhllib.Lib.Transition
import Mathlib.Algebra.Ring.Nat
import Mathlib.Order.BooleanAlgebra.Set

/-!
# `boost::d_heap`

A node is named by its pointer, the list iterator that is its handle. A new node has
the pointer of no node of the list, which may be the one of an erased node. `base` are
the cells of the vector `m_heap` and `size` is its size; positions do not overflow.

Results:
1. `siftup_spec`, `pop_spec`: the loops move a hole through the tree.
2. `refines_queue`: over all runs the heap is a queue with handles that pops a
   maximum.
-/

namespace Kuhllib.DHeap

open HeapOrder BackPointers HandleQueue Transition

/-- The nodes, and the vector of pointers to them. -/
structure Heap (α T : Type) where
  m_nodes : List α
  m_index : α → Nat
  m_value : α → T
  base : Nat → α
  size : Nat

variable {α T : Type} [DecidableEq α]

/-- `m_heap[i]->m_value`. -/
def Heap.value (s : Heap α T) (i : Nat) : T := s.m_value (s.base i)

/-- `*(base + idx) = p; (*(base + idx))->m_index = idx;`. -/
def Heap.assign (s : Heap α T) (idx : Nat) (p : α) : Heap α T :=
  { s with base := Function.update s.base idx p, m_index := Function.update s.m_index p idx }

section

variable (m_compare : T → T → Bool) (d : Nat)

/-- The loop of `siftup` and the assignments behind it. -/
def Heap.siftup_loop (s : Heap α T) (idx : Nat) (ptr : α) : Heap α T :=
  let pidx := (idx - 1) / d
  if _h : idx ≠ 0 ∧ m_compare (s.value pidx) (s.m_value ptr) = true then
    (s.assign idx (s.base pidx)).siftup_loop pidx ptr
  else s.assign idx ptr
termination_by idx
decreasing_by exact parent_lt (Nat.pos_of_ne_zero _h.1)

def Heap.siftup (s : Heap α T) (idx : Nat) (ptr : α) : Heap α T :=
  if idx = 0 then s else s.siftup_loop m_compare d idx ptr

/-- `push(value)`, where the node is created at `p`. -/
def Heap.push (s : Heap α T) (p : α) (value : T) : Heap α T :=
  let s := { s with
    m_nodes := s.m_nodes ++ [p]
    m_index := Function.update s.m_index p s.size
    m_value := Function.update s.m_value p value }
  let s := { s with base := Function.update s.base s.size p, size := s.size + 1 }
  s.siftup m_compare d (s.size - 1) p

/-- The greatest of the children of a full group that ends with `cidx`. -/
def Heap.group_max (s : Heap α T) (cidx : Nat) : Nat :=
  largest m_compare s.value cidx ((List.range' 1 (d - 1)).map (cidx - ·))

/-- The greatest of the last, partial group, which begins with `cidx`. -/
def Heap.rest_max (s : Heap α T) (cidx : Nat) : Nat :=
  largest m_compare s.value cidx (List.range' (cidx + 1) (s.size - (cidx + 1)))

omit [DecidableEq α] in
theorem mem_group [NeZero d] {hidx c : Nat} :
    c ∈ (hidx * d + d) :: (List.range' 1 (d - 1)).map (hidx * d + d - ·) ↔
      hidx * d + 1 ≤ c ∧ c ≤ hidx * d + d := by
  have hd : 0 < d := Nat.pos_of_neZero d
  rw [List.mem_cons, List.mem_map]
  constructor
  · rintro (rfl | ⟨i, hi, rfl⟩)
    · omega
    · rw [List.mem_range'_1] at hi
      omega
  · rintro ⟨hlow, hhigh⟩
    rcases Nat.eq_or_lt_of_le hhigh with he | hlt
    · exact .inl he
    · refine .inr ⟨hidx * d + d - c, ?_, by omega⟩
      rw [List.mem_range'_1]
      omega

omit [DecidableEq α] in
theorem group_max_mem [NeZero d] (s : Heap α T) (hidx : Nat) :
    hidx * d + 1 ≤ s.group_max m_compare d (hidx * d + d) ∧
      s.group_max m_compare d (hidx * d + d) ≤ hidx * d + d :=
  (mem_group d).mp (largest_mem m_compare s.value _ _)

/-- A child stands behind its parent. -/
theorem lt_of_child [NeZero d] {hidx c : Nat} (h : hidx * d + 1 ≤ c) : hidx < c :=
  Nat.lt_of_le_of_lt (Nat.le_mul_of_pos_right _ (Nat.pos_of_neZero d)) h

/-- The loop of `pop`: the hole `hidx` moves down as long as there is a full group of
children, of which `cidx` is the last one. -/
def Heap.pop_loop [NeZero d] (s : Heap α T) (hidx : Nat) : Heap α T × Nat :=
  let cidx := hidx * d + d
  if _h : cidx < s.size then
    let midx := s.group_max m_compare d cidx
    (s.assign hidx (s.base midx)).pop_loop midx
  else (s, hidx)
termination_by s.size - hidx
decreasing_by
  have hlt := lt_of_child d (group_max_mem m_compare d s hidx).1
  have hself : hidx < hidx * d + d :=
    lt_of_child d (Nat.add_le_add_left (Nat.pos_of_neZero d) _)
  exact Nat.sub_lt_sub_left (Nat.lt_trans hself _h) hlt

def Heap.pop [NeZero d] (s : Heap α T) : Heap α T :=
  let len := s.size
  let rmnode := s.base 0
  let (s, hidx) := s.pop_loop m_compare d 0
  let cidx := hidx * d + d
  let (s, hidx) :=
    if cidx + 1 - d < len then
      let midx := s.rest_max m_compare (cidx + 1 - d)
      (s.assign hidx (s.base midx), midx)
    else (s, hidx)
  let s :=
    if hidx ≠ len - 1 then
      (s.assign hidx (s.base (len - 1))).siftup m_compare d hidx (s.base (len - 1))
    else s
  { s with m_nodes := s.m_nodes.erase rmnode, size := s.size - 1 }

/-- `increase(p, value)`; `value` is what the assignment leaves in the node. -/
def Heap.increase (s : Heap α T) (p : α) (value : T) : Heap α T :=
  let s := { s with m_value := Function.update s.m_value p value }
  s.siftup m_compare d (s.m_index p) p

end

def Heap.top (s : Heap α T) : T := s.value 0

inductive Label (α T : Type)
  | push (p : α) (value : T)
  | pop
  | increase (p : α) (value : T)

/-- A pointer is increased to a value that is not smaller; `pop` needs an element. -/
def next (m_compare : T → T → Bool) (d : Nat) [NeZero d] (s : Heap α T) :
    Label α T → Option (Heap α T)
  | .push p value => if p ∉ s.m_nodes then some (s.push m_compare d p value) else none
  | .pop => if s.m_nodes ≠ [] then some (s.pop m_compare d) else none
  | .increase p value =>
    if p ∈ s.m_nodes ∧ m_compare value (s.m_value p) = false then
      some (s.increase m_compare d p value)
    else none

def system (α : Type) [DecidableEq α] (m_compare : T → T → Bool) (d : Nat) [NeZero d] :
    System (Heap α T) (Label α T) where
  init s := s.m_nodes = [] ∧ s.size = 0
  step s l s' := next m_compare d s l = some s'

/-! ## 1. The loops -/

section

variable {m_compare : T → T → Bool} {d : Nat}

/-- The elements `S` have places but `h`, and are ordered around it. -/
structure Sifting (m_compare : T → T → Bool) (d : Nat) (s : Heap α T) (n h : Nat) (S : Set α) :
    Prop where
  places : Places s.base s.m_index n h S
  hole : Hole d (m_compare · ·) n h s.value

/-- The elements `S` have all the places, and are ordered. -/
structure Sifted (m_compare : T → T → Bool) (d : Nat) (s : Heap α T) (n : Nat) (S : Set α) :
    Prop where
  places : Places s.base s.m_index n n S
  ordered : Ordered d (m_compare · ·) n s.value

/-- Positions change only. -/
structure Moves (s s' : Heap α T) : Prop where
  m_nodes : s'.m_nodes = s.m_nodes
  m_value : s'.m_value = s.m_value
  size : s'.size = s.size

omit [DecidableEq α] in
theorem Moves.refl (s : Heap α T) : Moves s s := ⟨rfl, rfl, rfl⟩

omit [DecidableEq α] in
theorem Moves.trans {s s' s'' : Heap α T} (h : Moves s s') (h' : Moves s' s'') : Moves s s'' :=
  ⟨h'.m_nodes.trans h.m_nodes, h'.m_value.trans h.m_value, h'.size.trans h.size⟩

namespace DHeapLemmas

variable {s s' : Heap α T} {n h m : Nat} {S : Set α} {p : α}

theorem moves_assign (s : Heap α T) (h : Nat) (p : α) : Moves s (s.assign h p) := ⟨rfl, rfl, rfl⟩

theorem value_assign (s : Heap α T) (h : Nat) (p : α) :
    (s.assign h p).value = Function.update s.value h (s.m_value p) :=
  Function.comp_update s.m_value s.base h p

/-- An assignment that changes nothing. -/
theorem assign_self (hbase : s.base h = p) (hindex : s.m_index p = h) : s.assign h p = s := by
  subst hbase
  have hi : Function.update s.m_index (s.base h) h = s.m_index := by
    rw [Function.update_eq_self_iff, hindex]
  rw [Heap.assign, Function.update_eq_self, hi]

/-- The hole moves up. -/
theorem sifting_up [IsStrictWeakOrder T (m_compare · ·)] (hs : Sifting m_compare d s n h S)
    (hn : h < n) (hpos : 0 < h) (hp : m_compare (s.value (parent d h)) (s.m_value p) = true) :
    Sifting m_compare d (s.assign h (s.base (parent d h))) n (parent d h) S ∧
      Above d (m_compare · ·) n (parent d h) (s.assign h (s.base (parent d h))).value
        (s.m_value p) := by
  have hlt := parent_lt (d := d) hpos
  obtain ⟨hhole, habove⟩ := hs.hole.up hpos hn hp
  rw [value_assign]
  refine ⟨⟨hs.places.move hn (Nat.lt_trans hlt hn) (Nat.ne_of_lt hlt), ?_⟩, habove⟩
  rw [value_assign]
  exact hhole

/-- The hole moves down. -/
theorem sifting_down (hs : Sifting m_compare d s n h S) (hm : 0 < m) (hn : m < n)
    (hp : parent d m = h)
    (hmax : ∀ i, 0 < i → i < n → parent d i = h → ¬ m_compare (s.value m) (s.value i)) :
    Sifting m_compare d (s.assign h (s.base m)) n m S := by
  have hlt : h < m := hp ▸ parent_lt hm
  refine ⟨hs.places.move (Nat.lt_trans hlt hn) hn (Nat.ne_of_gt hlt), ?_⟩
  rw [value_assign]
  exact hs.hole.down hm hn hp hmax

/-- The hole is filled. -/
theorem sifted_fill (hs : Sifting m_compare d s n h S) (hn : h < n) (hS : p ∉ S)
    (habove : Above d (m_compare · ·) n h s.value (s.m_value p))
    (hstop : 0 < h → ¬ m_compare (s.value (parent d h)) (s.m_value p)) :
    Sifted m_compare d (s.assign h p) n (insert p S) := by
  refine ⟨hs.places.fill hn hS, ?_⟩
  rw [value_assign]
  exact hs.hole.fill habove hstop

theorem moves_siftup (s : Heap α T) (h : Nat) (p : α) : Moves s (s.siftup m_compare d h p) := by
  have hloop : ∀ h (s : Heap α T), Moves s (s.siftup_loop m_compare d h p) := by
    intro h
    induction h using Nat.strongRecOn with
    | ind h ih =>
      intro s
      rw [Heap.siftup_loop]
      split
      · rename_i hc
        exact (moves_assign s h _).trans (ih _ (parent_lt (Nat.pos_of_ne_zero hc.1)) _)
      · exact moves_assign s h p
  unfold Heap.siftup
  split
  · exact .refl s
  · exact hloop h s

theorem siftup_loop_spec [IsStrictWeakOrder T (m_compare · ·)]
    (hs : Sifting m_compare d s n h S) (hn : h < n) (hS : p ∉ S)
    (habove : Above d (m_compare · ·) n h s.value (s.m_value p)) :
    Sifted m_compare d (s.siftup_loop m_compare d h p) n (insert p S) := by
  induction h using Nat.strongRecOn generalizing s with
  | ind h ih =>
    rw [Heap.siftup_loop]
    split
    · rename_i hloop
      have hpos : 0 < h := Nat.pos_of_ne_zero hloop.1
      obtain ⟨hs', habove'⟩ := sifting_up hs hn hpos hloop.2
      exact ih _ (parent_lt hpos) hs' (Nat.lt_trans (parent_lt hpos) hn) habove'
    · rename_i hstop
      exact sifted_fill hs hn hS habove fun hpos hlt => hstop ⟨Nat.ne_of_gt hpos, hlt⟩

/-- `siftup(idx, ptr)` for the pointer that stands at `idx`: the hole is filled by it. -/
theorem siftup_spec [IsStrictWeakOrder T (m_compare · ·)]
    (hs : Sifting m_compare d s n h S) (hn : h < n) (hS : p ∉ S)
    (habove : Above d (m_compare · ·) n h s.value (s.m_value p)) (hbase : s.base h = p)
    (hindex : s.m_index p = h) :
    Sifted m_compare d (s.siftup m_compare d h p) n (insert p S) := by
  have hloop := siftup_loop_spec hs hn hS habove
  unfold Heap.siftup
  split
  · rename_i hzero
    rw [Heap.siftup_loop, dif_neg fun hc => hc.1 hzero, assign_self hbase hindex] at hloop
    exact hloop
  · exact hloop

/-- The loop of `pop` leaves a hole without a full group of children. -/
theorem pop_loop_spec [NeZero d] [IsStrictWeakOrder T (m_compare · ·)]
    (hs : Sifting m_compare d s s.size h S) (hn : h < s.size) :
    let r := s.pop_loop m_compare d h
    Sifting m_compare d r.1 s.size r.2 S ∧ Moves s r.1 ∧ r.2 < s.size ∧
      s.size ≤ r.2 * d + d := by
  have hd : 0 < d := Nat.pos_of_neZero d
  induction hk : s.size - h using Nat.strongRecOn generalizing s h with
  | ind k ih =>
    rw [Heap.pop_loop]
    split
    · rename_i hlt
      obtain ⟨hlow, hhigh⟩ := group_max_mem m_compare d s h
      have hpos : 0 < s.group_max m_compare d (h * d + d) :=
        Nat.lt_of_lt_of_le (Nat.succ_pos _) hlow
      have hmid : s.group_max m_compare d (h * d + d) < s.size := Nat.lt_of_le_of_lt hhigh hlt
      have hchild := (parent_eq_iff hd hpos).mpr ⟨hlow, hhigh⟩
      -- all children are in the group
      have hmax : ∀ i, 0 < i → i < s.size → parent d i = h →
          ¬ m_compare (s.value (s.group_max m_compare d (h * d + d))) (s.value i) := by
        intro i hi _ hp
        exact largest_ge s.value _ _ i ((mem_group d).mpr ((parent_eq_iff hd hi).mp hp))
      have hless := lt_of_child d hlow
      obtain ⟨hs', hmoves, hlast⟩ := ih _ (by rw [← hk]; exact Nat.sub_lt_sub_left hn hless)
        (sifting_down hs hpos hmid hchild hmax) hmid rfl
      exact ⟨hs', (moves_assign s h _).trans hmoves, hlast⟩
    · rename_i hge
      exact ⟨hs, .refl s, hn, Nat.le_of_not_lt hge⟩

/-- The hole below which there is a partial group only moves to the end of the tree. -/
theorem rest_spec [NeZero d] [IsStrictWeakOrder T (m_compare · ·)]
    (hs : Sifting m_compare d s s.size h S) (hlast : s.size ≤ h * d + d)
    (hrest : h * d + 1 < s.size) :
    let midx := s.rest_max m_compare (h * d + 1)
    Sifting m_compare d (s.assign h (s.base midx)) s.size midx S ∧ midx < s.size ∧
      ∀ i, 0 < i → i < s.size → parent d i ≠ midx := by
  intro midx
  have hd : 0 < d := Nat.pos_of_neZero d
  have hgroup : ∀ c, c ∈ (h * d + 1) :: List.range' (h * d + 1 + 1) (s.size - (h * d + 1 + 1)) ↔
      h * d + 1 ≤ c ∧ c < s.size := by
    intro c
    rw [List.mem_cons, List.mem_range'_1]
    omega
  obtain ⟨hlow, hmid⟩ := (hgroup midx).mp (largest_mem m_compare s.value _ _)
  have hpos : 0 < midx := Nat.lt_of_lt_of_le (Nat.succ_pos _) hlow
  have hchild : parent d midx = h :=
    (parent_eq_iff hd hpos).mpr ⟨hlow, Nat.le_of_lt (Nat.lt_of_lt_of_le hmid hlast)⟩
  have hmax : ∀ i, 0 < i → i < s.size → parent d i = h →
      ¬ m_compare (s.value midx) (s.value i) := by
    intro i hi hin hp
    exact largest_ge s.value _ _ i ((hgroup i).mpr ⟨((parent_eq_iff hd hi).mp hp).1, hin⟩)
  refine ⟨sifting_down hs hpos hmid hchild hmax, hmid, fun i hi hin hp => ?_⟩
  -- the children of a later position would begin behind the group
  have hbegin := ((parent_eq_iff hd hi).mp hp).1
  have hlater : (h + 1) * d ≤ midx * d := Nat.mul_le_mul_right d (lt_of_child d hlow)
  rw [Nat.add_mul, Nat.one_mul] at hlater
  omega

/-- The hole behind the loop has no children, or moves to one of the partial group. -/
theorem leaf_spec [NeZero d] [IsStrictWeakOrder T (m_compare · ·)] (hsize : s.size = n)
    (hs : Sifting m_compare d s n h S) (hn : h < n) (hlast : n ≤ h * d + d) :
    let midx := s.rest_max m_compare (h * d + d + 1 - d)
    let r := if h * d + d + 1 - d < n then (s.assign h (s.base midx), midx) else (s, h)
    Sifting m_compare d r.1 n r.2 S ∧ Moves s r.1 ∧ r.2 < n ∧
      ∀ i, 0 < i → i < n → parent d i ≠ r.2 := by
  subst hsize
  have hbegin : h * d + d + 1 - d = h * d + 1 := by omega
  rw [hbegin]
  intro midx r
  by_cases hrest : h * d + 1 < s.size
  · have he : r = (s.assign h (s.base midx), midx) := if_pos hrest
    obtain ⟨hs', hlt, hleaf⟩ := rest_spec hs hlast hrest
    rw [he]
    exact ⟨hs', moves_assign .., hlt, hleaf⟩
  · have he : r = (s, h) := if_neg hrest
    rw [he]
    refine ⟨hs, .refl s, hn, fun i hi hin hp => hrest ?_⟩
    have hchild := (parent_eq_iff (Nat.pos_of_neZero d) hi).mp hp
    exact Nat.lt_of_le_of_lt hchild.1 hin

/-- The last element is put into a hole whose children are not greater. -/
theorem last_spec [IsStrictWeakOrder T (m_compare · ·)] {len : Nat}
    (hs : Sifting m_compare d s len h S) (hn : h < len)
    (habove : Above d (m_compare · ·) (len - 1) h s.value (s.value (len - 1))) :
    let s' := if h ≠ len - 1 then
      (s.assign h (s.base (len - 1))).siftup m_compare d h (s.base (len - 1)) else s
    Sifted m_compare d s' (len - 1) S ∧ Moves s s' := by
  obtain ⟨n, rfl⟩ := Nat.exists_eq_add_of_lt (Nat.lt_of_le_of_lt (Nat.zero_le h) hn)
  rw [Nat.zero_add] at hs hn habove ⊢
  rw [Nat.add_sub_cancel] at habove ⊢
  intro s'
  by_cases hlast : h = n
  · have hs' : s' = s := if_neg (not_not.mpr hlast)
    rw [hs']
    rw [hlast] at hs
    exact ⟨⟨hs.places.shrink, hs.hole.shrink⟩, .refl s⟩
  · have hs' : s' = (s.assign h (s.base n)).siftup m_compare d h (s.base n) := if_pos hlast
    have hlt : h < n := by omega
    have hmem : s.base n ∈ S := (hs.places.at_place n (Nat.lt_succ_self n) (Ne.symm hlast)).1
    have hbase : (s.assign h (s.base n)).base h = s.base n := Function.update_self ..
    -- the last place is given up, and the element is taken in hand
    have hplaces := ((hs.places.move hn (Nat.lt_succ_self n) (Ne.symm hlast)).shrink).take hlt
    rw [Function.update_self] at hplaces
    have hhole : Hole d (m_compare · ·) n h (s.assign h (s.base n)).value := by
      rw [value_assign]
      exact (hs.hole.mono (Nat.le_succ n)).congr
        (fun i _ hih => Function.update_of_ne hih _ _) hlt
    have habove' : Above d (m_compare · ·) n h (s.assign h (s.base n)).value
        ((s.assign h (s.base n)).m_value (s.base n)) := by
      rw [value_assign]
      exact habove.congr fun i _ hih => Function.update_of_ne hih _ _
    have hsifted := siftup_spec ⟨hplaces, hhole⟩ hlt
      (fun hd => hd.2 (Set.mem_singleton _)) habove' hbase (Function.update_self ..)
    rw [Set.insert_sdiff_self_of_mem hmem] at hsifted
    rw [hs']
    exact ⟨hsifted, (moves_assign ..).trans (moves_siftup ..)⟩

end DHeapLemmas

open DHeapLemmas

/-! ## 2. The operations -/

/-- The heap order, and every node of the list at its place. -/
structure Inv (m_compare : T → T → Bool) (d : Nat) (s : Heap α T) : Prop where
  nodup : s.m_nodes.Nodup
  sifted : Sifted m_compare d s s.size {p | p ∈ s.m_nodes}

def Heap.entries (s : Heap α T) : Queue α T := HandleQueue.entries s.m_nodes s.m_value

section

variable [IsStrictWeakOrder T (m_compare · ·)] {s : Heap α T} {p : α} {value : T}

omit [DecidableEq α] [IsStrictWeakOrder T (m_compare · ·)] in
/-- There are nodes as long as there are places. -/
theorem size_pos (h : Inv m_compare d s) (hne : s.m_nodes ≠ []) : 0 < s.size := by
  obtain ⟨p, hp⟩ := List.exists_mem_of_ne_nil _ hne
  exact Nat.lt_of_le_of_lt (Nat.zero_le _) (h.sifted.places.place_of p hp).1

omit [DecidableEq α] in
/-- No value is greater than the one of the first place. -/
theorem top_max (h : Inv m_compare d s) (hpos : 0 < s.size) :
    s.entries.IsMax m_compare (s.base 0, s.top) := by
  have hroot := (h.sifted.places.at_place 0 hpos (Nat.ne_of_lt hpos)).1
  refine ⟨mem_entries.mpr ⟨hroot, rfl⟩, fun e he => ?_⟩
  obtain ⟨hmem, hvalue⟩ := mem_entries.mp he
  obtain ⟨hlt, -, hbase⟩ := h.sifted.places.place_of e.1 hmem
  have hmax := h.sifted.ordered.root hlt
  rw [Heap.value, Heap.value, hbase, hvalue] at hmax
  simpa [Heap.top, Heap.value] using hmax

theorem push_spec (h : Inv m_compare d s) (hp : p ∉ s.m_nodes) :
    Inv m_compare d (s.push m_compare d p value) ∧
      (s.push m_compare d p value).entries = s.entries.push p value := by
  have hplaces := (h.sifted.places.grow.mark hp)
  have hbase : ∀ i, i < s.size → s.base i ≠ p := by
    rintro i hi rfl
    exact hp (h.sifted.places.at_place i hi (Nat.ne_of_lt hi)).1
  -- the state before `siftup`
  let s₁ : Heap α T :=
    { m_nodes := s.m_nodes ++ [p]
      m_index := Function.update s.m_index p s.size
      m_value := Function.update s.m_value p value
      base := Function.update s.base s.size p
      size := s.size + 1 }
  have hvalue : ∀ i, i < s.size + 1 → i ≠ s.size → s₁.value i = s.value i := by
    intro i hi hne
    show Function.update s.m_value p value (Function.update s.base s.size p i) = _
    rw [Function.update_of_ne hne, Function.update_of_ne (hbase i (by omega))]
    rfl
  have hs : Sifting m_compare d s₁ (s.size + 1) s.size {p | p ∈ s.m_nodes} :=
    ⟨hplaces, h.sifted.ordered.grow.congr hvalue (Nat.lt_succ_self _)⟩
  have h₁ := siftup_spec hs (Nat.lt_succ_self _) hp above_last (Function.update_self ..)
    (Function.update_self ..)
  have hmoves : Moves s₁ (s₁.siftup m_compare d s.size p) := moves_siftup ..
  have hpush : s.push m_compare d p value = s₁.siftup m_compare d s.size p := rfl
  rw [hpush]
  have hnodes : {q | q ∈ (s₁.siftup m_compare d s.size p).m_nodes} =
      insert p {q | q ∈ s.m_nodes} := by
    rw [hmoves.m_nodes]
    ext q
    simp [s₁, or_comm]
  refine ⟨⟨?_, ?_⟩, ?_⟩
  · rw [hmoves.m_nodes]
    exact h.nodup.append (List.nodup_singleton p) (List.disjoint_singleton.mpr hp)
  · rw [hnodes, hmoves.size]
    exact h₁
  · rw [Heap.entries, hmoves.m_nodes, hmoves.m_value]
    exact entries_push hp s.m_value value

theorem pop_spec [NeZero d] (h : Inv m_compare d s) (hpos : 0 < s.size) :
    Inv m_compare d (s.pop m_compare d) ∧
      (s.pop m_compare d).entries = s.entries.remove (s.base 0) := by
  have hs : Sifting m_compare d s s.size 0 ({p | p ∈ s.m_nodes} \ {s.base 0}) :=
    ⟨h.sifted.places.take hpos, h.sifted.ordered.hole hpos⟩
  obtain ⟨hs₁, hmoves₁, hlt₁, hlast₁⟩ := pop_loop_spec hs hpos
  let r := s.pop_loop m_compare d 0
  let t : Heap α T × Nat :=
    if r.2 * d + d + 1 - d < s.size then
      (r.1.assign r.2 (r.1.base (r.1.rest_max m_compare (r.2 * d + d + 1 - d))),
        r.1.rest_max m_compare (r.2 * d + d + 1 - d))
    else (r.1, r.2)
  obtain ⟨hs₂, hmoves₂, hlt₂, hleaf⟩ := leaf_spec hmoves₁.size hs₁ hlt₁ hlast₁
  let s₃ := if t.2 ≠ s.size - 1 then
    (t.1.assign t.2 (t.1.base (s.size - 1))).siftup m_compare d t.2 (t.1.base (s.size - 1))
    else t.1
  have hpop : s.pop m_compare d =
      { s₃ with m_nodes := s₃.m_nodes.erase (s.base 0), size := s₃.size - 1 } := rfl
  obtain ⟨h₃, hmoves₃⟩ := last_spec hs₂ hlt₂ fun i hi hin hp =>
    absurd hp (hleaf i hi (Nat.lt_of_lt_of_le hin (Nat.sub_le ..)))
  have hmoves : Moves s s₃ := (hmoves₁.trans hmoves₂).trans hmoves₃
  have hnodes : {p | p ∈ s₃.m_nodes.erase (s.base 0)} = {p | p ∈ s.m_nodes} \ {s.base 0} := by
    ext p
    rw [hmoves.m_nodes]
    exact h.nodup.mem_erase_iff.trans and_comm
  rw [hpop]
  refine ⟨⟨?_, ?_⟩, ?_⟩
  · show (s₃.m_nodes.erase (s.base 0)).Nodup
    rw [hmoves.m_nodes]
    exact h.nodup.erase _
  · show Sifted m_compare d _ (s₃.size - 1) {p | p ∈ s₃.m_nodes.erase (s.base 0)}
    rw [hmoves.size, hnodes]
    exact ⟨h₃.places, h₃.ordered⟩
  · show HandleQueue.entries (s₃.m_nodes.erase (s.base 0)) s₃.m_value = _
    rw [hmoves.m_nodes, hmoves.m_value]
    exact entries_remove s.m_nodes s.m_value (s.base 0)

/-- The element whose value is set is taken in hand. -/
theorem sifting_set (h : Inv m_compare d s) (hp : p ∈ s.m_nodes) (value : T) :
    let s₁ : Heap α T := { s with m_value := Function.update s.m_value p value }
    s.m_index p < s.size ∧ s.base (s.m_index p) = p ∧
      Sifting m_compare d s₁ s.size (s.m_index p) ({p | p ∈ s.m_nodes} \ {p}) ∧
      ∀ i, i < s.size → i ≠ s.m_index p → s₁.value i = s.value i := by
  intro s₁
  obtain ⟨hlt, -, hbase⟩ := h.sifted.places.place_of p hp
  have hother : ∀ i, i < s.size → i ≠ s.m_index p → s₁.value i = s.value i := by
    intro i hi hne
    have hib : s.base i ≠ p := by
      rintro rfl
      exact hne (h.sifted.places.at_place i hi (Nat.ne_of_lt hi)).2.symm
    exact Function.update_of_ne hib ..
  refine ⟨hlt, hbase, ⟨?_, (h.sifted.ordered.hole hlt).congr hother hlt⟩, hother⟩
  have htake := h.sifted.places.take hlt
  rw [hbase] at htake
  exact htake

theorem increase_spec (h : Inv m_compare d s) (hp : p ∈ s.m_nodes)
    (hvalue : m_compare value (s.m_value p) = false) :
    Inv m_compare d (s.increase m_compare d p value) ∧
      (s.increase m_compare d p value).entries = s.entries.set p value := by
  let s₁ : Heap α T := { s with m_value := Function.update s.m_value p value }
  obtain ⟨hlt, hbase, hs, hother⟩ := sifting_set h hp value
  have habove : Above d (m_compare · ·) s.size (s.m_index p) s₁.value (s₁.m_value p) := by
    have hnew : s₁.m_value p = value := Function.update_self ..
    rw [hnew]
    refine Above.congr (h.sifted.ordered.above ?_) hother
    rw [Heap.value, hbase, hvalue]
    exact Bool.false_ne_true
  have h₁ := siftup_spec hs hlt (fun hd => hd.2 (Set.mem_singleton p)) habove hbase rfl
  have hmoves : Moves s₁ (s₁.siftup m_compare d (s.m_index p) p) := moves_siftup ..
  have hmem : p ∈ {p | p ∈ s.m_nodes} := hp
  rw [Set.insert_sdiff_self_of_mem hmem] at h₁
  have hinc : s.increase m_compare d p value = s₁.siftup m_compare d (s.m_index p) p := rfl
  rw [hinc]
  refine ⟨⟨?_, ?_⟩, ?_⟩
  · rw [hmoves.m_nodes]
    exact h.nodup
  · rw [hmoves.m_nodes, hmoves.size]
    exact h₁
  · rw [Heap.entries, hmoves.m_nodes, hmoves.m_value]
    exact entries_set s.m_nodes s.m_value p value

end

end

open DHeapLemmas

/-! ## 3. The queue -/

/-- The queue with handles: `pop` removes a maximum. -/
def queue (α : Type) [DecidableEq α] (m_compare : T → T → Bool) :
    System (Queue α T) (Label α T) where
  init q := q = []
  step q l q' :=
    match l with
    | .push p value => (∀ e ∈ q, e.1 ≠ p) ∧ q' = q.push p value
    | .pop => q.Pops m_compare q'
    | .increase p value => (∃ e ∈ q, e.1 = p ∧ m_compare value e.2 = false) ∧ q' = q.set p value

section

variable {m_compare : T → T → Bool} {d : Nat} [NeZero d] [IsStrictWeakOrder T (m_compare · ·)]

/-- Every operation is the one of the queue. -/
theorem queue_step {s s' : Heap α T} {l : Label α T} (h : Inv m_compare d s)
    (hs : next m_compare d s l = some s') :
    (queue α m_compare).step s.entries l s'.entries ∧ Inv m_compare d s' := by
  cases l with
  | push p value =>
    obtain ⟨hp, hs⟩ := Option.ite_none_right_eq_some.mp hs
    cases hs
    obtain ⟨hinv, he⟩ := push_spec h hp
    refine ⟨⟨fun e hmem hep => hp ?_, he⟩, hinv⟩
    exact hep ▸ (mem_entries.mp hmem).1
  | pop =>
    obtain ⟨hne, hs⟩ := Option.ite_none_right_eq_some.mp hs
    cases hs
    have hpos := size_pos h hne
    obtain ⟨hinv, he⟩ := pop_spec h hpos
    exact ⟨⟨_, top_max h hpos, he⟩, hinv⟩
  | increase p value =>
    obtain ⟨⟨hp, hvalue⟩, hs⟩ := Option.ite_none_right_eq_some.mp hs
    cases hs
    obtain ⟨hinv, he⟩ := increase_spec h hp hvalue
    exact ⟨⟨⟨(p, s.m_value p), mem_entries.mpr ⟨hp, rfl⟩, rfl, hvalue⟩, he⟩, hinv⟩

omit [IsStrictWeakOrder T (m_compare · ·)] in
theorem inv_initial {s : Heap α T} (h : (system α m_compare d).init s) :
    Inv m_compare d s ∧ s.entries = [] := by
  obtain ⟨hnodes, hsize⟩ := h
  refine ⟨⟨hnodes ▸ .nil, ?_, ?_⟩, by rw [Heap.entries, hnodes]; rfl⟩
  · have hnone : {p | p ∈ s.m_nodes} = (∅ : Set α) := by simp [hnodes]
    rw [hsize, hnone]
    exact .empty
  · intro i _ hi
    rw [hsize] at hi
    exact absurd hi (Nat.not_lt_zero i)

/-- After every run no child is greater than its parent, every node knows its place, and
the operations were those of a queue with handles that holds the same values, of which
`top()` is a maximum. -/
theorem refines_queue {s₀ s : Heap α T} {tr : List (Label α T)}
    (h₀ : (system α m_compare d).init s₀) (h : Run (system α m_compare d) s₀ tr s) :
    (∀ i, 0 < i → i < s.size → m_compare (s.value ((i - 1) / d)) (s.value i) = false) ∧
    (∀ i, i < s.size → s.base i ∈ s.m_nodes ∧ s.m_index (s.base i) = i) ∧
    (∀ p ∈ s.m_nodes, s.m_index p < s.size ∧ s.base (s.m_index p) = p) ∧
    Run (queue α m_compare) [] tr s.entries ∧
    ((List.range s.size).map s.value).Perm (s.entries.map Prod.snd) ∧
    (s.m_nodes ≠ [] → s.entries.IsMax m_compare (s.base 0, s.top)) := by
  obtain ⟨hinv₀, hentries₀⟩ := inv_initial h₀
  have hqueue : ∃ q, Run (queue α m_compare) [] tr q ∧ q = s.entries ∧ Inv m_compare d s := by
    refine h.simulate (R := fun q s => q = s.entries ∧ Inv m_compare d s)
      ⟨hentries₀.symm, hinv₀⟩ ?_
    rintro q s l s' ⟨rfl, hi⟩ hs
    obtain ⟨hq, hi'⟩ := queue_step hi hs
    exact ⟨_, hq, rfl, hi'⟩
  obtain ⟨q, hrun, rfl, hinv⟩ := hqueue
  refine ⟨fun i hi hin => ?_, fun i hi => hinv.sifted.places.at_place i hi (Nat.ne_of_lt hi),
    fun p hp => ?_, hrun, ?_, fun hne => top_max hinv (size_pos hinv hne)⟩
  · exact Bool.eq_false_iff.mpr (hinv.sifted.ordered i hi hin)
  · obtain ⟨hlt, -, he⟩ := hinv.sifted.places.place_of p hp
    exact ⟨hlt, he⟩
  · have hperm := (hinv.sifted.places.perm hinv.nodup).map s.m_value
    rw [List.map_map] at hperm
    have hvalues : s.entries.map Prod.snd = s.m_nodes.map s.m_value := by
      rw [Heap.entries, HandleQueue.entries, List.map_map]
      rfl
    rw [hvalues]
    exact hperm

/-- Three elements, of which the first is increased and popped. -/
def exThree : List (Label Nat Nat) :=
  [.push 0 3, .push 1 5, .push 2 4, .increase 0 9, .pop]

theorem refines_queue_example : ∃ s, Run (system Nat (fun x y => decide (x < y)) 3)
    ⟨[], id, id, id, 0⟩ exThree s ∧ Run (queue Nat fun x y => decide (x < y)) [] exThree s.entries := by
  let lt : Nat → Nat → Bool := fun x y => decide (x < y)
  have push : ∀ (s : Heap Nat Nat) p x, p ∉ s.m_nodes →
      (system Nat lt 3).step s (.push p x) (s.push lt 3 p x) := fun _ _ _ h => if_pos h
  have increase : ∀ (s : Heap Nat Nat) p x, p ∈ s.m_nodes ∧ lt x (s.m_value p) = false →
      (system Nat lt 3).step s (.increase p x) (s.increase lt 3 p x) := fun _ _ _ h => if_pos h
  have pop : ∀ s : Heap Nat Nat, s.m_nodes ≠ [] →
      (system Nat lt 3).step s .pop (s.pop lt 3) := fun _ h => if_pos h
  have hrun : ∃ s, Run (system Nat lt 3) ⟨[], id, id, id, 0⟩ exThree s := by
    refine ⟨_, .cons (push _ _ _ ?_) <| .cons (push _ _ _ ?_) <| .cons (push _ _ _ ?_) <|
      .cons (increase _ _ _ ?_) <| .single (pop _ ?_)⟩
    all_goals simp [Heap.push, Heap.increase, (moves_siftup _ _ _).m_nodes,
      (moves_siftup _ _ _).m_value, lt]
  obtain ⟨s, hrun⟩ := hrun
  exact ⟨s, hrun, (refines_queue ⟨rfl, rfl⟩ hrun).2.2.2.1⟩

end

end Kuhllib.DHeap
