import Kuhllib.Cxxrt.DefaultAllocChunks
import Kuhllib.Lib.Transition

/-!
# Programs that use `__default_alloc_template`

A program allocates, writes, reallocates and deallocates objects in any order. `live` are
the objects it has, with the sizes it asked for, and `known` is what it has written to
them: `reallocate` carries this over to the new object, everything else leaves it alone.
`chunks` is what `malloc` gave for the lists; what it gave for large objects is among
`live`.

Results:
1. `objects_apart`: the objects do not overlap, and the allocator writes to none of them.
2. `nothing_lost`: each byte of the chunks is in one object, in one list or in the rest.
3. `contents_kept`: what was written is still there.
4. `allocate_refused`: when `bad_alloc` is thrown.
-/

namespace Kuhllib.DefaultAlloc

open Regions ByteMemory

structure State where
  heap : Heap
  chunks : List Region
  live : List Region
  known : ℕ → Option UInt8

inductive Action
  | allocate (n : ℕ) (answers : List ℕ)
  | deallocate (p n : ℕ)
  | reallocate (p old_sz new_sz : ℕ) (answers : List ℕ)
  | write (a : ℕ) (b : UInt8)

/-- The memory of an object is what was asked for, or what the lists have in its place. -/
def object (r : Region) : Region :=
  if MAX_BYTES < r.size then r else ⟨r.base, round_up r.size⟩

def small (live : List Region) : Multiset ℕ :=
  spread ((live.filter fun r => r.size ≤ MAX_BYTES).map object)

def large (live : List Region) : Multiset ℕ :=
  spread (live.filter fun r => MAX_BYTES < r.size)

namespace State

def allocated (s : State) (n : ℕ) (o : Outcome ℕ) : State where
  heap := o.heap
  chunks := if MAX_BYTES < n then s.chunks else s.chunks ++ o.got
  live := match o.value with
    | some p => ⟨p, n⟩ :: s.live
    | none => s.live
  known := s.known

def deallocated (s : State) (p n : ℕ) : State where
  heap := deallocate s.heap p n
  chunks := s.chunks
  live := s.live.erase ⟨p, n⟩
  known a := if a ∈ (Region.mk p n).bytes then none else s.known a

/-- A null pointer leaves the old object as it was. -/
def reallocated (s : State) (p old_sz new_sz : ℕ) (o : Outcome ℕ) : State where
  heap := o.heap
  chunks := if MAX_BYTES < new_sz then s.chunks else s.chunks ++ o.got
  live := match o.value with
    | some q => if q = 0 then s.live else ⟨q, new_sz⟩ :: s.live.erase ⟨p, old_sz⟩
    | none => s.live
  known a := match o.value with
    | some q =>
      if q = 0 then s.known a
      else if a ∈ (Region.mk q new_sz).bytes then
        if a < q + min old_sz new_sz then s.known (p + (a - q)) else none
      else if a ∈ (Region.mk p old_sz).bytes then none
      else s.known a
    | none => s.known a

def written (s : State) (a : ℕ) (b : UInt8) : State :=
  { s with
    heap := { s.heap with memory := Function.update s.heap.memory a b }
    known := Function.update s.known a (some b) }

end State

/-- `malloc` gives memory that it has not given before, or that came back. `realloc` may give
the memory of the old object. -/
inductive Step : State → Action → State → Prop
  | allocate {s : State} {n : ℕ} {answers : List ℕ} {o : Outcome ℕ} (hpos : 0 < n)
      (hmax : n < 2 ^ 64) (hcall : allocate s.heap n answers = some o) (hgot : Given o.got)
      (hapart : (spread s.chunks + large s.live + spread o.got).Nodup) :
      Step s (.allocate n answers) (s.allocated n o)
  | deallocate {s : State} {p n : ℕ} (hlive : ⟨p, n⟩ ∈ s.live) :
      Step s (.deallocate p n) (s.deallocated p n)
  | reallocate {s : State} {p old_sz new_sz : ℕ} {answers : List ℕ} {o : Outcome ℕ}
      (hlive : ⟨p, old_sz⟩ ∈ s.live) (hpos : 0 < new_sz) (hmax : new_sz < 2 ^ 64)
      (hcall : reallocate s.heap p old_sz new_sz answers = some o) (hgot : Given o.got)
      (hapart : (spread s.chunks +
        large (if MAX_BYTES < old_sz ∧ MAX_BYTES < new_sz then s.live.erase ⟨p, old_sz⟩
          else s.live) + spread o.got).Nodup) :
      Step s (.reallocate p old_sz new_sz answers) (s.reallocated p old_sz new_sz o)
  | write {s : State} {r : Region} {a : ℕ} (b : UInt8) (hlive : r ∈ s.live) (ha : a ∈ r.bytes) :
      Step s (.write a b) (s.written a b)

def start (m : Memory) : State :=
  { heap := ⟨m, fun _ => 0, 0, 0, 0⟩, chunks := [], live := [], known := fun _ => none }

def system : Transition.System State Action where
  init s := ∃ m, s = start m
  step := Step

/-! ## Objects -/

theorem spread_objects (live : List Region) :
    spread (live.map object) = small live + large live := by
  induction live with
  | nil => rfl
  | cons r live ih =>
    rw [List.map_cons, spread_cons, ih, small, small, large, large, List.filter_cons,
      List.filter_cons]
    by_cases h : MAX_BYTES < r.size
    · simp [h, Nat.not_le.mpr h, object, add_left_comm]
    · simp [h, Nat.not_lt.mp h, add_assoc]

theorem small_cons {p n : ℕ} (live : List Region) (h : n ≤ MAX_BYTES) :
    small (⟨p, n⟩ :: live) = (Region.mk p (round_up n)).bytes + small live := by
  simp [small, h, object, Nat.not_lt.mpr h]

theorem small_cons_of_lt {r : Region} (live : List Region) (h : MAX_BYTES < r.size) :
    small (r :: live) = small live := by
  simp [small, Nat.not_le.mpr h]

theorem large_cons {r : Region} (live : List Region) (h : MAX_BYTES < r.size) :
    large (r :: live) = r.bytes + large live := by
  simp [large, h]

theorem large_cons_of_le {r : Region} (live : List Region) (h : r.size ≤ MAX_BYTES) :
    large (r :: live) = large live := by
  simp [large, Nat.not_lt.mpr h]

theorem small_perm {l l' : List Region} (h : l.Perm l') : small l = small l' :=
  spread_perm ((h.filter _).map _)

theorem large_perm {l l' : List Region} (h : l.Perm l') : large l = large l' :=
  spread_perm (h.filter _)

structure Inv (s : State) (free : List Region) : Prop where
  holds : Holds s.heap free
  bytes : small s.live + s.heap.owned free = spread s.chunks
  apart : (spread s.chunks + large s.live).Nodup
  addresses : ∀ a ∈ spread s.chunks + large s.live, 0 < a ∧ a < 2 ^ 64
  sized : ∀ r ∈ s.live, 0 < r.size ∧ 8 ∣ r.base
  heap_size : s.heap.heap_size = total s.chunks
  known : ∀ a b, s.known a = some b → s.heap.memory a = b ∧ ∃ r ∈ s.live, a ∈ r.bytes

section

variable {s : State} {free : List Region} {r : Region} {a : ℕ}

/-- The three kinds of bytes that are in use. -/
theorem Inv.kinds (h : Inv s free) :
    (spread (s.live.map object) + s.heap.owned free).Nodup := by
  rw [spread_objects, add_right_comm, h.bytes]
  exact h.apart

theorem Inv.object_address (h : Inv s free) (hr : r ∈ s.live) (ha : a ∈ (object r).bytes) :
    0 < a ∧ a < 2 ^ 64 := by
  refine h.addresses a ?_
  rw [← h.bytes, add_right_comm, ← spread_objects]
  exact Multiset.mem_add.mpr (.inl (mem_spread.mpr ⟨_, List.mem_map_of_mem hr, ha⟩))

theorem Inv.disjoint_owned (h : Inv s free) (hr : r ∈ s.live) :
    Disjoint (object r).bytes (s.heap.owned free) := by
  have hkinds := h.kinds
  rw [Multiset.nodup_add, Multiset.disjoint_left] at hkinds
  rw [Multiset.disjoint_left]
  exact fun ha => hkinds.2.2 (mem_spread.mpr ⟨_, List.mem_map_of_mem hr, ha⟩)

theorem mem_object (ha : a ∈ r.bytes) : a ∈ (object r).bytes := by
  unfold object
  split
  · exact ha
  · rename_i h
    have hround := round_up_bounds (Nat.lt_of_le_of_lt (Nat.not_lt.mp h) (by decide))
    rw [Region.mem_bytes] at ha ⊢
    simp only
    omega

theorem Inv.disjoint_objects {r' : Region} (h : Inv s free) (hr : r ∈ s.live)
    (hr' : r' ∈ s.live.erase r) : Disjoint (object r).bytes (object r').bytes := by
  have hkinds := (Multiset.nodup_add.mp h.kinds).1
  rw [spread_perm ((List.perm_cons_erase hr).map object), List.map_cons, spread_cons,
    Multiset.nodup_add, Multiset.disjoint_left] at hkinds
  rw [Multiset.disjoint_left]
  exact fun ha hb => hkinds.2.2 ha (mem_spread.mpr ⟨_, List.mem_map_of_mem hr', hb⟩)

/-- What is given by `malloc` is no part of an object. -/
theorem Inv.not_given {got : List Region} (h : Inv s free)
    (hapart : (spread s.chunks + large s.live + spread got).Nodup) (hr : r ∈ s.live)
    (ha : a ∈ (object r).bytes) : a ∉ spread got := by
  rw [← h.bytes, add_right_comm (small s.live), ← spread_objects, Multiset.nodup_add,
    Multiset.disjoint_left] at hapart
  exact hapart.2.2 (Multiset.mem_add.mpr (.inl (mem_spread.mpr ⟨_, List.mem_map_of_mem hr, ha⟩)))

/-- `allocate` for an object of `malloc`. -/
theorem Inv.allocated_large {n : ℕ} {answers : List ℕ} {o : Outcome ℕ} (h : Inv s free)
    (hn : MAX_BYTES < n) (hcall : allocate s.heap n answers = some o) (hgot : Given o.got)
    (hapart : (spread s.chunks + large s.live + spread o.got).Nodup) :
    Inv (s.allocated n o) free ∧ o.heap = s.heap := by
  rw [allocate, if_pos hn] at hcall
  cases hm : malloc_allocate answers with
  | none =>
    rw [hm] at hcall
    cases hcall
    refine ⟨?_, rfl⟩
    simp only [State.allocated, if_pos hn]
    exact ⟨h.holds, h.bytes, h.apart, h.addresses, h.sized, h.heap_size, h.known⟩
  | some c =>
    rw [hm] at hcall
    cases hcall
    obtain ⟨haligned, haddr⟩ := hgot _ (List.mem_singleton_self _)
    have hpos : 0 < n := Nat.zero_lt_of_lt hn
    have hlarge : large (⟨c.1, n⟩ :: s.live) = large s.live + spread [⟨c.1, n⟩] := by
      rw [large_cons s.live hn, spread_cons, spread_nil, add_zero, add_comm]
    refine ⟨?_, rfl⟩
    simp only [State.allocated, if_pos hn]
    refine ⟨h.holds, ?_, ?_, fun a ha => ?_, List.forall_mem_cons.mpr ⟨⟨hpos, haligned⟩, h.sized⟩,
      h.heap_size, fun a b hk => ?_⟩
    · simp only
      rw [small_cons_of_lt s.live hn, h.bytes]
    · simp only
      rw [hlarge, ← add_assoc]
      exact hapart
    · simp only at ha
      rw [hlarge, ← add_assoc, Multiset.mem_add] at ha
      obtain ha | ha := ha
      · exact h.addresses a ha
      · exact haddr a (by simpa using ha)
    · obtain ⟨hmem, r, hr, ha⟩ := h.known a b hk
      exact ⟨hmem, r, List.mem_cons_of_mem _ hr, ha⟩

/-- `allocate` for an object of a list. -/
theorem Inv.allocated_small {n : ℕ} {answers : List ℕ} {o : Outcome ℕ} (h : Inv s free)
    (hpos : 0 < n) (hn : n ≤ MAX_BYTES) (hcall : allocate s.heap n answers = some o)
    (hgot : Given o.got) (hapart : (spread s.chunks + large s.live + spread o.got).Nodup) :
    ∃ free', Inv (s.allocated n o) free' ∧
      ∀ r ∈ s.live, ∀ a ∈ (object r).bytes, o.heap.memory a = s.heap.memory a := by
  obtain ⟨o', hcall', hserved, -⟩ := allocate_served h.holds hpos hn answers
  obtain rfl : o = o' := Option.some.inj (hcall.symm.trans hcall')
  have howned : (s.heap.owned free + spread o.got).Nodup := by
    refine Multiset.nodup_of_le ?_ hapart
    rw [add_le_add_iff_right, ← h.bytes, add_right_comm]
    exact Multiset.le_add_left _ _
  obtain ⟨free', hs, haligned⟩ := hserved hgot howned
  have hframe : ∀ r ∈ s.live, ∀ a ∈ (object r).bytes, o.heap.memory a = s.heap.memory a := by
    intro r hr a ha
    have hnot := Multiset.disjoint_left.mp (h.disjoint_owned hr) ha
    exact hs.frame a hnot (h.not_given hapart hr ha)
  have hsmall : small (s.allocated n o).live =
      (o.value.elim 0 fun p => (Region.mk p (round_up n)).bytes) + small s.live := by
    unfold State.allocated
    cases o.value with
    | none => simp
    | some p => exact small_cons s.live hn
  have hlarge : large (s.allocated n o).live = large s.live := by
    unfold State.allocated
    cases o.value with
    | none => rfl
    | some p => exact large_cons_of_le s.live hn
  have hsub : ∀ r ∈ s.live, r ∈ (s.allocated n o).live := by
    intro r hr
    unfold State.allocated
    cases o.value with
    | none => exact hr
    | some p => exact List.mem_cons_of_mem _ hr
  have hsized : ∀ r ∈ (s.allocated n o).live, 0 < r.size ∧ 8 ∣ r.base := by
    unfold State.allocated
    cases hv : o.value with
    | none => exact h.sized
    | some p => exact List.forall_mem_cons.mpr ⟨⟨hpos, haligned p hv⟩, h.sized⟩
  have hchunks : (s.allocated n o).chunks = s.chunks ++ o.got := if_neg (Nat.not_lt.mpr hn)
  have hspread : spread s.chunks + spread o.got + large s.live =
      spread s.chunks + large s.live + spread o.got := add_right_comm _ _ _
  refine ⟨free', ⟨hs.holds, ?_, ?_, fun a ha => ?_, hsized, ?_, fun a b hk => ?_⟩, hframe⟩
  · rw [hsmall, hchunks, spread_append, ← h.bytes, add_assoc, add_assoc, ← hs.bytes,
      add_left_comm]
    rfl
  · rw [hlarge, hchunks, spread_append, hspread]
    exact hapart
  · rw [hlarge, hchunks, spread_append, hspread, Multiset.mem_add] at ha
    obtain ha | ha := ha
    · exact h.addresses a ha
    · obtain ⟨r, hr, ha⟩ := mem_spread.mp ha
      exact (hgot r hr).2 a ha
  · rw [hchunks, total_append, ← h.heap_size]
    exact hs.heap_size
  · obtain ⟨hmem, r, hr, ha⟩ := h.known a b hk
    exact ⟨(hframe r hr a (mem_object ha)).trans hmem, r, hsub r hr, ha⟩

/-- `allocate` writes to no object. -/
theorem Inv.allocated {n : ℕ} {answers : List ℕ} {o : Outcome ℕ} (h : Inv s free) (hpos : 0 < n)
    (hcall : allocate s.heap n answers = some o) (hgot : Given o.got)
    (hapart : (spread s.chunks + large s.live + spread o.got).Nodup) :
    ∃ free', Inv (s.allocated n o) free' ∧
      ∀ r ∈ s.live, ∀ a ∈ (object r).bytes, o.heap.memory a = s.heap.memory a := by
  obtain hn | hn := Nat.lt_or_ge MAX_BYTES n
  · obtain ⟨hinv, heq⟩ := h.allocated_large hn hcall hgot hapart
    exact ⟨free, hinv, fun _ _ _ _ => by rw [heq]⟩
  · exact h.allocated_small hpos hn hcall hgot hapart

/-- `deallocate` writes to the object only. -/
theorem Inv.deallocated {p n : ℕ} (h : Inv s free) (hlive : ⟨p, n⟩ ∈ s.live) :
    ∃ free', Inv (s.deallocated p n) free' ∧
      ∀ a ∉ (object ⟨p, n⟩).bytes, (deallocate s.heap p n).memory a = s.heap.memory a := by
  have hperm := List.perm_cons_erase hlive
  have hsized : ∀ r ∈ s.live.erase ⟨p, n⟩, 0 < r.size ∧ 8 ∣ r.base := fun r hr =>
    h.sized r (List.mem_of_mem_erase hr)
  have hknown : (∀ a ∉ (object ⟨p, n⟩).bytes,
      (deallocate s.heap p n).memory a = s.heap.memory a) →
      ∀ a b, (s.deallocated p n).known a = some b → (deallocate s.heap p n).memory a = b ∧
        ∃ r ∈ s.live.erase ⟨p, n⟩, a ∈ r.bytes := by
    intro hframe a b hk
    obtain ⟨hnot, hk⟩ := Option.ite_none_left_eq_some.mp hk
    obtain ⟨hmem, r, hr, ha⟩ := h.known a b hk
    have hr' : r ∈ s.live.erase ⟨p, n⟩ :=
      (List.mem_erase_of_ne (by rintro rfl; exact hnot ha)).mpr hr
    have hdisjoint := Multiset.disjoint_right.mp (h.disjoint_objects hlive hr') (mem_object ha)
    exact ⟨(hframe a hdisjoint).trans hmem, r, hr', ha⟩
  obtain hn | hn := Nat.lt_or_ge MAX_BYTES n
  · have hlarge : large s.live = (Region.mk p n).bytes + large (s.live.erase ⟨p, n⟩) := by
      rw [large_perm hperm, large_cons _ hn]
    have hheap : deallocate s.heap p n = s.heap := if_pos hn
    have hapart := h.apart
    rw [hlarge, add_left_comm, Multiset.nodup_add] at hapart
    refine ⟨free, ⟨?_, ?_, hapart.2.1, fun a ha => ?_, hsized, ?_,
      hknown fun _ _ => by rw [hheap]⟩, fun _ _ => by rw [hheap]⟩
    · rw [State.deallocated, hheap]
      exact h.holds
    · rw [State.deallocated, hheap, ← h.bytes, small_perm hperm, small_cons_of_lt _ hn]
    · refine h.addresses a ?_
      rw [hlarge, add_left_comm]
      exact Multiset.mem_add.mpr (.inr ha)
    · rw [State.deallocated, hheap]
      exact h.heap_size
  · have hobject : object ⟨p, n⟩ = ⟨p, round_up n⟩ := if_neg (Nat.not_lt.mpr hn)
    have hlarge : large s.live = large (s.live.erase ⟨p, n⟩) := by
      rw [large_perm hperm, large_cons_of_le _ hn]
    have hsmall : small s.live =
        (Region.mk p (round_up n)).bytes + small (s.live.erase ⟨p, n⟩) := by
      rw [small_perm hperm, small_cons _ hn]
    have hbytes := h.bytes
    rw [hsmall, add_right_comm] at hbytes
    have hapart := (Multiset.nodup_add.mp h.apart).1
    rw [← hbytes, Multiset.nodup_add] at hapart
    have haddr : ∀ a ∈ (Region.mk p (round_up n)).bytes, 0 < a ∧ a < 2 ^ 64 := fun a ha =>
      h.object_address hlive (hobject ▸ ha)
    obtain ⟨hholds, howned, hframe, hsize⟩ := deallocate_holds h.holds (h.sized _ hlive).1 hn
      (h.sized _ hlive).2 haddr hapart.1
    have hframe' := hobject ▸ hframe
    refine ⟨⟨p, round_up n⟩ :: free, ⟨hholds, ?_, ?_, ?_, hsized, hsize.trans h.heap_size,
      hknown hframe'⟩, hframe'⟩
    · rw [State.deallocated, howned, ← hbytes, add_comm]
    · exact hlarge ▸ h.apart
    · exact hlarge ▸ h.addresses

/-- Writing to the memory of the program. -/
theorem Inv.set_memory {m : Memory} {k : ℕ → Option UInt8} (h : Inv s free)
    (hm : ∀ a ∈ s.heap.owned free, m a = s.heap.memory a)
    (hk : ∀ a b, k a = some b → m a = b ∧ ∃ r ∈ s.live, a ∈ r.bytes) :
    Inv { s with heap := { s.heap with memory := m }, known := k } free :=
  ⟨h.holds.congr hm, h.bytes, h.apart, h.addresses, h.sized, h.heap_size, hk⟩

theorem Inv.written (h : Inv s free) (hr : r ∈ s.live) (ha : a ∈ r.bytes) (b : UInt8) :
    Inv (s.written a b) free := by
  have hdisjoint : a ∉ s.heap.owned free :=
    Multiset.disjoint_left.mp (h.disjoint_owned hr) (mem_object ha)
  refine h.set_memory (fun a' ha' => Function.update_of_ne ?_ _ _) fun a' b' hk => ?_
  · rintro rfl
    exact hdisjoint ha'
  · obtain rfl | hne := eq_or_ne a' a
    · rw [Function.update_self] at hk ⊢
      exact ⟨Option.some.inj hk, r, hr, ha⟩
    · rw [Function.update_of_ne hne] at hk ⊢
      exact h.known a' b' hk

/-- What is known of the object at `q` after the first bytes of the one at `p` were copied. -/
def moved (known : ℕ → Option UInt8) (p q n new_sz : ℕ) (a : ℕ) : Option UInt8 :=
  if a ∈ (Region.mk q new_sz).bytes then
    if a < q + n then known (p + (a - q)) else none
  else known a

theorem copy_outside_object {m : Memory} {p q n new_sz : ℕ} (hn : n ≤ new_sz)
    (ha : a ∉ (Region.mk q new_sz).bytes) : copy m q p n a = m a := by
  simp only [Region.mem_bytes] at ha
  exact copy_outside (by omega)

theorem moved_known {m : Memory} {known : ℕ → Option UInt8} {p q n new_sz : ℕ} {b : UInt8}
    (hn : n ≤ new_sz) (hm : ∀ a b, known a = some b → m a = b)
    (hk : moved known p q n new_sz a = some b) :
    copy m q p n a = b ∧ (a ∈ (Region.mk q new_sz).bytes ∨
      a ∉ (Region.mk q new_sz).bytes ∧ known a = some b) := by
  unfold moved at hk
  split at hk
  · rename_i hin
    obtain ⟨hlt, hk⟩ := Option.ite_none_right_eq_some.mp hk
    have hle : q ≤ a := (Region.mem_bytes.mp hin).1
    have hcopy : copy m q p n (q + (a - q)) = m (p + (a - q)) := copy_inside (by omega)
    rw [Nat.add_sub_cancel' hle] at hcopy
    exact ⟨hcopy.trans (hm _ _ hk), .inl hin⟩
  · rename_i hout
    exact ⟨(copy_outside_object hn hout).trans (hm _ _ hk), .inr ⟨hout, hk⟩⟩

theorem reallocated_known {p q old_sz new_sz : ℕ} {heap : Heap} {got : List Region} {b : UInt8}
    (hq : q ≠ 0) (hk : (s.reallocated p old_sz new_sz ⟨some q, heap, got⟩).known a = some b) :
    moved s.known p q (min old_sz new_sz) new_sz a = some b ∧
      (a ∈ (Region.mk q new_sz).bytes ∨ a ∉ (Region.mk p old_sz).bytes) := by
  simp only [State.reallocated, if_neg hq] at hk
  unfold moved
  split at hk
  · rename_i hin
    rw [if_pos hin]
    exact ⟨hk, .inl hin⟩
  · rename_i hout
    obtain ⟨hnot, hk⟩ := Option.ite_none_left_eq_some.mp hk
    rw [if_neg hout]
    exact ⟨hk, .inr hnot⟩

theorem Inv.base_pos (h : Inv s free) (hr : r ∈ s.live) : 0 < r.base := by
  have hmem : r.base ∈ r.bytes :=
    Region.mem_bytes.mpr ⟨le_rfl, Nat.lt_add_of_pos_right (h.sized r hr).1⟩
  exact (h.object_address hr (mem_object hmem)).1

/-- `reallocate` in which `realloc` does the work. -/
theorem Inv.reallocated_large {p q old_sz new_sz : ℕ} (h : Inv s free)
    (hlive : ⟨p, old_sz⟩ ∈ s.live) (hold : MAX_BYTES < old_sz) (hnew : MAX_BYTES < new_sz)
    (hgot : Given [⟨q, new_sz⟩])
    (hapart : (spread s.chunks + large (s.live.erase ⟨p, old_sz⟩) +
      spread [⟨q, new_sz⟩]).Nodup) :
    Inv (s.reallocated p old_sz new_sz
      ⟨some q, { s.heap with memory := copy s.heap.memory q p (min old_sz new_sz) },
        [⟨q, new_sz⟩]⟩) free := by
  obtain ⟨haligned, haddr⟩ := hgot _ (List.mem_singleton_self _)
  have hpos : 0 < new_sz := Nat.zero_lt_of_lt hnew
  have hq : q ≠ 0 :=
    (haddr q (Region.mem_bytes.mpr ⟨le_rfl, Nat.lt_add_of_pos_right hpos⟩)).1.ne'
  have hperm := List.perm_cons_erase hlive
  have hsmall : small s.live = small (⟨q, new_sz⟩ :: s.live.erase ⟨p, old_sz⟩) := by
    rw [small_perm hperm, small_cons_of_lt _ hold, small_cons_of_lt _ hnew]
  have hlarge : large s.live = (Region.mk p old_sz).bytes + large (s.live.erase ⟨p, old_sz⟩) := by
    rw [large_perm hperm, large_cons _ hold]
  have hlarge' : large (⟨q, new_sz⟩ :: s.live.erase ⟨p, old_sz⟩) =
      large (s.live.erase ⟨p, old_sz⟩) + spread [⟨q, new_sz⟩] := by
    rw [large_cons _ hnew, spread_cons, spread_nil, add_zero, add_comm]
  have hle : min old_sz new_sz ≤ new_sz := Nat.min_le_right _ _
  have hout : ∀ a ∈ s.heap.owned free, a ∉ (Region.mk q new_sz).bytes := by
    intro a ha hin
    rw [← h.bytes, Multiset.nodup_add, Multiset.disjoint_left] at hapart
    refine hapart.2.2 ?_ (by simpa using hin)
    simp only [Multiset.mem_add]
    exact .inl (.inr ha)
  have hknown : ∀ a b, (s.reallocated p old_sz new_sz ⟨some q, s.heap, []⟩).known a = some b →
      copy s.heap.memory q p (min old_sz new_sz) a = b ∧
        ∃ r ∈ (⟨q, new_sz⟩ :: s.live.erase ⟨p, old_sz⟩ : List Region), a ∈ r.bytes := by
    intro a b hk
    obtain ⟨hk, hnot⟩ := reallocated_known hq hk
    obtain ⟨hmem, hin⟩ := moved_known hle (fun a b hk => (h.known a b hk).1) hk
    refine ⟨hmem, ?_⟩
    obtain hin | ⟨hout, hk⟩ := hin
    · exact ⟨_, List.mem_cons_self, hin⟩
    · obtain ⟨-, r, hr, ha⟩ := h.known a b hk
      have hne : r ≠ ⟨p, old_sz⟩ := by
        rintro rfl
        exact hnot.resolve_left hout ha
      exact ⟨r, List.mem_cons_of_mem _ ((List.mem_erase_of_ne hne).mpr hr), ha⟩
  simp only [State.reallocated, if_neg hq, if_pos hnew] at hknown ⊢
  refine ⟨h.holds.congr fun a ha => copy_outside_object hle (hout a ha), ?_, ?_, fun a ha => ?_,
    List.forall_mem_cons.mpr ⟨⟨hpos, haligned⟩, fun r hr => h.sized r (List.mem_of_mem_erase hr)⟩,
    h.heap_size, hknown⟩
  · exact (congrArg (· + s.heap.owned free) hsmall.symm).trans h.bytes
  · simp only
    rw [hlarge', ← add_assoc]
    exact hapart
  · simp only at ha
    rw [hlarge', ← add_assoc, Multiset.mem_add] at ha
    obtain ha | ha := ha
    · refine h.addresses a ?_
      rw [hlarge, add_left_comm]
      exact Multiset.mem_add.mpr (.inr ha)
    · exact haddr a (by simpa using ha)

theorem Inv.size_lt (h : Inv s free) (hr : r ∈ s.live) : r.size < 2 ^ 64 := by
  have hpos := (h.sized r hr).1
  have hbase := h.base_pos hr
  have hlast : r.base + r.size - 1 ∈ r.bytes := Region.mem_bytes.mpr (by omega)
  have hbound := (h.object_address hr (mem_object hlast)).2
  omega

/-- `reallocate` of an object that is large enough already. -/
theorem Inv.reallocated_same {p old_sz new_sz : ℕ} (h : Inv s free)
    (hlive : ⟨p, old_sz⟩ ∈ s.live) (hpos : 0 < new_sz) (hmax : new_sz < 2 ^ 64)
    (hnot : ¬(MAX_BYTES < old_sz ∧ MAX_BYTES < new_sz))
    (hround : round_up old_sz = round_up new_sz) :
    Inv (s.reallocated p old_sz new_sz ⟨some p, s.heap, []⟩) free := by
  have hpos' : 0 < old_sz := (h.sized _ hlive).1
  have hold : old_sz ≤ MAX_BYTES := by
    by_contra hlt
    have hnew : new_sz ≤ 128 := Nat.not_lt.mp fun hnew => hnot ⟨Nat.not_le.mp hlt, hnew⟩
    obtain ⟨⟨-, hclass⟩, -⟩ := round_up_class hpos hnew
    have hlarge := round_up_large (Nat.not_le.mp hlt) (h.size_lt hlive)
    omega
  have hnew : new_sz ≤ MAX_BYTES := by
    by_contra hlt
    obtain ⟨⟨-, hclass⟩, -⟩ := round_up_class hpos' hold
    have hlarge := round_up_large (Nat.not_le.mp hlt) hmax
    omega
  have hp : p ≠ 0 := (h.base_pos hlive).ne'
  have hperm := List.perm_cons_erase hlive
  have hsmall : small (⟨p, new_sz⟩ :: s.live.erase ⟨p, old_sz⟩) = small s.live := by
    rw [small_perm hperm, small_cons _ hold, small_cons _ hnew, hround]
  have hlarge : large (⟨p, new_sz⟩ :: s.live.erase ⟨p, old_sz⟩) = large s.live := by
    rw [large_perm hperm, large_cons_of_le (r := ⟨p, old_sz⟩) _ hold,
      large_cons_of_le (r := ⟨p, new_sz⟩) _ hnew]
  have hlive' : (s.reallocated p old_sz new_sz ⟨some p, s.heap, []⟩).live =
      ⟨p, new_sz⟩ :: s.live.erase ⟨p, old_sz⟩ := if_neg hp
  have hchunks : (s.reallocated p old_sz new_sz ⟨some p, s.heap, []⟩).chunks = s.chunks :=
    (if_neg (Nat.not_lt.mpr hnew)).trans (List.append_nil _)
  refine ⟨h.holds, ?_, ?_, ?_, ?_, ?_, fun a b hk => ?_⟩
  · rw [hlive', hchunks, hsmall]
    exact h.bytes
  · rw [hlive', hchunks, hlarge]
    exact h.apart
  · rw [hlive', hchunks, hlarge]
    exact h.addresses
  · rw [hlive']
    exact List.forall_mem_cons.mpr ⟨⟨hpos, (h.sized _ hlive).2⟩,
      fun r hr => h.sized r (List.mem_of_mem_erase hr)⟩
  · rw [hchunks]
    exact h.heap_size
  · rw [hlive']
    obtain ⟨hk, hor⟩ := reallocated_known hp hk
    obtain ⟨hmem, hin⟩ :=
      moved_known (Nat.min_le_right old_sz new_sz) (fun a b hk => (h.known a b hk).1) hk
    rw [copy_self] at hmem
    refine ⟨hmem, ?_⟩
    obtain hin | ⟨hout, hk⟩ := hin
    · exact ⟨_, List.mem_cons_self, hin⟩
    · obtain ⟨-, r, hr, ha⟩ := h.known a b hk
      have hne : r ≠ ⟨p, old_sz⟩ := by
        rintro rfl
        exact hor.resolve_left hout ha
      exact ⟨r, List.mem_cons_of_mem _ ((List.mem_erase_of_ne hne).mpr hr), ha⟩

/-- `reallocate` that allocates a new object. -/
theorem Inv.reallocated_new {p q old_sz new_sz : ℕ} {answers : List ℕ} {heap : Heap}
    {got : List Region} (h : Inv s free) (hlive : ⟨p, old_sz⟩ ∈ s.live) (hpos : 0 < new_sz)
    (hcall : allocate s.heap new_sz answers = some ⟨some q, heap, got⟩) (hgot : Given got)
    (hapart : (spread s.chunks + large s.live + spread got).Nodup) :
    ∃ free', Inv (s.reallocated p old_sz new_sz
      ⟨some q, deallocate { heap with memory := copy heap.memory q p (min old_sz new_sz) } p old_sz,
        got⟩) free' := by
  obtain ⟨free₁, h₁, -⟩ := h.allocated hpos hcall hgot hapart
  have hle : min old_sz new_sz ≤ new_sz := Nat.min_le_right _ _
  have hq : (⟨q, new_sz⟩ : Region) ∈ (s.allocated new_sz ⟨some q, heap, got⟩).live :=
    List.mem_cons_self
  have hp : (⟨p, old_sz⟩ : Region) ∈
      (s.allocated new_sz ⟨some q, heap, got⟩).live.erase ⟨q, new_sz⟩ := by
    rw [State.allocated, List.erase_cons_head]
    exact hlive
  have hdisjoint : ∀ a ∈ (Region.mk q new_sz).bytes, a ∉ (Region.mk p old_sz).bytes :=
    fun a ha hb => Multiset.disjoint_left.mp (h₁.disjoint_objects hq hp) (mem_object ha)
      (mem_object hb)
  -- the new object is filled
  have h₂ := h₁.set_memory (m := copy heap.memory q p (min old_sz new_sz))
    (k := moved s.known p q (min old_sz new_sz) new_sz)
    (fun a ha => copy_outside_object hle fun hin =>
      Multiset.disjoint_left.mp (h₁.disjoint_owned hq) (mem_object hin) ha)
    (fun a b hk => by
      obtain ⟨hmem, hin⟩ := moved_known hle (fun a b hk => (h₁.known a b hk).1) hk
      refine ⟨hmem, ?_⟩
      obtain hin | ⟨-, hk⟩ := hin
      · exact ⟨_, hq, hin⟩
      · exact (h₁.known a b hk).2)
  -- the old one comes back
  obtain ⟨free₃, h₃, -⟩ := h₂.deallocated (List.mem_of_mem_erase hp)
  refine ⟨free₃, ?_⟩
  have hq' : q ≠ 0 := (h₁.base_pos hq).ne'
  have hne : ¬(⟨q, new_sz⟩ : Region) = ⟨p, old_sz⟩ := by
    intro heq
    have hmem : q ∈ (Region.mk q new_sz).bytes :=
      Region.mem_bytes.mpr ⟨le_rfl, Nat.lt_add_of_pos_right hpos⟩
    exact hdisjoint q hmem (heq ▸ hmem)
  convert h₃ using 1
  simp only [State.reallocated, State.deallocated, State.allocated, if_neg hq', moved]
  congr 1
  · rw [List.erase_cons_tail (by simpa using hne)]
  · funext a
    by_cases ha : a ∈ (Region.mk q new_sz).bytes
    · rw [if_pos ha, if_pos ha, if_neg (hdisjoint a ha)]
    · rw [if_neg ha, if_neg ha]

theorem Inv.reallocated {p old_sz new_sz : ℕ} {answers : List ℕ} {o : Outcome ℕ}
    (h : Inv s free) (hlive : ⟨p, old_sz⟩ ∈ s.live) (hpos : 0 < new_sz) (hmax : new_sz < 2 ^ 64)
    (hcall : reallocate s.heap p old_sz new_sz answers = some o) (hgot : Given o.got)
    (hapart : (spread s.chunks +
      large (if MAX_BYTES < old_sz ∧ MAX_BYTES < new_sz then s.live.erase ⟨p, old_sz⟩
        else s.live) + spread o.got).Nodup) :
    ∃ free', Inv (s.reallocated p old_sz new_sz o) free' := by
  unfold reallocate at hcall
  split at hcall
  · rename_i hboth
    rw [if_pos hboth] at hapart
    simp only at hcall
    split at hcall
    · cases hcall
      refine ⟨free, ?_⟩
      simp only [State.reallocated, if_pos hboth.2, if_pos]
      exact h
    · cases hcall
      exact ⟨free, h.reallocated_large hlive hboth.1 hboth.2 hgot hapart⟩
  · rename_i hboth
    rw [if_neg hboth] at hapart
    split at hcall
    · rename_i hround
      cases hcall
      exact ⟨free, h.reallocated_same hlive hpos hmax hboth hround⟩
    · obtain ⟨⟨value, heap, got⟩, hcall', hrest⟩ := Option.bind_eq_some_iff.mp hcall
      cases value with
      | none =>
        cases hrest
        obtain ⟨free', hinv, -⟩ := h.allocated hpos hcall' hgot hapart
        exact ⟨free', hinv⟩
      | some q =>
        cases hrest
        have hmin : (if old_sz < new_sz then old_sz else new_sz) = min old_sz new_sz := by
          split <;> omega
        rw [hmin]
        exact h.reallocated_new hlive hpos hcall' hgot hapart

end

theorem inv_step {s s' : State} {e : Action} (h : ∃ free, Inv s free) (hs : Step s e s') :
    ∃ free, Inv s' free := by
  obtain ⟨free, h⟩ := h
  cases hs with
  | allocate hpos hmax hcall hgot hapart =>
    obtain ⟨free', h', -⟩ := h.allocated hpos hcall hgot hapart
    exact ⟨free', h'⟩
  | deallocate hlive =>
    obtain ⟨free', h', -⟩ := h.deallocated hlive
    exact ⟨free', h'⟩
  | reallocate hlive hpos hmax hcall hgot hapart =>
    exact h.reallocated hlive hpos hmax hcall hgot hapart
  | write b hr ha => exact ⟨free, h.written hr ha b⟩

theorem inv_start (m : Memory) : Inv (start m) [] := by
  refine ⟨⟨⟨fun i hi => rfl, by simp, by simp⟩, Nat.dvd_zero 8, Nat.dvd_zero 8, le_rfl, ?_, ?_⟩,
    ?_, ?_, ?_, by simp [start], rfl, by simp [start]⟩
  all_goals simp [start, Heap.owned, Heap.rest, small, large]

theorem inv_reachable {s : State} (h : Transition.Reachable system s) : ∃ free, Inv s free := by
  obtain ⟨s₀, tr, ⟨m, rfl⟩, hrun⟩ := h
  exact hrun.invariant_state (I := fun s => ∃ free, Inv s free) ⟨[], inv_start m⟩
    fun _ _ _ => inv_step

/-! ## What programs rely on -/

/-- The first object, after `malloc` has given a chunk at 4096 and the program has written to
it. -/
def firstObject : State :=
  ((start fun _ => 0).allocated 8
    ⟨some 4096, ⟨thread (fun _ => 0) 4104 8 19, Function.update (fun _ => 0) 0 4104, 4256, 4416, 320⟩,
      [⟨4096, 320⟩]⟩).written 4096 7

theorem firstObject_reachable : Transition.Reachable system firstObject := by
  refine ⟨start fun _ => 0, [.allocate 8 [4096], .write 4096 7], ⟨_, rfl⟩, ?_⟩
  refine .snoc (.single (Step.allocate (by decide) (by decide) rfl ?_ ?_))
    (Step.write 7 List.mem_cons_self (by simp))
  · intro r hr
    obtain rfl := List.mem_singleton.mp hr
    refine ⟨⟨512, rfl⟩, fun a ha => ?_⟩
    simp only [Region.mem_bytes] at ha
    omega
  · simpa [start, large] using Region.nodup_bytes _

/-- Objects are aligned, inside of the address space, and do not overlap each other, the
objects in the lists or the rest of the chunk. -/
theorem objects_apart {s : State} (h : Transition.Reachable system s) :
    (∀ r ∈ s.live, 8 ∣ r.base ∧ ∀ a ∈ (object r).bytes, 0 < a ∧ a < 2 ^ 64) ∧
      (s.live.map object).Pairwise (fun r r' => Disjoint r.bytes r'.bytes) ∧
      ∃ free, Lists s.heap.memory s.heap.free_list free ∧
        ∀ r ∈ s.live, Disjoint (object r).bytes (s.heap.owned free) := by
  obtain ⟨free, hinv⟩ := inv_reachable h
  exact ⟨fun r hr => ⟨(hinv.sized r hr).2, fun a ha => hinv.object_address hr ha⟩,
    apart_of_nodup (Multiset.nodup_add.mp hinv.kinds).1, free, hinv.holds.lists,
    fun r hr => hinv.disjoint_owned hr⟩

theorem objects_apart_firstObject :
    (∀ r ∈ firstObject.live, 8 ∣ r.base ∧ ∀ a ∈ (object r).bytes, 0 < a ∧ a < 2 ^ 64) ∧
      (firstObject.live.map object).Pairwise (fun r r' => Disjoint r.bytes r'.bytes) ∧
      ∃ free, Lists firstObject.heap.memory firstObject.heap.free_list free ∧
        ∀ r ∈ firstObject.live, Disjoint (object r).bytes (firstObject.heap.owned free) :=
  objects_apart firstObject_reachable

/-- Each byte that `malloc` gave for the lists is in one object of the program, in one object
of the lists or in the rest of the chunk, and `_S_heap_size` counts them. -/
theorem nothing_lost {s : State} (h : Transition.Reachable system s) :
    ∃ free, Lists s.heap.memory s.heap.free_list free ∧
      small s.live + s.heap.rest.bytes + spread free = spread s.chunks ∧
      (spread s.chunks).Nodup ∧ s.heap.heap_size = total s.chunks ∧ s.heap.heap_size < 2 ^ 64 := by
  obtain ⟨free, hinv⟩ := inv_reachable h
  have hnodup := (Multiset.nodup_add.mp hinv.apart).1
  have haddr : ∀ a ∈ spread s.chunks, 0 < a ∧ a < 2 ^ 64 := fun a ha =>
    hinv.addresses a (Multiset.mem_add.mpr (.inl ha))
  refine ⟨free, hinv.holds.lists, (add_assoc _ _ _).trans hinv.bytes, hnodup, hinv.heap_size, ?_⟩
  rw [hinv.heap_size]
  exact total_lt hnodup haddr (by decide)

theorem nothing_lost_firstObject :
    ∃ free, Lists firstObject.heap.memory firstObject.heap.free_list free ∧
      small firstObject.live + firstObject.heap.rest.bytes + spread free =
        spread firstObject.chunks ∧
      (spread firstObject.chunks).Nodup ∧
      firstObject.heap.heap_size = total firstObject.chunks ∧
      firstObject.heap.heap_size < 2 ^ 64 :=
  nothing_lost firstObject_reachable

/-- What a program has written to its objects is there, whatever it did with other objects. -/
theorem contents_kept {s : State} (h : Transition.Reachable system s) (a : ℕ) (b : UInt8)
    (hk : s.known a = some b) : s.heap.memory a = b ∧ ∃ r ∈ s.live, a ∈ r.bytes := by
  obtain ⟨free, hinv⟩ := inv_reachable h
  exact hinv.known a b hk

theorem contents_kept_firstObject :
    firstObject.heap.memory 4096 = 7 ∧ ∃ r ∈ firstObject.live, 4096 ∈ r.bytes :=
  contents_kept firstObject_reachable 4096 7 rfl

/-- `allocate` comes to an end, and `bad_alloc` is thrown exactly if `malloc` gives nothing, the
rest of the chunk is too small, and so are all objects in the lists. -/
theorem allocate_refused {s : State} (h : Transition.Reachable system s) {n : ℕ} (hpos : 0 < n)
    (hn : n ≤ MAX_BYTES) (answers : List ℕ) :
    ∃ free o, Lists s.heap.memory s.heap.free_list free ∧
      allocate s.heap n answers = some o ∧
      (o.value = none ↔ (∀ p ∈ answers, p = 0) ∧ s.heap.rest.size < round_up n ∧
        ∀ r ∈ free, r.size < round_up n) := by
  obtain ⟨free, hinv⟩ := inv_reachable h
  obtain ⟨o, hcall, -, hrefused⟩ := allocate_served hinv.holds hpos hn answers
  exact ⟨free, o, hinv.holds.lists, hcall, hrefused⟩

theorem allocate_refused_firstObject :
    ∃ free o, Lists firstObject.heap.memory firstObject.heap.free_list free ∧
      allocate firstObject.heap 16 [0, 8192] = some o ∧
      (o.value = none ↔ (∀ p ∈ [0, 8192], p = 0) ∧ firstObject.heap.rest.size < round_up 16 ∧
        ∀ r ∈ free, r.size < round_up 16) :=
  allocate_refused firstObject_reachable (by decide) (by decide) [0, 8192]

end Kuhllib.DefaultAlloc
