import Kuhllib.Cxxrt.DefaultAlloc

/-!
# The chunks of `__default_alloc_template`

Between calls the allocator owns the objects of its lists and the rest of the last chunk.
`Served` says of a call that what it had and what `malloc` gave is what it has now and
what it gave away, byte for byte.

Results:
1. `chunk_alloc_served`: `_S_chunk_alloc` comes to an end, serves the caller, and throws
   exactly if `malloc` gives nothing and no object is large enough.
2. `allocate_served`, `deallocate_holds`: the same for `allocate`, and `deallocate`.
-/

namespace Kuhllib.DefaultAlloc

open Regions ByteMemory

/-! ## Chunks -/

/-- What is left of the last chunk. -/
def Heap.rest (h : Heap) : Region := ⟨h.start_free, h.end_free - h.start_free⟩

def Heap.owned (h : Heap) (free : List Region) : Multiset ℕ := h.rest.bytes + spread free

structure Holds (h : Heap) (free : List Region) : Prop where
  lists : Lists h.memory h.free_list free
  start_aligned : 8 ∣ h.start_free
  end_aligned : 8 ∣ h.end_free
  ordered : h.start_free ≤ h.end_free
  addresses : ∀ a ∈ h.owned free, 0 < a ∧ a < 2 ^ 64
  apart : (h.owned free).Nodup

/-- From `h` to `h'` the allocator was given `got` by `malloc` and gave `taken` away. -/
structure Served (h h' : Heap) (free free' got : List Region) (taken : Multiset ℕ) : Prop where
  holds : Holds h' free'
  bytes : taken + h'.owned free' = h.owned free + spread got
  frame : ∀ a, a ∉ h.owned free → a ∉ spread got → h'.memory a = h.memory a
  heap_size : h'.heap_size = h.heap_size + total got

/-- What `malloc` promises about its memory. -/
def Given (got : List Region) : Prop :=
  ∀ r ∈ got, 8 ∣ r.base ∧ ∀ a ∈ r.bytes, 0 < a ∧ a < 2 ^ 64

theorem Holds.congr {h : Heap} {free : List Region} {m : Memory} (hh : Holds h free)
    (hm : ∀ a ∈ h.owned free, m a = h.memory a) : Holds { h with memory := m } free :=
  { hh with
    lists := hh.lists.congr fun a ha => hm a (Multiset.mem_add.mpr (.inr ha)) }

theorem Holds.aligned_rest {h : Heap} {free : List Region} (hh : Holds h free) :
    8 ∣ h.rest.size :=
  Nat.dvd_sub hh.end_aligned hh.start_aligned

/-- The rest of the chunk loses its first bytes. -/
theorem Holds.advance {h : Heap} {free : List Region} {n : ℕ} (hh : Holds h free) (hn : 8 ∣ n)
    (hle : n ≤ h.rest.size) :
    Served h { h with start_free := h.start_free + n } free free []
      (Region.mk h.start_free n).bytes := by
  have hordered := hh.ordered
  have hbytes : (Region.mk h.start_free n).bytes +
      ({ h with start_free := h.start_free + n } : Heap).owned free = h.owned free := by
    have hsize : h.rest.size = n + (h.end_free - (h.start_free + n)) := by
      simp only [Heap.rest] at hle ⊢
      omega
    rw [Heap.owned, Heap.owned, ← add_assoc]
    congr 1
    rw [show h.rest = ⟨h.start_free, h.rest.size⟩ from rfl, hsize]
    exact (Region.bytes_add _ _ _).symm
  refine ⟨⟨hh.lists, Nat.dvd_add hh.start_aligned hn, hh.end_aligned, ?_, fun a ha => ?_, ?_⟩,
    by simpa using hbytes, fun _ _ _ => rfl, rfl⟩
  · simp only [Heap.rest] at hle ⊢
    omega
  · exact hh.addresses a (hbytes ▸ Multiset.mem_add.mpr (.inr ha))
  · have hapart := hh.apart
    rw [← hbytes, Multiset.nodup_add] at hapart
    exact hapart.2.1

theorem carve_served {h h' : Heap} {free : List Region} {size nobjs p k : ℕ} (hh : Holds h free)
    (hsize : SizeClass size) (hn : 0 < nobjs) (hc : h.carve size nobjs = some (p, k, h')) :
    Served h h' free free [] (Region.mk p (size * k)).bytes ∧ 0 < k ∧ 8 ∣ p := by
  unfold Heap.carve at hc
  simp only at hc
  split at hc
  · rename_i hle
    cases hc
    exact ⟨hh.advance (Dvd.dvd.mul_right hsize.1 _) hle, hn, hh.start_aligned⟩
  · split at hc
    · rename_i hle
      cases hc
      refine ⟨hh.advance (Dvd.dvd.mul_right hsize.1 _) (Nat.mul_div_le _ _), ?_,
        hh.start_aligned⟩
      exact Nat.div_pos hle hsize.2.1
    · cases hc

theorem carve_eq_none {h : Heap} {size nobjs : ℕ} (hn : 0 < nobjs) :
    h.carve size nobjs = none ↔ h.rest.size < size := by
  have hle := Nat.le_mul_of_pos_right size hn
  unfold Heap.carve Heap.rest
  simp only
  split
  · simp only [reduceCtorEq, false_iff, not_lt]
    omega
  · split
    · simpa using by assumption
    · simp only [true_iff]
      omega

/-- The left-over piece becomes an object of a list. -/
theorem stash_lists {h : Heap} {free : List Region} (hh : Holds h free)
    (hle : h.rest.size ≤ 128) :
    ∃ free', Lists h.stash.memory h.stash.free_list free' ∧ spread free' = h.owned free ∧
      (∀ r ∈ free', r ∈ free ∨ r.size = h.rest.size) ∧ (∀ r ∈ free, r ∈ free') ∧
      (∀ a, a ∉ h.owned free → h.stash.memory a = h.memory a) := by
  unfold Heap.stash
  simp only
  split
  · rename_i hpos
    have hpiece : Piece h.rest := ⟨⟨hh.aligned_rest, hpos, hle⟩, hh.start_aligned,
      fun a ha => hh.addresses a (Multiset.mem_add.mpr (.inl ha))⟩
    have hapart : (spread (h.rest :: free)).Nodup := by simpa [Heap.owned] using hh.apart
    refine ⟨h.rest :: free, hh.lists.push hpiece hapart, by simp [Heap.owned],
      fun r hr => ?_, fun r hr => List.mem_cons_of_mem _ hr, fun a ha => ?_⟩
    · obtain rfl | hr := List.mem_cons.mp hr
      · exact .inr rfl
      · exact .inl hr
    · exact store_outside_piece hpiece fun hmem => ha (Multiset.mem_add.mpr (.inl hmem))
  · rename_i hpos
    have hempty : h.rest.bytes = 0 := by
      have hzero : h.rest.size = 0 := Nat.eq_zero_of_not_pos hpos
      rw [← Multiset.card_eq_zero, Region.card_bytes, hzero]
    exact ⟨free, hh.lists, by simp [Heap.owned, hempty], fun r hr => .inl hr, fun r hr => hr,
      fun _ _ => rfl⟩

theorem scan_some {h : Heap} {turns i j : ℕ} (hi : 8 ∣ i) (hscan : h.scan turns i = some j) :
    i ≤ j ∧ j ≤ MAX_BYTES ∧ 8 ∣ j ∧ h.free_list (freelist_index j) ≠ 0 := by
  induction turns generalizing i with
  | zero => cases hscan
  | succ turns ih =>
    rw [Heap.scan] at hscan
    split at hscan
    · rename_i hle
      split at hscan
      · have hrest := ih (Nat.dvd_add hi ⟨1, rfl⟩) hscan
        exact ⟨(Nat.le_add_right _ _).trans hrest.1, hrest.2⟩
      · rename_i hne
        cases hscan
        exact ⟨le_rfl, hle, hi, hne⟩
    · cases hscan

theorem scan_none {h : Heap} {turns i j : ℕ} (hi : 8 ∣ i) (hturns : MAX_BYTES < i + 8 * turns)
    (hscan : h.scan turns i = none) (hij : i ≤ j) (hj : j ≤ MAX_BYTES) (hdvd : 8 ∣ j) :
    h.free_list (freelist_index j) = 0 := by
  induction turns generalizing i with
  | zero => omega
  | succ turns ih =>
    rw [Heap.scan, if_pos (hij.trans hj)] at hscan
    split at hscan
    · rename_i hzero
      obtain rfl | hlt := hij.eq_or_lt
      · exact hzero
      · have hnext : i + 8 ≤ j := by omega
        have hdvd' : 8 ∣ i + 8 := Nat.dvd_add hi (Nat.dvd_refl 8)
        exact ih hdvd' (by omega) hscan hnext
    · cases hscan

theorem Lists.of_rest {h : Heap} {free : List Region} {p n : ℕ}
    (hl : Lists h.memory h.free_list free) (hstart : h.start_free = p) (hend : h.end_free = p + n)
    (hp : 8 ∣ p) (hn : 8 ∣ n) (hapart : ((Region.mk p n).bytes + spread free).Nodup)
    (haddr : ∀ a ∈ (Region.mk p n).bytes, 0 < a ∧ a < 2 ^ 64) :
    Holds h free ∧ h.owned free = (Region.mk p n).bytes + spread free := by
  have howned : h.owned free = (Region.mk p n).bytes + spread free := by
    rw [Heap.owned, Heap.rest, hstart, hend, Nat.add_sub_cancel_left]
  refine ⟨⟨hl, hstart ▸ hp, hend ▸ Nat.dvd_add hp hn, ?_, fun a ha => ?_, howned ▸ hapart⟩,
    howned⟩
  · rw [hstart, hend]
    exact Nat.le_add_right _ _
  · rw [howned, Multiset.mem_add, mem_spread] at ha
    obtain ha | ⟨r, hr, ha⟩ := ha
    · exact haddr a ha
    · exact (hl.objects r hr).addresses a ha

/-- An object from a list takes the place of what was left of the chunk. -/
theorem reuse_holds {h : Heap} {free : List Region} {i : ℕ}
    (hl : Lists h.memory h.free_list free) (hi : SizeClass i)
    (hhead : h.free_list (freelist_index i) ≠ 0) :
    ∃ free', Holds (h.reuse i) free' ∧ (h.reuse i).owned free' = spread free ∧
      (∀ r ∈ free', r ∈ free) ∧ (h.reuse i).rest.size = i := by
  obtain ⟨r, hr, hbase, hindex, hpop⟩ := hl.pop hi.index.1 hhead
  have hpiece := hl.objects r hr
  have hsize : r.size = i := hpiece.sized.index_inj hi hindex
  obtain rfl : r = ⟨h.free_list (freelist_index i), i⟩ := by rw [← hbase, ← hsize]
  have hspread := spread_erase hr
  have hapart := hl.apart
  rw [hspread] at hapart
  have hrest := Lists.of_rest (h := h.reuse i) hpop rfl rfl hpiece.aligned hi.1 hapart
    hpiece.addresses
  refine ⟨free.erase _, hrest.1, hrest.2.trans hspread.symm,
    fun s hs => List.mem_of_mem_erase hs, ?_⟩
  exact Nat.add_sub_cancel_left _ _

/-- What is carved out of what the allocator has after `Served`. -/
theorem Served.trans {h h₁ h₂ : Heap} {free free₁ free₂ got : List Region} {taken : Multiset ℕ}
    (hs : Served h h₁ free free₁ got 0) (hs' : Served h₁ h₂ free₁ free₂ [] taken) :
    Served h h₂ free free₂ got taken := by
  have hbytes := hs.bytes
  have hbytes' := hs'.bytes
  rw [zero_add] at hbytes
  rw [spread_nil, add_zero] at hbytes'
  refine ⟨hs'.holds, hbytes'.trans hbytes, fun a ha hgot => ?_, ?_⟩
  · have hnot : a ∉ h₁.owned free₁ := by
      rw [hbytes, Multiset.mem_add, not_or]
      exact ⟨ha, hgot⟩
    rw [hs'.frame a hnot (by simp), hs.frame a ha hgot]
  · rw [hs'.heap_size, hs.heap_size]
    rfl

theorem stash_heap_size (h : Heap) : h.stash.heap_size = h.heap_size := by
  simp only [Heap.stash]
  split <;> rfl

section

variable {h : Heap} {free : List Region} {size : ℕ}

theorem grow_served {p n : ℕ} (hh : Holds h free) (hle : h.rest.size ≤ 128) (hn : 8 ∣ n)
    (hgot : Given [⟨p, n⟩]) (hapart : (h.owned free + spread [⟨p, n⟩]).Nodup) :
    ∃ free', Served h (h.stash.grow p n) free free' [⟨p, n⟩] 0 ∧
      ∀ r ∈ free', r ∈ free ∨ r.size = h.rest.size := by
  obtain ⟨free', hlists, hspread, hsizes, -, hframe⟩ := stash_lists hh hle
  obtain ⟨hp, haddr⟩ := hgot _ (List.mem_singleton_self _)
  rw [← hspread, spread_cons, spread_nil, add_zero, add_comm] at hapart
  have hrest := Lists.of_rest (h := h.stash.grow p n) (p := p) hlists rfl rfl hp hn hapart haddr
  refine ⟨free', ⟨hrest.1, ?_, fun a ha _ => hframe a ha, ?_⟩, hsizes⟩
  · rw [zero_add, hrest.2, hspread, spread_cons, spread_nil, add_zero, add_comm]
  · rw [Heap.grow, stash_heap_size, total_cons]
    rfl

theorem reuse_served {i : ℕ} (hh : Holds h free) (hle : h.rest.size ≤ 128) (hi : SizeClass i)
    (hhead : h.stash.free_list (freelist_index i) ≠ 0) :
    ∃ free', Served h (h.stash.reuse i) free free' [] 0 ∧
      (∀ r ∈ free', r ∈ free ∨ r.size = h.rest.size) ∧ (h.stash.reuse i).rest.size = i := by
  obtain ⟨free₁, hlists, hspread, hsizes, -, hframe⟩ := stash_lists hh hle
  obtain ⟨free₂, hholds, howned, hsub, hsize⟩ := reuse_holds hlists hi hhead
  refine ⟨free₂, ⟨hholds, ?_, fun a ha _ => hframe a ha, stash_heap_size h⟩,
    fun r hr => hsizes r (hsub r hr), hsize⟩
  rw [zero_add, howned, hspread, spread_nil, add_zero]

theorem lost_served (hh : Holds h free) (hle : h.rest.size ≤ 128) :
    ∃ free', Served h { h.stash with start_free := 0, end_free := 0 } free free' [] 0 ∧
      (∀ r ∈ free', r ∈ free ∨ r.size = h.rest.size) := by
  obtain ⟨free', hlists, hspread, hsizes, -, hframe⟩ := stash_lists hh hle
  have hapart : ((Region.mk 0 0).bytes + spread free').Nodup := by
    rw [Region.bytes_empty, zero_add, hspread]
    exact hh.apart
  have hrest := Lists.of_rest (h := { h.stash with start_free := 0, end_free := 0 }) hlists rfl rfl
    (Nat.dvd_zero 8) (Nat.dvd_zero 8) hapart (by simp)
  refine ⟨free', ⟨hrest.1, ?_, fun a ha _ => hframe a ha, stash_heap_size h⟩, hsizes⟩
  rw [zero_add, hrest.2, Region.bytes_empty, zero_add, hspread, spread_nil, add_zero]

end

/-- A call that is served by what is left of the chunk. -/
theorem chunk_alloc_carved {h : Heap} {size nobjs : ℕ} (hn : 0 < nobjs)
    (hle : size ≤ h.rest.size) :
    ∃ p k h', h.carve size nobjs = some (p, k, h') ∧ ∀ calls answers,
      chunk_alloc (calls + 1) h size nobjs answers = some ⟨some (p, k), h', []⟩ := by
  cases hc : h.carve size nobjs with
  | none => exact absurd ((carve_eq_none hn).mp hc) (Nat.not_lt.mpr hle)
  | some o =>
    obtain ⟨p, k, h'⟩ := o
    refine ⟨p, k, h', rfl, fun calls answers => ?_⟩
    rw [chunk_alloc, hc]

def taken (size : ℕ) : Option (ℕ × ℕ) → Multiset ℕ
  | some (p, k) => (Region.mk p (size * k)).bytes
  | none => 0

/-- There is no memory for an object of `n` bytes. -/
def Exhausted (h : Heap) (free : List Region) (n : ℕ) (answers : List ℕ) : Prop :=
  (∀ p ∈ answers, p = 0) ∧ h.rest.size < n ∧ ∀ r ∈ free, r.size < n

/-- What `_S_chunk_alloc` does for a list that is empty. -/
structure ChunkServed (h : Heap) (free : List Region) (size : ℕ) (answers : List ℕ)
    (o : Outcome (ℕ × ℕ)) : Prop where
  served : Given o.got → (h.owned free + spread o.got).Nodup →
    ∃ free', Served h o.heap free free' o.got (taken size o.value) ∧
      (∀ r ∈ free', r.size ≠ size) ∧ ∀ p k, o.value = some (p, k) → 0 < k ∧ 8 ∣ p
  refused : o.value = none ↔ Exhausted h free size answers

theorem chunk_alloc_served {h : Heap} {free : List Region} {size nobjs : ℕ} (hh : Holds h free)
    (hsize : SizeClass size) (hn : 0 < nobjs) (hempty : ∀ r ∈ free, r.size ≠ size)
    (answers : List ℕ) :
    ∃ o, chunk_alloc 2 h size nobjs answers = some o ∧
      ChunkServed h free size answers o := by
  obtain hfit | hshort := Nat.lt_or_ge h.rest.size size |>.symm
  · -- the rest of the chunk is enough
    obtain ⟨p, k, h', hcarve, hcall⟩ := chunk_alloc_carved hn hfit
    refine ⟨_, hcall 1 answers, ⟨fun _ _ => ?_, ⟨nofun, fun hex => ?_⟩⟩⟩
    · obtain ⟨hserved, hk, hp⟩ := carve_served hh hsize hn hcarve
      exact ⟨free, hserved, hempty, fun _ _ heq => by cases heq; exact ⟨hk, hp⟩⟩
    · exact absurd hex.2.1 (Nat.not_lt.mpr hfit)
  have hcarve := (carve_eq_none hn).mpr hshort
  have hle : h.rest.size ≤ 128 := hshort.le.trans hsize.2.2
  have hother : ∀ free' : List Region, (∀ r ∈ free', r ∈ free ∨ r.size = h.rest.size) →
      ∀ r ∈ free', r.size ≠ size := by
    intro free' hsizes r hr
    obtain hr | hr := hsizes r hr
    · exact hempty r hr
    · exact hr ▸ hshort.ne
  -- what follows when `malloc` has given the memory
  have hgrow : ∀ p n rest, (¬∀ p ∈ answers, p = 0) → size ≤ n → 8 ∣ n → ∃ o,
      (chunk_alloc 1 (h.stash.grow p n) size nobjs rest).map
        (fun o => { o with got := ⟨p, n⟩ :: o.got }) = some o ∧
      ChunkServed h free size answers o := by
    intro p n rest hne hle' hdvd
    have hrest : (h.stash.grow p n).rest.size = n := Nat.add_sub_cancel_left p n
    obtain ⟨q, k, h', hcarve', hcall⟩ :=
      chunk_alloc_carved (h := h.stash.grow p n) hn (hrest ▸ hle')
    refine ⟨⟨some (q, k), h', [⟨p, n⟩]⟩, by rw [hcall]; rfl,
      ⟨fun hgot hapart => ?_, ⟨nofun, fun hex => absurd hex.1 hne⟩⟩⟩
    obtain ⟨free', hserved, hsizes⟩ := grow_served hh hle hdvd hgot hapart
    obtain ⟨hserved', hk, hq⟩ := carve_served hserved.holds hsize hn hcarve'
    exact ⟨free', hserved.trans hserved', hother free' hsizes,
      fun _ _ heq => by cases heq; exact ⟨hk, hq⟩⟩
  have hbytes : size ≤ 2 * (size * nobjs) + round_up (h.heap_size / 16) := by
    have hle' := Nat.le_mul_of_pos_right size hn
    omega
  have hdvd : 8 ∣ 2 * (size * nobjs) + round_up (h.heap_size / 16) :=
    Nat.dvd_add (Dvd.dvd.mul_left (Dvd.dvd.mul_right hsize.1 _) _) (Nat.dvd_mul_left _ _)
  obtain ⟨free₁, hlists, -, hsizes₁, hsub, -⟩ := stash_lists hh hle
  rw [chunk_alloc, hcarve]
  simp only
  split
  · rename_i hzero
    cases hscan : h.stash.scan NFREELISTS size with
    | some i =>
      obtain ⟨hle', hmax, hdvd', hhead⟩ := scan_some hsize.1 hscan
      have hi : SizeClass i := ⟨hdvd', hsize.2.1.trans_le hle', hmax⟩
      obtain ⟨free', hserved, hsizes, hrest⟩ := reuse_served hh hle hi hhead
      obtain ⟨q, k, h', hcarve', hcall⟩ :=
        chunk_alloc_carved (h := h.stash.reuse i) hn (hrest ▸ hle')
      refine ⟨_, hcall 0 _, ⟨fun _ _ => ?_, ⟨nofun, fun hex => ?_⟩⟩⟩
      · obtain ⟨hserved', hk, hq⟩ := carve_served hserved.holds hsize hn hcarve'
        exact ⟨free', hserved.trans hserved', hother free' hsizes,
          fun _ _ heq => by cases heq; exact ⟨hk, hq⟩⟩
      · -- the object that was found is in a list, and is not what was left of the chunk
        refine absurd ((hlists.head_eq_zero hi).mpr fun r hr heq => ?_) hhead
        obtain hr | hr := hsizes₁ r hr
        · exact absurd (hex.2.2 r hr) (by omega)
        · omega
    | none =>
      cases hmalloc : malloc_allocate (malloc answers).2 with
      | some c =>
        have hex : ¬∀ p ∈ answers, p = 0 := by
          rw [← malloc_zero hzero, ← malloc_allocate_none, hmalloc]
          simp
        exact hgrow _ _ _ hex hbytes hdvd
      | none =>
        refine ⟨_, rfl, ⟨fun _ _ => ?_, ⟨fun _ => ⟨?_, hshort, fun r hr => ?_⟩, fun _ => rfl⟩⟩⟩
        · obtain ⟨free', hserved, hsizes⟩ := lost_served hh hle
          exact ⟨free', hserved, hother free' hsizes, fun _ _ heq => by cases heq⟩
        · exact (malloc_zero hzero).mp (malloc_allocate_none.mp hmalloc)
        · -- the loop has seen that all lists of at least this size are empty
          by_contra hnot
          have hsized := (hh.lists.objects r hr).sized
          have hnone := scan_none hsize.1 (by simp only [MAX_BYTES, NFREELISTS]; omega) hscan
            (Nat.not_lt.mp hnot) hsized.2.2 hsized.1
          exact (hlists.head_eq_zero hsized).mp hnone r (hsub r hr) rfl
  · rename_i hne
    exact hgrow _ _ _ (fun hex => hne (hex _ (malloc_mem hne))) hbytes hdvd

/-! ## `allocate` and `deallocate` -/

/-- All objects of the chunk but the first go to the list of their size. -/
theorem Served.threaded {h h' : Heap} {free free' got : List Region} {p n k : ℕ}
    (hs : Served h h' free free' got (Region.mk p (n * (k + 2))).bytes) (hn : SizeClass n)
    (hp : 8 ∣ p) (hempty : ∀ r ∈ free', r.size ≠ n)
    (haddr : ∀ a ∈ h.owned free + spread got, 0 < a ∧ a < 2 ^ 64)
    (hapart : (h.owned free + spread got).Nodup) :
    Served h
      { h' with
        memory := thread h'.memory (p + n) n (k + 1)
        free_list := Function.update h'.free_list (freelist_index n) (p + n) }
      free (pieces (p + n) n (k + 1) ++ free') got (Region.mk p n).bytes := by
  have hsize : 8 ≤ n := Nat.le_of_dvd hn.2.1 hn.1
  have hbytes := hs.bytes
  rw [Region.bytes_mul_succ, Heap.owned, add_assoc] at hbytes
  have hmem : ∀ a ∈ (Region.mk (p + n) (n * (k + 1))).bytes, a ∈ h.owned free + spread got := by
    intro a ha
    rw [← hbytes]
    simp only [Multiset.mem_add]
    exact .inr (.inl ha)
  have hnodup := hapart
  rw [← hbytes, Multiset.nodup_add] at hnodup
  have hchunk : ((Region.mk (p + n) (n * (k + 1))).bytes + spread free').Nodup := by
    refine Multiset.nodup_of_le ?_ hnodup.2.1
    rw [add_le_add_iff_left]
    exact Multiset.le_add_left _ _
  have hcells : cells free' (freelist_index n) = [] := cells_eq_nil.mpr fun r hr heq =>
    hempty r hr ((hs.holds.lists.objects r hr).sized.index_inj hn heq)
  have hlists := hs.holds.lists.threaded hn (Nat.dvd_add hp hn.1) hcells
    (fun a ha => haddr a (hmem a ha)) hchunk
  have howned : h'.rest.bytes + spread (pieces (p + n) n (k + 1) ++ free') =
      (Region.mk (p + n) (n * (k + 1))).bytes + (h'.rest.bytes + spread free') := by
    rw [spread_append, spread_pieces, add_left_comm]
  refine ⟨⟨hlists, hs.holds.start_aligned, hs.holds.end_aligned, hs.holds.ordered, fun a ha => ?_,
    ?_⟩, ?_, fun a ha hgot => ?_, hs.heap_size⟩
  · refine haddr a ?_
    rw [← hbytes, ← howned]
    exact Multiset.mem_add.mpr (.inr ha)
  · rw [Heap.owned]
    exact howned ▸ hnodup.2.1
  · rw [← hbytes, ← howned]
    rfl
  · have hnot : a ∉ (Region.mk (p + n) (n * (k + 1))).bytes := fun hin =>
      absurd (Multiset.mem_add.mp (hmem a hin)) (not_or.mpr ⟨ha, hgot⟩)
    exact (thread_outside hsize hnot).trans (hs.frame a ha hgot)

/-- What `allocate` does for an object from a list. -/
structure AllocServed (h : Heap) (free : List Region) (n : ℕ) (answers : List ℕ)
    (o : Outcome ℕ) : Prop where
  served : Given o.got → (h.owned free + spread o.got).Nodup →
    ∃ free', Served h o.heap free free' o.got (o.value.elim 0 fun p => (Region.mk p n).bytes) ∧
      ∀ p, o.value = some p → 8 ∣ p
  refused : o.value = none ↔ Exhausted h free n answers

theorem refill_served {h : Heap} {free : List Region} {n : ℕ} (hh : Holds h free)
    (hn : SizeClass n) (hempty : ∀ r ∈ free, r.size ≠ n) (answers : List ℕ) :
    ∃ o, refill h n answers = some o ∧ AllocServed h free n answers o := by
  obtain ⟨o, hcall, hserved, hrefused⟩ :=
    chunk_alloc_served hh hn (by decide : 0 < 20) hempty answers
  obtain ⟨value, h', got⟩ := o
  rw [refill, hcall]
  cases value with
  | none =>
    refine ⟨⟨none, h', got⟩, rfl, ⟨fun hgot hapart => ?_,
      ⟨fun _ => hrefused.mp rfl, fun _ => rfl⟩⟩⟩
    obtain ⟨free', hs, -, -⟩ := hserved hgot hapart
    exact ⟨free', hs, fun _ heq => by cases heq⟩
  | some c =>
    obtain ⟨p, k⟩ := c
    simp only [Option.bind_eq_bind, Option.bind_some]
    split
    · rename_i hone
      subst hone
      refine ⟨_, rfl, ⟨fun hgot hapart => ?_, ⟨nofun, fun hex => ?_⟩⟩⟩
      swap
      · cases hrefused.mpr hex
      obtain ⟨free', hs, -, hvalue⟩ := hserved hgot hapart
      rw [taken, Nat.mul_one] at hs
      exact ⟨free', hs, fun _ heq => by cases heq; exact (hvalue _ _ rfl).2⟩
    · rename_i hne
      refine ⟨_, rfl, ⟨fun hgot hapart => ?_, ⟨nofun, fun hex => ?_⟩⟩⟩
      swap
      · cases hrefused.mpr hex
      obtain ⟨free', hs, hsizes, hvalue⟩ := hserved hgot hapart
      obtain ⟨hk, hp⟩ := hvalue _ _ rfl
      obtain ⟨j, rfl⟩ : ∃ j, k = j + 2 := ⟨k - 2, by omega⟩
      have haddr : ∀ a ∈ h.owned free + spread got, 0 < a ∧ a < 2 ^ 64 := by
        intro a ha
        obtain ha | ha := Multiset.mem_add.mp ha
        · exact hh.addresses a ha
        · obtain ⟨r, hr, ha⟩ := mem_spread.mp ha
          exact (hgot r hr).2 a ha
      exact ⟨_, hs.threaded hn hp hsizes haddr hapart, fun _ heq => by cases heq; exact hp⟩

theorem allocate_served {h : Heap} {free : List Region} {n : ℕ} (hh : Holds h free)
    (hpos : 0 < n) (hn : n ≤ MAX_BYTES) (answers : List ℕ) :
    ∃ o, allocate h n answers = some o ∧ AllocServed h free (round_up n) answers o := by
  obtain ⟨hclass, hindex⟩ := round_up_class hpos hn
  rw [allocate, if_neg (Nat.not_lt.mpr hn)]
  simp only
  split
  · rename_i hzero
    rw [← hindex, hh.lists.head_eq_zero hclass] at hzero
    exact refill_served hh hclass hzero answers
  · rename_i hne
    obtain ⟨r, hr, hbase, hri, hpop⟩ := hh.lists.pop (hindex ▸ hclass.index.1) hne
    have hsize : r.size = round_up n :=
      (hh.lists.objects r hr).sized.index_inj hclass (hri.trans hindex.symm)
    obtain rfl : r = ⟨h.free_list (freelist_index n), round_up n⟩ := by rw [← hbase, ← hsize]
    refine ⟨_, rfl, ⟨fun _ _ => ?_, ⟨nofun, fun hex => absurd (hex.2.2 _ hr) (lt_irrefl _)⟩⟩⟩
    have hbytes : (Region.mk (h.free_list (freelist_index n)) (round_up n)).bytes +
        (h.pop (freelist_index n)).owned
          (free.erase ⟨h.free_list (freelist_index n), round_up n⟩) = h.owned free := by
      rw [Heap.owned, Heap.owned, spread_erase hr, add_left_comm]
      rfl
    have hapart := hh.apart
    rw [← hbytes, Multiset.nodup_add] at hapart
    refine ⟨free.erase ⟨h.free_list (freelist_index n), round_up n⟩, ⟨⟨hpop, hh.start_aligned, hh.end_aligned, hh.ordered, fun a ha => ?_,
      hapart.2.1⟩, by simpa using hbytes, fun _ _ _ => rfl, rfl⟩, fun _ heq => ?_⟩
    · exact hh.addresses a (hbytes ▸ Multiset.mem_add.mpr (.inr ha))
    · cases heq
      exact (hh.lists.objects _ hr).aligned

/-- An object that comes back goes to the list of its size. -/
theorem deallocate_holds {h : Heap} {free : List Region} {p n : ℕ} (hh : Holds h free)
    (hpos : 0 < n) (hn : n ≤ MAX_BYTES) (hp : 8 ∣ p)
    (haddr : ∀ a ∈ (Region.mk p (round_up n)).bytes, 0 < a ∧ a < 2 ^ 64)
    (hapart : ((Region.mk p (round_up n)).bytes + h.owned free).Nodup) :
    Holds (deallocate h p n) (⟨p, round_up n⟩ :: free) ∧
      (deallocate h p n).owned (⟨p, round_up n⟩ :: free) =
        (Region.mk p (round_up n)).bytes + h.owned free ∧
      (∀ a ∉ (Region.mk p (round_up n)).bytes, (deallocate h p n).memory a = h.memory a) ∧
      (deallocate h p n).heap_size = h.heap_size := by
  obtain ⟨hclass, hindex⟩ := round_up_class hpos hn
  have hpiece : Piece ⟨p, round_up n⟩ := ⟨hclass, hp, haddr⟩
  have hspread : (spread (⟨p, round_up n⟩ :: free)).Nodup := by
    refine Multiset.nodup_of_le ?_ hapart
    rw [spread_cons, add_le_add_iff_left]
    exact Multiset.le_add_left _ _
  have howned : (deallocate h p n).owned (⟨p, round_up n⟩ :: free) =
      (Region.mk p (round_up n)).bytes + h.owned free := by
    rw [deallocate, if_neg (Nat.not_lt.mpr hn), Heap.owned, Heap.owned, spread_cons,
      add_left_comm]
    rfl
  have hlists := hh.lists.push hpiece hspread
  rw [hindex] at hlists
  rw [deallocate, if_neg (Nat.not_lt.mpr hn)] at howned ⊢
  refine ⟨⟨hlists, hh.start_aligned, hh.end_aligned, hh.ordered, fun a ha => ?_, howned ▸ hapart⟩,
    howned, fun a ha => store_outside_piece hpiece ha, rfl⟩
  rw [howned, Multiset.mem_add] at ha
  exact ha.elim (haddr a) (hh.addresses a)

end Kuhllib.DefaultAlloc
