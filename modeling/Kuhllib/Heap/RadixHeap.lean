import Kuhllib.Lib.BitLength
import Kuhllib.Lib.Transition
import Mathlib.Algebra.BigOperators.Group.Finset.Piecewise

/-!
# `boost::radix_heap`

The keys are 32 bit numbers and `unsigned long` has 64 bits. A bucket is the list of its
ring, the node that `m_buckets` points to first.

Results:
1. `radix_eq`: the bucket is the length of the distance to the offset.
2. `play_plain`: the queue that pops a greatest key, as long as no key is pushed behind
   a smaller one in a lower bucket.
-/

namespace Kuhllib.RadixHeap

open BitLength Transition

/-! `radix_traits` -/

def bits : Nat := 32
def c16 : Nat := 0xffff0000
def c8 : Nat := 0xff00ff00
def c4 : Nat := 0xf0f0f0f0
def c2 : Nat := 0xcccccccc
def c1 : Nat := 0xaaaaaaaa

/-- `if (bits > n && (val & c) != 0) { val &= c; rc += n; }`. -/
def mask_step (n c : Nat) (s : Nat × Nat) : Nat × Nat :=
  if bits > n ∧ s.1 &&& c ≠ 0 then (s.1 &&& c, s.2 + n) else s

def intern_radix (val : Nat) : Nat :=
  if val = 0 then 0
  else
    let s := mask_step 16 c16 (val, 1)
    let s := mask_step 8 c8 s
    let s := mask_step 4 c4 s
    let s := mask_step 2 c2 s
    (mask_step 1 c1 s).2

def value (val : UInt32) : Nat := 0xffffffff - val.toNat

def radix (val : UInt32) (offset : Nat) : Nat := intern_radix ((value val + 2 ^ 64 - offset) % 2 ^ 64)

structure Heap where
  m_buckets : Nat → List UInt32
  m_offset : Nat
  m_cut : Nat
  m_size : Int

/-- The constructor. -/
def Heap.empty : Heap := ⟨fun _ => [], 0, 1, 0⟩

def Heap.insert (h : Heap) (n : UInt32) (offset : Nat) : Heap :=
  let idx := radix n offset
  { h with m_buckets := Function.update h.m_buckets idx (h.m_buckets idx ++ [n]) }

/-- The offset of a pushed key. -/
def Heap.push_offset (h : Heap) (val : UInt32) : Nat :=
  if value val < h.m_cut ∨ h.m_cut = 0 then h.m_offset else 0

def Heap.push (h : Heap) (val : UInt32) : Heap :=
  { h.insert val (h.push_offset val) with m_size := h.m_size + 1 }

/-- The first bucket above 0 that is not empty. -/
def Heap.first_bucket (h : Heap) : Option Nat :=
  (List.range' 1 32).find? fun bucket => h.m_buckets bucket ≠ []

def Heap.reorganize (h : Heap) : Option Heap := do
  let bucket ← h.first_bucket
  match h.m_buckets bucket with
  | [] => none
  | start :: nodes =>
    let min := nodes.foldl (fun min tmp => if value tmp < min then value tmp else min) (value start)
    let h := { h with
      m_buckets := Function.update h.m_buckets bucket []
      m_cut := 2 ^ bucket % 2 ^ 64
      m_offset := min }
    some ((start :: nodes).foldl (fun h tmp => h.insert tmp min) h)

/-- `if (m_buckets[0] == 0) reorganize();`. -/
def Heap.fill (h : Heap) : Option Heap :=
  if h.m_buckets 0 = [] then h.reorganize else some h

def Heap.top (h : Heap) : Option (UInt32 × Heap) := do
  let h ← h.fill
  let val ← (h.m_buckets 0).head?
  some (val, h)

/-- `pop()`, with the key that is removed. -/
def Heap.pop (h : Heap) : Option (UInt32 × Heap) := do
  let h ← h.fill
  match h.m_buckets 0 with
  | [] => none
  | val :: nodes =>
    let h := { h with m_buckets := Function.update h.m_buckets 0 nodes, m_size := h.m_size - 1 }
    some (val, if h.m_size = 0 then { h with m_offset := 0, m_cut := 1 } else h)

inductive Op
  | push (val : UInt32)
  | top
  | pop
  deriving DecidableEq

def next (h : Heap) : Op → Option (Option UInt32 × Heap)
  | .push val => some (none, h.push val)
  | .top => h.top.map fun r => (some r.1, r.2)
  | .pop => h.pop.map fun r => (some r.1, r.2)

/-! ### The plain queue -/

/-- The keys, and the one that was accessed last. -/
structure Plain where
  content : List UInt32
  last : Option UInt32
  deriving DecidableEq

/-- A greatest key. -/
def Plain.max (q : Plain) : Option UInt32 :=
  q.content.find? fun k => q.content.all fun k' => k' ≤ k

/-- No key is pushed that has a higher priority than the last one accessed. -/
def Plain.next (q : Plain) : Op → Option (Option UInt32 × Plain)
  | .push val =>
    if q.last.all fun k => val ≤ k then some (none, { q with content := val :: q.content })
    else none
  | .top => q.max.map fun k => (some k, { q with last := some k })
  | .pop => q.max.map fun k => (some k, ⟨q.content.erase k, some k⟩)

/-! ## 1. Buckets -/

namespace RadixHeapLemmas

theorem value_lt (val : UInt32) : value val < 2 ^ 32 := by
  unfold value
  omega

theorem value_le_iff {v w : UInt32} : value v ≤ value w ↔ w ≤ v := by
  have hv := v.toNat_lt
  have hw := w.toNat_lt
  unfold value
  rw [UInt32.le_iff_toNat_le]
  omega

theorem mask_step_eq {n : Nat} (hn : bits > n) (c : Nat) (s : Nat × Nat) :
    mask_step n c s = narrow n c s := by
  unfold mask_step narrow
  simp only [hn, true_and]

theorem intern_radix_eq {x : Nat} (hx : x < 2 ^ 32) : intern_radix x = Nat.size x := by
  unfold intern_radix
  split
  next h => rw [h, Nat.size_zero]
  next h =>
    have hp : Nat.size x - 1 < 32 := by
      have := Nat.size_le.mpr hx
      omega
    have hpos := Nat.size_pos.mpr (Nat.pos_of_ne_zero h)
    simp only [mask_step_eq (by decide : bits > 16), mask_step_eq (by decide : bits > 8),
      mask_step_eq (by decide : bits > 4), mask_step_eq (by decide : bits > 2),
      mask_step_eq (by decide : bits > 1)]
    have h16 : Counted 16 _ _ := (counted_start h hx).narrow (m := c16) (by decide) hp
    have h8 : Counted 8 _ _ := h16.narrow (m := c8) (by decide) hp
    have h4 : Counted 4 _ _ := h8.narrow (m := c4) (by decide) hp
    have h2 : Counted 2 _ _ := h4.narrow (m := c2) (by decide) hp
    have h1 : Counted 1 _ _ := h2.narrow (m := c1) (by decide) hp
    rw [h1.count_eq, Nat.sub_add_cancel hpos]

end RadixHeapLemmas

open RadixHeapLemmas

theorem radix_eq {val : UInt32} {offset : Nat} (h : offset ≤ value val) :
    radix val offset = Nat.size (value val - offset) := by
  have hlt := value_lt val
  have hdist : (value val + 2 ^ 64 - offset) % 2 ^ 64 = value val - offset := by omega
  unfold radix
  rw [hdist, intern_radix_eq (by omega)]

/-- A bucket above 0 holds the distances of one length. -/
theorem size_eq_iff {d b : Nat} (hb : 1 ≤ b) : Nat.size d = b ↔ 2 ^ (b - 1) ≤ d ∧ d < 2 ^ b := by
  rw [← Nat.lt_size, ← Nat.size_le]
  omega

/-! ## 2. The order of the buckets -/

/-- The keys `f b` of the buckets for offset `o` and cut `c`. Buckets that reach above the
offset hold keys by their own length. As long as the offset is below the cut, all other
buckets hold them by their distance to the offset, and everything below the cut is there. -/
structure Layout (f : Nat → List UInt32) (o c : Nat) : Prop where
  beyond : ∀ b, 33 ≤ b → f b = []
  offset_le : ∀ b, ∀ w ∈ f b, o ≤ value w
  zero : ∀ w ∈ f 0, value w = o
  absolute : ∀ b, 1 ≤ b → o < 2 ^ b → ∀ w ∈ f b, Nat.size (value w) = b
  close : ∀ b, 1 ≤ b → ∀ v ∈ f b, ∀ w ∈ f b, value w < value v + 2 ^ (b - 1)
  ordered : ∀ i j, i < j → ∀ v ∈ f i, ∀ w ∈ f j, value v ≤ value w
  relative : o < c → ∀ b, 1 ≤ b → 2 ^ b ≤ o → ∀ w ∈ f b, Nat.size (value w - o) = b ∧ value w < c
  cut : ∃ k, k ≤ 32 ∧ c = 2 ^ k ∧ (o < c → 1 ≤ k → 2 ^ (k - 1) ≤ o ∧ f k = [])

/-- What has to hold of a key that is put into bucket `idx`. -/
structure Admits (f : Nat → List UInt32) (o c idx : Nat) (v : UInt32) : Prop where
  idx_le : idx ≤ 32
  offset_le : o ≤ value v
  zero : idx = 0 → value v = o
  absolute : 1 ≤ idx → o < 2 ^ idx → Nat.size (value v) = idx
  close : 1 ≤ idx → ∀ w ∈ f idx,
    value w < value v + 2 ^ (idx - 1) ∧ value v < value w + 2 ^ (idx - 1)
  lower : ∀ i, i < idx → ∀ w ∈ f i, value w ≤ value v
  higher : ∀ j, idx < j → ∀ w ∈ f j, value v ≤ value w
  relative : o < c → 1 ≤ idx → 2 ^ idx ≤ o → Nat.size (value v - o) = idx ∧ value v < c
  cut : o < c → 1 ≤ idx → c ≠ 2 ^ idx

namespace RadixHeapLemmas

variable {f : Nat → List UInt32} {o c idx : Nat} {v : UInt32}

theorem mem_put {b : Nat} {w : UInt32} :
    w ∈ Function.update f idx (f idx ++ [v]) b ↔ w ∈ f b ∨ b = idx ∧ w = v := by
  by_cases hb : b = idx
  · subst hb
    simp
  · rw [Function.update_of_ne hb]
    simp [hb]

theorem layout_put (h : Layout f o c) (ha : Admits f o c idx v) :
    Layout (Function.update f idx (f idx ++ [v])) o c where
  beyond b hb := by
    have hidx := ha.idx_le
    rw [Function.update_of_ne (by omega)]
    exact h.beyond b hb
  offset_le b w hw := by
    rcases mem_put.mp hw with hw | ⟨-, rfl⟩
    · exact h.offset_le b w hw
    · exact ha.offset_le
  zero w hw := by
    rcases mem_put.mp hw with hw | ⟨hidx, rfl⟩
    · exact h.zero w hw
    · exact ha.zero hidx.symm
  absolute b hb ho w hw := by
    rcases mem_put.mp hw with hw | ⟨rfl, rfl⟩
    · exact h.absolute b hb ho w hw
    · exact ha.absolute hb ho
  close b hb x hx w hw := by
    rcases mem_put.mp hx with hxf | ⟨rfl, rfl⟩
    · rcases mem_put.mp hw with hw | ⟨rfl, rfl⟩
      · exact h.close b hb x hxf w hw
      · exact (ha.close hb x hxf).2
    · rcases mem_put.mp hw with hw | ⟨-, rfl⟩
      · exact (ha.close hb w hw).1
      · exact Nat.lt_add_of_pos_right (Nat.two_pow_pos _)
  ordered i j hij x hx w hw := by
    rcases mem_put.mp hx with hxf | ⟨rfl, rfl⟩
    · rcases mem_put.mp hw with hw | ⟨rfl, rfl⟩
      · exact h.ordered i j hij x hxf w hw
      · exact ha.lower i hij x hxf
    · rcases mem_put.mp hw with hw | ⟨hj, -⟩
      · exact ha.higher j hij w hw
      · omega
  relative hoc b hb hbo w hw := by
    rcases mem_put.mp hw with hw | ⟨rfl, rfl⟩
    · exact h.relative hoc b hb hbo w hw
    · exact ha.relative hoc hb hbo
  cut := by
    obtain ⟨k, hk, hc, hempty⟩ := h.cut
    refine ⟨k, hk, hc, fun hoc hk1 => ?_⟩
    obtain ⟨hlow, hnil⟩ := hempty hoc hk1
    refine ⟨hlow, ?_⟩
    rw [Function.update_of_ne, hnil]
    rintro rfl
    exact ha.cut hoc hk1 hc

/-- A distance of a longer length is greater. -/
theorem lt_of_size_lt {d e : Nat} (h : Nat.size d < Nat.size e) : d < e := by
  by_contra hle
  exact absurd (Nat.size_le_size (Nat.not_lt.mp hle)) (Nat.not_le.mpr h)

/-- Two distances of one length differ by less than half of the range. -/
theorem lt_add_of_size {d e b : Nat} (hb : 1 ≤ b) (hd : Nat.size d = b) (he : Nat.size e = b) :
    d < e + 2 ^ (b - 1) := by
  rw [size_eq_iff hb] at hd he
  have hpow : 2 ^ b = 2 ^ (b - 1) * 2 := by rw [← pow_succ, Nat.sub_add_cancel hb]
  omega

/-- A key below the cut goes by its distance to the offset. -/
theorem admits_relative (h : Layout f o c) (ho : o ≤ value v) (hc : value v < c) :
    Admits f o c (Nat.size (value v - o)) v := by
  obtain ⟨k, hk, rfl, hcut⟩ := h.cut
  have hoc : o < 2 ^ k := Nat.lt_of_le_of_lt ho hc
  rcases Nat.eq_zero_or_pos k with rfl | hk1
  · -- there is no room for another key
    have hv : value v - o = 0 := by omega
    rw [hv, Nat.size_zero]
    refine ⟨Nat.zero_le _, ho, fun _ => by omega, fun h => absurd h (by decide),
      fun h => absurd h (by decide), fun i hi => absurd hi (Nat.not_lt_zero i), fun j hj w hw => ?_,
      fun _ h => absurd h (by decide), fun _ h => absurd h (by decide)⟩
    have := h.offset_le j w hw
    omega
  · obtain ⟨hlow, hempty⟩ := hcut hoc hk1
    have hpow : 2 ^ k = 2 ^ (k - 1) * 2 := by rw [← pow_succ, Nat.sub_add_cancel hk1]
    have hidx : Nat.size (value v - o) ≤ k - 1 := Nat.size_le.mpr (by omega)
    have hbelow : 2 ^ Nat.size (value v - o) ≤ o :=
      Nat.le_trans (Nat.pow_le_pow_right (by decide) hidx) hlow
    have hsame : ∀ i, 1 ≤ i → i ≤ Nat.size (value v - o) → ∀ w ∈ f i, Nat.size (value w - o) = i :=
      fun i hi hle w hw => (h.relative hoc i hi
        (Nat.le_trans (Nat.pow_le_pow_right (by decide) hle) hbelow) w hw).1
    refine ⟨by omega, ho, fun hzero => ?_, fun _ hlt => absurd hbelow (Nat.not_le.mpr hlt),
      fun h1 w hw => ?_, fun i hi w hw => ?_, fun j hj w hw => ?_, fun _ _ _ => ⟨rfl, hc⟩,
      fun _ _ he => ?_⟩
    · rw [Nat.size_eq_zero] at hzero
      omega
    · have hw' := hsame _ h1 (Nat.le_refl _) w hw
      have hwo := h.offset_le _ w hw
      have h1' := lt_add_of_size h1 hw' rfl
      have h2' := lt_add_of_size h1 rfl hw'
      omega
    · rcases Nat.eq_zero_or_pos i with rfl | hi1
      · rw [h.zero w hw]
        exact ho
      · have hlt := lt_of_size_lt (lt_of_eq_of_lt (hsame i hi1 hi.le w hw) hi)
        have hwo := h.offset_le i w hw
        omega
    · have hj1 : 1 ≤ j := by omega
      have hwo := h.offset_le j w hw
      rcases Nat.lt_or_ge o (2 ^ j) with hjo | hjo
      · -- a bucket that reaches above the offset reaches above the cut
        have hjk : k ≤ j := by
          by_contra hlt
          have := Nat.pow_le_pow_right (n := 2) (by decide) (show j ≤ k - 1 by omega)
          omega
        rcases Nat.eq_or_lt_of_le hjk with rfl | hjk
        · rw [hempty] at hw
          cases hw
        · have hw' := (size_eq_iff hj1).mp (h.absolute j hj1 hjo w hw)
          have := Nat.pow_le_pow_right (n := 2) (by decide) (show k ≤ j - 1 by omega)
          omega
      · have hw' := (h.relative hoc j hj1 hjo w hw).1
        have hlt : value v - o < value w - o := lt_of_size_lt (by rwa [hw'])
        omega
    · have := Nat.pow_right_injective (Nat.le_refl 2) he
      omega

/-- Any other key goes by its own length, and only the lower buckets may be in its way. -/
theorem admits_absolute (h : Layout f o c) (ho : o ≤ value v) (hc : c ≤ value v)
    (hfits : ∀ i, i < Nat.size (value v) → ∀ w ∈ f i, value w ≤ value v) :
    Admits f o c (Nat.size (value v)) v := by
  obtain ⟨k, hk, rfl, hcut⟩ := h.cut
  have hpos : 0 < 2 ^ k := Nat.two_pow_pos k
  have hidx : k < Nat.size (value v) := Nat.lt_size.mpr hc
  have hlt := Nat.lt_size_self (value v)
  refine ⟨Nat.size_le.mpr (value_lt v), ho, fun hzero => absurd hzero (by omega), fun _ _ => rfl,
    fun h1 w hw => ?_, hfits, fun j hj w hw => ?_, fun _ _ hbelow => by omega, fun _ _ he => ?_⟩
  · have hw' := h.absolute _ h1 (by omega) w hw
    exact ⟨lt_add_of_size h1 hw' rfl, lt_add_of_size h1 rfl hw'⟩
  · have hj1 : 1 ≤ j := by omega
    have hjo : 2 ^ Nat.size (value v) ≤ 2 ^ j := Nat.pow_le_pow_right (by decide) hj.le
    have hw' := h.absolute j hj1 (by omega) w hw
    exact (lt_of_size_lt (by rwa [hw'])).le
  · have := Nat.pow_right_injective (Nat.le_refl 2) he
    omega

/-- The buckets below and the one that is reorganized get its keys. -/
def spread (f : Nat → List UInt32) (b min : Nat) (i : Nat) : List UInt32 :=
  Function.update f b [] i ++ (f b).filter fun w => Nat.size (value w - min) = i

/-- The first bucket that is not empty is spread by the distances to its least key. -/
theorem layout_spread {b min : Nat} (h : Layout f o c) (hb : 1 ≤ b) (hb32 : b ≤ 32)
    (hfirst : ∀ i, i < b → f i = []) (hmin : ∃ m ∈ f b, value m = min)
    (hleast : ∀ w ∈ f b, min ≤ value w) : Layout (spread f b min) min (2 ^ b) := by
  obtain ⟨m, hm, hmv⟩ := hmin
  have ho : o ≤ min := hmv ▸ h.offset_le b m hm
  have hpow : 2 ^ b = 2 ^ (b - 1) * 2 := by rw [← pow_succ, Nat.sub_add_cancel hb]
  -- its keys are not less than half of its range
  have hlow : 2 ^ (b - 1) ≤ min := by
    rcases Nat.lt_or_ge o (2 ^ b) with hob | hob
    · have hsize := (size_eq_iff hb).mp (h.absolute b hb hob m hm)
      omega
    · omega
  have hdist : ∀ w ∈ f b, Nat.size (value w - min) ≤ b - 1 := by
    intro w hw
    have hle := hleast w hw
    have hclose := h.close b hb m hm w hw
    exact Nat.size_le.mpr (by omega)
  have hmem : ∀ {i w}, w ∈ spread f b min i ↔
      b < i ∧ w ∈ f i ∨ i < b ∧ w ∈ f b ∧ Nat.size (value w - min) = i := by
    intro i w
    unfold spread
    rw [List.mem_append, List.mem_filter, decide_eq_true_iff]
    constructor
    · rintro (hw | ⟨hw, hsize⟩)
      · by_cases hi : i = b
        · subst hi
          simp at hw
        · rw [Function.update_of_ne hi] at hw
          rcases Nat.lt_or_gt_of_ne hi with hi | hi
          · rw [hfirst i hi] at hw
            cases hw
          · exact .inl ⟨hi, hw⟩
      · have := hdist w hw
        exact .inr ⟨by omega, hw, hsize⟩
    · rintro (⟨hi, hw⟩ | ⟨-, hw, hsize⟩)
      · rw [Function.update_of_ne hi.ne']
        exact .inl hw
      · exact .inr ⟨hw, hsize⟩
  refine ⟨fun i hi => ?_, fun i w hw => ?_, fun w hw => ?_, fun i hi hlt w hw => ?_,
    fun i hi v hv w hw => ?_, fun i j hij v hv w hw => ?_, fun hcut i hi hle w hw => ?_,
    ⟨b, hb32, rfl, fun _ _ => ⟨hlow, ?_⟩⟩⟩
  · refine List.eq_nil_iff_forall_not_mem.mpr fun w hw => ?_
    rcases hmem.mp hw with ⟨-, hw⟩ | ⟨hlt, -⟩
    · rw [h.beyond i hi] at hw
      cases hw
    · omega
  · rcases hmem.mp hw with ⟨hi, hw⟩ | ⟨-, hw, -⟩
    · exact hmv ▸ h.ordered b i hi m hm w hw
    · exact hleast w hw
  · rcases hmem.mp hw with ⟨hi, -⟩ | ⟨-, hw, hsize⟩
    · omega
    · have hle := hleast w hw
      rw [Nat.size_eq_zero] at hsize
      omega
  · rcases hmem.mp hw with ⟨-, hw⟩ | ⟨hib, -⟩
    · exact h.absolute i hi (by omega) w hw
    · have := Nat.pow_le_pow_right (n := 2) (by decide) (show i ≤ b - 1 by omega)
      omega
  · rcases hmem.mp hv with ⟨hib, hv⟩ | ⟨hib, hv, hsizev⟩
    · rcases hmem.mp hw with ⟨-, hw⟩ | ⟨hib', -⟩
      · exact h.close i hi v hv w hw
      · omega
    · rcases hmem.mp hw with ⟨hib', -⟩ | ⟨-, hw, hsizew⟩
      · omega
      · have hvle := hleast v hv
        have hwle := hleast w hw
        have := lt_add_of_size hi hsizew hsizev
        omega
  · rcases hmem.mp hw with ⟨hj, hw⟩ | ⟨hj, hw, hsizew⟩
    · rcases hmem.mp hv with ⟨-, hv⟩ | ⟨-, hv, -⟩
      · exact h.ordered i j hij v hv w hw
      · exact h.ordered b j hj v hv w hw
    · rcases hmem.mp hv with ⟨hi, -⟩ | ⟨-, hv, hsizev⟩
      · omega
      · have hvle := hleast v hv
        have hwle := hleast w hw
        have hlt : value v - min < value w - min := lt_of_size_lt (by rwa [hsizev, hsizew])
        omega
  · rcases hmem.mp hw with ⟨hib, -⟩ | ⟨-, hw, hsize⟩
    · have hlt : 2 ^ b < 2 ^ i := Nat.pow_lt_pow_right (by decide) hib
      omega
    · -- the offset has not passed the range of this bucket
      refine ⟨hsize, ?_⟩
      exact ((size_eq_iff hb).mp (h.absolute b hb (by omega) w hw)).2
  · refine List.eq_nil_iff_forall_not_mem.mpr fun w hw => ?_
    rcases hmem.mp hw with ⟨hlt, -⟩ | ⟨hlt, -⟩ <;> exact absurd hlt (Nat.lt_irrefl b)

end RadixHeapLemmas

/-! ## 3. The operations -/

/-- All keys. -/
def contents (f : Nat → List UInt32) : Multiset UInt32 :=
  ∑ i ∈ Finset.range 33, (f i : Multiset UInt32)

structure Inv (h : Heap) : Prop where
  layout : Layout h.m_buckets h.m_offset h.m_cut
  size : h.m_size = (contents h.m_buckets).card

namespace RadixHeapLemmas

variable {f : Nat → List UInt32} {o c idx : Nat} {h : Heap} {v : UInt32}

theorem contents_update (hidx : idx < 33) (l : List UInt32) :
    contents (Function.update f idx l) + (f idx : Multiset UInt32) = contents f + l := by
  have hmem : idx ∈ Finset.range 33 := Finset.mem_range.mpr hidx
  have hupdate : (fun i => (Function.update f idx l i : Multiset UInt32)) =
      Function.update (fun i => (f i : Multiset UInt32)) idx l := by
    funext i
    exact Function.apply_update (fun _ (l : List UInt32) => (l : Multiset UInt32)) f idx l i
  unfold contents
  rw [hupdate, Finset.sum_update_of_mem hmem, Finset.sum_eq_add_sum_sdiff_singleton_of_mem hmem,
    add_comm (l : Multiset UInt32), add_right_comm, add_comm _ (f idx : Multiset UInt32)]

theorem mem_contents (hl : Layout f o c) : v ∈ contents f ↔ ∃ b, v ∈ f b := by
  unfold contents
  simp only [Multiset.mem_sum, Finset.mem_range, Multiset.mem_coe]
  constructor
  · rintro ⟨b, -, hv⟩
    exact ⟨b, hv⟩
  · rintro ⟨b, hv⟩
    refine ⟨b, ?_, hv⟩
    by_contra hb
    rw [hl.beyond b (by omega)] at hv
    cases hv

theorem contents_put (hidx : idx < 33) :
    contents (Function.update f idx (f idx ++ [v])) = v ::ₘ contents f := by
  have hu := contents_update (f := f) hidx (f idx ++ [v])
  rw [← Multiset.coe_add, ← add_assoc, add_right_comm] at hu
  have := add_right_cancel hu
  rw [this, Multiset.coe_singleton, add_comm, Multiset.singleton_add]

theorem insert_spec (ho : o ≤ value v) :
    (h.insert v o).m_buckets = Function.update h.m_buckets (Nat.size (value v - o))
      (h.m_buckets (Nat.size (value v - o)) ++ [v]) := by
  unfold Heap.insert
  rw [radix_eq ho]

/-- The loop of `reorganize`. -/
theorem insert_all {l : List UInt32} {min : Nat} (hl : ∀ w ∈ l, min ≤ value w) (h : Heap) :
    let h' := l.foldl (fun h tmp => h.insert tmp min) h
    (∀ i, h'.m_buckets i = h.m_buckets i ++ l.filter fun w => Nat.size (value w - min) = i) ∧
      contents h'.m_buckets = contents h.m_buckets + l ∧
      h'.m_offset = h.m_offset ∧ h'.m_cut = h.m_cut ∧ h'.m_size = h.m_size := by
  induction l generalizing h with
  | nil => simp
  | cons v l ih =>
    have hv := hl v List.mem_cons_self
    obtain ⟨hb, hc, ho, hcut, hs⟩ := ih (fun w hw => hl w (List.mem_cons_of_mem _ hw)) (h.insert v min)
    have hidx : Nat.size (value v - min) < 33 :=
      Nat.lt_succ_of_le (Nat.size_le.mpr (Nat.lt_of_le_of_lt (Nat.sub_le _ _) (value_lt v)))
    refine ⟨fun i => ?_, ?_, ho, hcut, hs⟩
    · rw [List.foldl_cons, hb i, insert_spec hv, List.filter_cons]
      by_cases hi : Nat.size (value v - min) = i
      · subst hi
        simp
      · rw [Function.update_of_ne (Ne.symm hi)]
        simp [hi]
    · rw [List.foldl_cons, hc, insert_spec hv, contents_put hidx, ← Multiset.cons_coe,
        Multiset.add_cons, Multiset.cons_add]

theorem first_bucket_spec (hl : Layout h.m_buckets o c) (hne : contents h.m_buckets ≠ 0)
    (hzero : h.m_buckets 0 = []) :
    ∃ b, h.first_bucket = some b ∧ 1 ≤ b ∧ b ≤ 32 ∧ h.m_buckets b ≠ [] ∧
      ∀ i, i < b → h.m_buckets i = [] := by
  obtain ⟨v, hv⟩ := Multiset.exists_mem_of_ne_zero hne
  obtain ⟨j, hj⟩ := (mem_contents hl).mp hv
  have hjne : h.m_buckets j ≠ [] := List.ne_nil_of_mem hj
  have hj0 : j ≠ 0 := fun h0 => hjne (h0 ▸ hzero)
  have hj33 : j < 33 := by
    by_contra hge
    exact hjne (hl.beyond j (Nat.not_lt.mp hge))
  have hfind : h.first_bucket.isSome := by
    unfold Heap.first_bucket
    rw [List.find?_isSome]
    exact ⟨j, List.mem_range'_1.mpr ⟨Nat.pos_of_ne_zero hj0, hj33⟩, decide_eq_true hjne⟩
  obtain ⟨b, hb⟩ := Option.isSome_iff_exists.mp hfind
  obtain ⟨hbne, hmem, hbefore⟩ := List.find?_range'_eq_some.mp hb
  obtain ⟨hb1, hb33⟩ := List.mem_range'_1.mp hmem
  refine ⟨b, hb, hb1, Nat.lt_succ_iff.mp hb33, of_decide_eq_true hbne, fun i hi => ?_⟩
  rcases Nat.eq_zero_or_pos i with rfl | hpos
  · exact hzero
  · simpa using hbefore i hpos hi

theorem min_spec (start : UInt32) (nodes : List UInt32) :
    let min := nodes.foldl (fun min tmp => if value tmp < min then value tmp else min) (value start)
    (∃ m ∈ start :: nodes, value m = min) ∧ ∀ w ∈ start :: nodes, min ≤ value w := by
  induction nodes using List.reverseRecOn with
  | nil => simp
  | append_singleton nodes x ih =>
    obtain ⟨⟨m, hm, hmv⟩, hle⟩ := ih
    simp only [List.foldl_append, List.foldl_cons, List.foldl_nil]
    generalize nodes.foldl (fun min tmp => if value tmp < min then value tmp else min) (value start)
      = min at *
    have hmem : ∀ w, w ∈ start :: (nodes ++ [x]) ↔ w ∈ start :: nodes ∨ w = x := by
      intro w
      rw [← List.cons_append, List.mem_append, List.mem_singleton]
    split
    next hlt =>
      refine ⟨⟨x, (hmem x).mpr (.inr rfl), rfl⟩, fun w hw => ?_⟩
      rcases (hmem w).mp hw with hw | rfl
      · exact (Nat.lt_of_lt_of_le hlt (hle w hw)).le
      · exact Nat.le_refl _
    next hge =>
      refine ⟨⟨m, (hmem m).mpr (.inl hm), hmv⟩, fun w hw => ?_⟩
      rcases (hmem w).mp hw with hw | rfl
      · exact hle w hw
      · exact Nat.not_lt.mp hge

/-- Afterwards bucket 0 holds the least keys. -/
theorem reorganize_spec (hi : Inv h) (hne : contents h.m_buckets ≠ 0) (hzero : h.m_buckets 0 = []) :
    ∃ h', h.reorganize = some h' ∧ Inv h' ∧ contents h'.m_buckets = contents h.m_buckets ∧
      h'.m_buckets 0 ≠ [] := by
  obtain ⟨b, hb, hb1, hb32, hbne, hfirst⟩ := first_bucket_spec hi.layout hne hzero
  obtain ⟨start, nodes, hsplit⟩ := List.exists_cons_of_ne_nil hbne
  obtain ⟨hmin, hleast⟩ := min_spec start nodes
  have hcut : 2 ^ b % 2 ^ 64 = 2 ^ b :=
    Nat.mod_eq_of_lt (Nat.pow_lt_pow_right (by decide) (by omega))
  unfold Heap.reorganize
  simp only [hb, hsplit, hcut, Option.bind_eq_bind, Option.bind_some, Option.some.injEq,
    exists_eq_left']
  rw [← hsplit] at hmin hleast ⊢
  generalize nodes.foldl (fun min tmp => if value tmp < min then value tmp else min) (value start)
    = min at *
  obtain ⟨hbuckets, hcontents, ho, hc, hs⟩ := insert_all hleast
    { h with m_buckets := Function.update h.m_buckets b [], m_cut := 2 ^ b, m_offset := min }
  have hspread := layout_spread hi.layout hb1 hb32 hfirst hmin hleast
  have hsame : contents (Function.update h.m_buckets b []) + ↑(h.m_buckets b) =
      contents h.m_buckets := by
    rw [contents_update (Nat.lt_succ_of_le hb32), Multiset.coe_nil, add_zero]
  rw [hsame] at hcontents
  have heq : _ = spread h.m_buckets b min := funext hbuckets
  refine ⟨⟨?_, ?_⟩, hcontents, ?_⟩
  · rw [heq, ho, hc]
    exact hspread
  · rw [hs, hcontents]
    exact hi.size
  · obtain ⟨m, hm, hmv⟩ := hmin
    refine List.ne_nil_of_mem (a := m) ?_
    rw [heq]
    refine List.mem_append_right _ (List.mem_filter.mpr ⟨hm, ?_⟩)
    rw [hmv, Nat.sub_self, Nat.size_zero]
    rfl

theorem fill_spec (hi : Inv h) (hne : contents h.m_buckets ≠ 0) :
    ∃ h' v l, h.fill = some h' ∧ Inv h' ∧ contents h'.m_buckets = contents h.m_buckets ∧
      h'.m_buckets 0 = v :: l := by
  unfold Heap.fill
  split
  next hzero =>
    obtain ⟨h', hr, hi', hc, hne'⟩ := reorganize_spec hi hne hzero
    obtain ⟨v, l, hv⟩ := List.exists_cons_of_ne_nil hne'
    exact ⟨h', v, l, hr, hi', hc, hv⟩
  next hzero =>
    obtain ⟨v, l, hv⟩ := List.exists_cons_of_ne_nil hzero
    exact ⟨h, v, l, rfl, hi, rfl, hv⟩

/-- The keys of bucket 0 are the greatest ones. -/
theorem head_max (hi : Inv h) {l : List UInt32} (hv : h.m_buckets 0 = v :: l) :
    value v = h.m_offset ∧ v ∈ contents h.m_buckets ∧ ∀ w ∈ contents h.m_buckets, w ≤ v := by
  have hmem : v ∈ h.m_buckets 0 := by
    rw [hv]
    exact List.mem_cons_self
  have hzero := hi.layout.zero v hmem
  refine ⟨hzero, (mem_contents hi.layout).mpr ⟨0, hmem⟩, fun w hw => ?_⟩
  obtain ⟨b, hb⟩ := (mem_contents hi.layout).mp hw
  rw [← value_le_iff, hzero]
  exact hi.layout.offset_le b w hb

theorem layout_empty (h : ∀ b, f b = []) : Layout f 0 1 := by
  have hmem : ∀ b w, w ∉ f b := fun b w hw => by
    rw [h b] at hw
    cases hw
  exact ⟨fun b _ => h b, fun b w hw => absurd hw (hmem b w), fun w hw => absurd hw (hmem 0 w),
    fun b _ _ w hw => absurd hw (hmem b w), fun b _ v hv => absurd hv (hmem b v),
    fun i _ _ v hv => absurd hv (hmem i v), fun _ b _ _ w hw => absurd hw (hmem b w),
    ⟨0, Nat.zero_le _, rfl, fun _ h => absurd h (by decide)⟩⟩

/-- A bucket may lose keys. -/
theorem layout_tail (hl : Layout f o c) {l : List UInt32} (hv : f 0 = v :: l) :
    Layout (Function.update f 0 l) o c := by
  have hmem : ∀ b w, w ∈ Function.update f 0 l b → w ∈ f b := by
    intro b w hw
    by_cases hb : b = 0
    · subst hb
      rw [Function.update_self] at hw
      rw [hv]
      exact List.mem_cons_of_mem _ hw
    · rwa [Function.update_of_ne hb] at hw
  have hne : ∀ {b}, 1 ≤ b → Function.update f 0 l b = f b :=
    fun hb => Function.update_of_ne (Nat.one_le_iff_ne_zero.mp hb) _ _
  obtain ⟨k, hk, hc, hcut⟩ := hl.cut
  refine ⟨fun b hb => ?_, fun b w hw => hl.offset_le b w (hmem b w hw),
    fun w hw => hl.zero w (hmem 0 w hw), fun b hb ho w hw => hl.absolute b hb ho w (hmem b w hw),
    fun b hb v hv w hw => hl.close b hb v (hmem b v hv) w (hmem b w hw),
    fun i j hij v hv w hw => hl.ordered i j hij v (hmem i v hv) w (hmem j w hw),
    fun hoc b hb hbo w hw => hl.relative hoc b hb hbo w (hmem b w hw),
    ⟨k, hk, hc, fun hoc hk1 => ?_⟩⟩
  · rw [hne (by omega)]
    exact hl.beyond b hb
  · rw [hne hk1]
    exact hcut hoc hk1

end RadixHeapLemmas

/-- No smaller key lies in a lower bucket than the one the key is pushed into. -/
def Heap.Fits (h : Heap) (val : UInt32) : Prop :=
  ∀ b, b < radix val (h.push_offset val) → ∀ w ∈ h.m_buckets b, value w ≤ value val

instance (h : Heap) (val : UInt32) : Decidable (h.Fits val) :=
  decidable_of_iff ((List.range (radix val (h.push_offset val))).all fun b =>
    (h.m_buckets b).all fun w => value w ≤ value val) (by simp [Heap.Fits])

theorem push_spec {h : Heap} {val : UInt32} (hi : Inv h) (ho : h.m_offset ≤ value val)
    (hfits : h.Fits val) :
    Inv (h.push val) ∧ contents (h.push val).m_buckets = val ::ₘ contents h.m_buckets ∧
      (h.push val).m_offset = h.m_offset := by
  have hadmits : Admits h.m_buckets h.m_offset h.m_cut
      (Nat.size (value val - h.push_offset val)) val ∧ h.push_offset val ≤ value val := by
    obtain ⟨k, -, hk, -⟩ := hi.layout.cut
    have hcut : h.m_cut ≠ 0 := hk ▸ (Nat.two_pow_pos k).ne'
    unfold Heap.push_offset
    split
    next hlt => exact ⟨admits_relative hi.layout ho (hlt.resolve_right hcut), ho⟩
    next hge =>
      have hc : h.m_cut ≤ value val := Nat.not_lt.mp fun hlt => hge (.inl hlt)
      have hoffset : h.push_offset val = 0 := if_neg hge
      unfold Heap.Fits at hfits
      rw [hoffset, radix_eq (Nat.zero_le _), Nat.sub_zero] at hfits
      exact ⟨admits_absolute hi.layout ho hc hfits, Nat.zero_le _⟩
  obtain ⟨ha, hoffset⟩ := hadmits
  have hbuckets : (h.push val).m_buckets = _ := insert_spec (h := h) hoffset
  have hcontents : contents (h.push val).m_buckets = val ::ₘ contents h.m_buckets := by
    rw [hbuckets, contents_put (Nat.lt_succ_of_le ha.idx_le)]
  refine ⟨⟨?_, ?_⟩, hcontents, rfl⟩
  · rw [hbuckets]
    exact layout_put hi.layout ha
  · rw [hcontents, Multiset.card_cons]
    show h.m_size + 1 = _
    rw [hi.size]
    rfl

/-- As long as the offset is below the cut, every key fits. -/
theorem fits_of_offset_lt {h : Heap} {val : UInt32} (hi : Inv h) (ho : h.m_offset ≤ value val)
    (hcut : h.m_offset < h.m_cut) : h.Fits val := by
  obtain ⟨k, -, hk, -⟩ := hi.layout.cut
  unfold Heap.Fits Heap.push_offset
  split
  next hlt =>
    have hne : h.m_cut ≠ 0 := hk ▸ (Nat.two_pow_pos k).ne'
    rw [radix_eq ho]
    exact (admits_relative hi.layout ho (hlt.resolve_right hne)).lower
  next hge =>
    have hc : h.m_cut ≤ value val := Nat.not_lt.mp fun hlt => hge (.inl hlt)
    rw [radix_eq (Nat.zero_le _), Nat.sub_zero]
    intro b hb w hw
    rcases Nat.eq_zero_or_pos b with rfl | hb1
    · rw [hi.layout.zero w hw]
      exact ho
    · rcases Nat.lt_or_ge h.m_offset (2 ^ b) with hbo | hbo
      · have hsize := hi.layout.absolute b hb1 hbo w hw
        exact (lt_of_size_lt (hsize.trans_lt hb)).le
      · have hlt := (hi.layout.relative hcut b hb1 hbo w hw).2
        exact (Nat.lt_of_lt_of_le hlt hc).le

theorem top_spec {h : Heap} (hi : Inv h) (hne : contents h.m_buckets ≠ 0) :
    ∃ v h', h.top = some (v, h') ∧ Inv h' ∧ contents h'.m_buckets = contents h.m_buckets ∧
      h'.m_offset = value v ∧ v ∈ contents h.m_buckets ∧ ∀ w ∈ contents h.m_buckets, w ≤ v := by
  obtain ⟨h', v, l, hfill, hi', hc, hv⟩ := fill_spec hi hne
  obtain ⟨hzero, hmem, hmax⟩ := head_max hi' hv
  refine ⟨v, h', ?_, hi', hc, hzero.symm, hc ▸ hmem, hc ▸ hmax⟩
  unfold Heap.top
  rw [hfill]
  simp [hv]

theorem pop_spec {h : Heap} (hi : Inv h) (hne : contents h.m_buckets ≠ 0) :
    ∃ v h', h.pop = some (v, h') ∧ Inv h' ∧
      contents h'.m_buckets = (contents h.m_buckets).erase v ∧ h'.m_offset ≤ value v ∧
      v ∈ contents h.m_buckets ∧ ∀ w ∈ contents h.m_buckets, w ≤ v := by
  obtain ⟨h', v, l, hfill, hi', hc, hv⟩ := fill_spec hi hne
  obtain ⟨hzero, hmem, hmax⟩ := head_max hi' hv
  have hcons : contents h'.m_buckets = v ::ₘ contents (Function.update h'.m_buckets 0 l) := by
    have hu := contents_update (f := h'.m_buckets) (by decide : 0 < 33) l
    rw [hv, ← Multiset.cons_coe, Multiset.add_cons, ← Multiset.cons_add] at hu
    exact (add_right_cancel hu).symm
  have herase : contents (Function.update h'.m_buckets 0 l) = (contents h.m_buckets).erase v := by
    rw [← hc, hcons, Multiset.erase_cons_head]
  have hsize : h'.m_size - 1 = (contents (Function.update h'.m_buckets 0 l)).card := by
    rw [hi'.size, hcons, Multiset.card_cons]
    push_cast
    exact Int.add_sub_cancel _ _
  have htail := layout_tail hi'.layout hv
  unfold Heap.pop
  simp only [hfill, hv, Option.bind_eq_bind, Option.bind_some, Option.some.injEq, Prod.mk.injEq]
  refine ⟨v, _, ⟨rfl, rfl⟩, ?_⟩
  split
  next hlast =>
    -- the last key is gone
    have hempty : contents (Function.update h'.m_buckets 0 l) = 0 := by
      rw [← Multiset.card_eq_zero]
      exact_mod_cast hsize.symm.trans hlast
    have hnil : ∀ b, Function.update h'.m_buckets 0 l b = [] := by
      intro b
      refine List.eq_nil_iff_forall_not_mem.mpr fun w hw => ?_
      have hw' := (mem_contents htail).mpr ⟨b, hw⟩
      rw [hempty] at hw'
      exact Multiset.notMem_zero w hw'
    exact ⟨⟨layout_empty hnil, hsize⟩, herase, Nat.zero_le _, hc ▸ hmem, hc ▸ hmax⟩
  next => exact ⟨⟨htail, hsize⟩, herase, hzero.ge, hc ▸ hmem, hc ▸ hmax⟩

/-! ## 4. Runs -/

/-- A pushed key fits. -/
def Allowed (h : Heap) (op : Op) : Prop := ∀ val, op = .push val → h.Fits val

instance (h : Heap) : ∀ op, Decidable (Allowed h op)
  | .push val => decidable_of_iff (h.Fits val)
    ⟨fun hfits _ hv => Op.push.inj hv ▸ hfits, fun hall => hall val rfl⟩
  | .top => isTrue fun _ hv => by cases hv
  | .pop => isTrue fun _ hv => by cases hv

/-- The heap holds the keys of the queue, and takes whatever may be pushed. -/
structure Follows (q : Plain) (h : Heap) : Prop where
  inv : Inv h
  contents : contents h.m_buckets = q.content
  offset : ∀ val, (∀ k ∈ q.last, val ≤ k) → h.m_offset ≤ value val

namespace RadixHeapLemmas

theorem max_spec {q : Plain} {k : UInt32} (h : q.max = some k) :
    k ∈ q.content ∧ ∀ k' ∈ q.content, k' ≤ k := by
  unfold Plain.max at h
  have hmax := List.find?_some h
  exact ⟨List.mem_of_find?_eq_some h, fun k' hk' =>
    of_decide_eq_true (List.all_eq_true.mp hmax k' hk')⟩

/-- The heap accesses the key that the queue does. -/
theorem max_unique {q : Plain} {h : Heap} {k v : UInt32} (hf : Follows q h) (hk : q.max = some k)
    (hv : v ∈ contents h.m_buckets) (hmax : ∀ w ∈ contents h.m_buckets, w ≤ v) : v = k := by
  obtain ⟨hmem, hle⟩ := max_spec hk
  rw [hf.contents] at hv hmax
  exact UInt32.le_antisymm (hle v hv) (hmax k hmem)

theorem contents_ne_zero {q : Plain} {h : Heap} {k : UInt32} (hf : Follows q h)
    (hk : q.max = some k) : contents h.m_buckets ≠ 0 := by
  intro hzero
  have hmem := (max_spec hk).1
  rw [← Multiset.mem_coe, ← hf.contents, hzero] at hmem
  exact Multiset.notMem_zero k hmem

/-- Every operation does what it does to the queue. -/
theorem next_spec {q q' : Plain} {h : Heap} {op : Op} {out : Option UInt32} (hf : Follows q h)
    (hok : Allowed h op) (hq : q.next op = some (out, q')) :
    ∃ h', next h op = some (out, h') ∧ Follows q' h' := by
  cases op with
  | push val =>
    unfold Plain.next at hq
    dsimp only at hq
    split at hq
    case isFalse => cases hq
    case isTrue hval =>
      cases hq
      have hlast : ∀ k ∈ q.last, val ≤ k := fun k hk =>
        of_decide_eq_true (Option.all_eq_true .. |>.mp hval k hk)
      obtain ⟨hi, hc, ho⟩ := push_spec hf.inv (hf.offset val hlast) (hok val rfl)
      refine ⟨_, rfl, hi, ?_, fun v hv => ?_⟩
      · rw [hc, hf.contents, Multiset.cons_coe]
      · rw [ho]
        exact hf.offset v hv
  | top =>
    obtain ⟨k, hk, he⟩ := Option.map_eq_some_iff.mp hq
    cases he
    obtain ⟨v, h', htop, hi, hc, ho, hv, hmax⟩ := top_spec hf.inv (contents_ne_zero hf hk)
    obtain rfl := max_unique hf hk hv hmax
    refine ⟨h', ?_, hi, hc.trans hf.contents, fun w hw => ?_⟩
    · unfold next
      rw [htop]
      rfl
    · rw [ho]
      exact value_le_iff.mpr (hw v rfl)
  | pop =>
    obtain ⟨k, hk, he⟩ := Option.map_eq_some_iff.mp hq
    cases he
    obtain ⟨v, h', hpop, hi, hc, ho, hv, hmax⟩ := pop_spec hf.inv (contents_ne_zero hf hk)
    obtain rfl := max_unique hf hk hv hmax
    refine ⟨h', ?_, hi, ?_, fun w hw => Nat.le_trans ho (value_le_iff.mpr (hw v rfl))⟩
    · unfold next
      rw [hpop]
      rfl
    · rw [hc, hf.contents, Multiset.coe_erase]

theorem follows_empty : Follows ⟨[], none⟩ Heap.empty := by
  have hzero : contents Heap.empty.m_buckets = 0 := by
    unfold contents
    exact Finset.sum_eq_zero fun _ _ => rfl
  refine ⟨⟨layout_empty fun _ => rfl, ?_⟩, hzero, fun _ _ => Nat.zero_le _⟩
  rw [hzero]
  rfl

end RadixHeapLemmas

/-- As long as every pushed key fits, the heap gives the keys that the plain queue gives. -/
theorem play_plain {ops : List Op} {outs : List (Option UInt32)} {q : Plain}
    (hfits : Along next Allowed Heap.empty ops)
    (hplain : play Plain.next ⟨[], none⟩ ops = some (outs, q)) :
    ∃ h, play next Heap.empty ops = some (outs, h) ∧ contents h.m_buckets = q.content := by
  obtain ⟨h, hplay, hf⟩ := play_simulate (R := Follows)
    (fun _ s i _ _ hr (hok : Allowed s i) hq => next_spec hr hok hq) follows_empty hfits hplain
  exact ⟨h, hplay, hf.contents⟩

/-- Keys pushed between accesses, with the values 8, 10, 14 and 15. -/
theorem play_plain_example :
    ∃ h, play next Heap.empty [.push 0xfffffff7, .push 0xfffffff1, .push 0xfffffff5, .pop,
        .push 0xfffffff0, .top] =
      some ([none, none, none, some 0xfffffff7, none, some 0xfffffff5], h) ∧
      contents h.m_buckets = ([0xfffffff0, 0xfffffff5, 0xfffffff1] : List UInt32) :=
  play_plain (q := ⟨[0xfffffff0, 0xfffffff5, 0xfffffff1], some 0xfffffff5⟩) (by decide +kernel)
    (by decide +kernel)

/-- The keys with the values 8, 10, 14 and, behind 14, 12. -/
def exBehind : List Op :=
  [.push 0xfffffff7, .push 0xfffffff5, .push 0xfffffff1, .top, .pop, .top, .push 0xfffffff3,
    .pop, .top]

theorem exBehind_plain :
    (play Plain.next ⟨[], none⟩ exBehind).map Prod.fst =
      some [none, none, none, some 0xfffffff7, some 0xfffffff7, some 0xfffffff5, none,
        some 0xfffffff5, some 0xfffffff3] := by
  decide +kernel

theorem exBehind_heap :
    (play next Heap.empty exBehind).map Prod.fst =
      some [none, none, none, some 0xfffffff7, some 0xfffffff7, some 0xfffffff5, none,
        some 0xfffffff5, some 0xfffffff1] := by
  decide +kernel

theorem not_play_plain :
    ¬ ∀ (ops : List Op) (outs : List (Option UInt32)) (q : Plain),
      play Plain.next ⟨[], none⟩ ops = some (outs, q) → ∃ h, play next Heap.empty ops = some (outs, h) := by
  intro h
  obtain ⟨⟨outs, q⟩, hq, he⟩ := Option.map_eq_some_iff.mp exBehind_plain
  obtain ⟨s, hs⟩ := h exBehind outs q hq
  have hheap := exBehind_heap
  rw [hs, Option.map_some, Option.some.injEq] at hheap
  subst he
  dsimp only at hheap
  exact absurd hheap (by decide)

end Kuhllib.RadixHeap
