import Kuhllib.Heap.RadixHeap
import Kuhllib.Lib.Iteration

/-!
# `boost::radix_heap`: iteration

An iterator has the index of a bucket and a node, which is a place in the ring of this bucket,
or null at the end. `operator++` looks for the next bucket that is not empty, and leaves its loop
with `break`. The statement behind the loop, which is meant for the end, sets the node to null
in any case.

Results:
1. `counted_run`: after any run the size is the number of keys in the 33 buckets.
2. `walk_begin`: an iteration visits the first bucket that is not empty.
3. `visits_iff`: it visits all nodes exactly if there is no other one.
-/

namespace Kuhllib.RadixHeap

open Iteration RadixHeapLemmas Transition

structure Iterator where
  m_idx : Nat
  m_node : Option Nat
  deriving DecidableEq

/-- `operator==`. -/
def Iterator.eq (it it' : Iterator) : Prop := it.m_node = it'.m_node

/-- The first bucket from `i` on that is not empty. -/
def Heap.scan (h : Heap) (i : Nat) : Option Nat :=
  (List.range' i (33 - i)).find? fun b => h.m_buckets b ≠ []

def Heap.begin (h : Heap) : Option Iterator :=
  if h.m_size = 0 then some ⟨0, none⟩
  else (h.scan 0).map fun b => ⟨b, some 0⟩

def Heap.end (_ : Heap) : Iterator := ⟨0, none⟩

/-- `operator++` at place `p`. The ring of a bucket starts again behind its last node. -/
def Heap.increment (h : Heap) (idx p : Nat) : Iterator :=
  let m_node := (p + 1) % (h.m_buckets idx).length
  if m_node = 0 then
    let it : Iterator :=
      match h.scan (idx + 1) with
      | some b => ⟨b, some 0⟩
      | none => ⟨33, some m_node⟩
    { it with m_node := none }
  else ⟨idx, some m_node⟩

/-- The node of an iterator, and `++it`. -/
def Heap.visit (h : Heap) (it : Iterator) : Option ((Nat × Nat) × Iterator) := do
  let p ← it.m_node
  if p < (h.m_buckets it.m_idx).length then some ((it.m_idx, p), h.increment it.m_idx p) else none

/-- The nodes of a bucket. -/
def Heap.ring (h : Heap) (b : Nat) : List (Nat × Nat) :=
  (List.range (h.m_buckets b).length).map fun p => (b, p)

def Heap.nodes (h : Heap) : List (Nat × Nat) := (List.range 33).flatMap h.ring

/-- From `begin()` exactly `size()` steps lead to `end()`, and every node is visited once. -/
def Visits (h : Heap) : Prop :=
  ∃ it it' ns, h.begin = some it ∧ walk h.visit ns.length it = some (ns, it') ∧ it'.eq h.end ∧
    (ns.length : Int) = h.m_size ∧ ns.Perm h.nodes

def system : System Heap Op where
  init h := h = Heap.empty
  step h l h' := ∃ r, next h l = some (r, h')

/-! ## 1. The size -/

/-- There are 33 buckets, and the size is the number of their keys. -/
structure Counted (h : Heap) : Prop where
  beyond : ∀ b, 33 ≤ b → h.m_buckets b = []
  size : h.m_size = (contents h.m_buckets).card

section

variable {h h' : Heap} {v : UInt32} {offset : Nat}

theorem mask_step_le (n c : Nat) (s : Nat × Nat) : (mask_step n c s).2 ≤ s.2 + n := by
  unfold mask_step
  split
  · exact Nat.le_refl _
  · exact Nat.le_add_right ..

/-- Every key has a bucket, for any offset. -/
theorem radix_lt : radix v offset < 33 := by
  unfold radix intern_radix
  split
  · decide
  · dsimp only
    generalize (value v + 2 ^ 64 - offset) % 2 ^ 64 = x
    -- every mask adds its own number of bits
    have h16 := mask_step_le 16 c16 (x, 1)
    have h8 := (mask_step_le 8 c8 _).trans (Nat.add_le_add_right h16 8)
    have h4 := (mask_step_le 4 c4 _).trans (Nat.add_le_add_right h8 4)
    have h2 := (mask_step_le 2 c2 _).trans (Nat.add_le_add_right h4 2)
    exact Nat.lt_succ_of_le ((mask_step_le 1 c1 _).trans (Nat.add_le_add_right h2 1))

theorem insert_beyond (hb : ∀ b, 33 ≤ b → h.m_buckets b = []) :
    ∀ b, 33 ≤ b → (h.insert v offset).m_buckets b = [] := by
  intro b hle
  have hne : b ≠ radix v offset := fun he => absurd (he ▸ hle) (Nat.not_le.mpr radix_lt)
  exact (Function.update_of_ne hne ..).trans (hb b hle)

theorem insert_card : (contents (h.insert v offset).m_buckets).card =
    (contents h.m_buckets).card + 1 := by
  have hput := contents_put (f := h.m_buckets) (v := v) (radix_lt : radix v offset < 33)
  exact (congrArg Multiset.card hput).trans (Multiset.card_cons ..)

/-- The loop of `reorganize`. -/
theorem insert_list (l : List UInt32) (hb : ∀ b, 33 ≤ b → h.m_buckets b = []) :
    let h' := l.foldl (fun h tmp => h.insert tmp offset) h
    (∀ b, 33 ≤ b → h'.m_buckets b = []) ∧
      (contents h'.m_buckets).card = (contents h.m_buckets).card + l.length ∧
      h'.m_size = h.m_size := by
  induction l generalizing h with
  | nil => exact ⟨hb, rfl, rfl⟩
  | cons v l ih =>
    have hinsert : ∀ b, 33 ≤ b → (h.insert v offset).m_buckets b = [] := insert_beyond hb
    obtain ⟨hbeyond, hcard, hsize⟩ := ih hinsert
    refine ⟨hbeyond, ?_, hsize⟩
    rw [List.foldl_cons, hcard, insert_card, List.length_cons, Nat.add_assoc, Nat.add_comm 1]

theorem update_beyond {idx : Nat} {l : List UInt32} (hidx : idx < 33)
    (hb : ∀ b, 33 ≤ b → h.m_buckets b = []) :
    ∀ b, 33 ≤ b → Function.update h.m_buckets idx l b = [] := fun b hle =>
  (Function.update_of_ne (Nat.ne_of_gt (Nat.lt_of_lt_of_le hidx hle)) ..).trans (hb b hle)

theorem update_card {idx : Nat} (hidx : idx < 33) (l : List UInt32) :
    (contents (Function.update h.m_buckets idx l)).card + (h.m_buckets idx).length =
      (contents h.m_buckets).card + l.length := by
  have hcard := congrArg Multiset.card (contents_update (f := h.m_buckets) hidx l)
  simpa only [Multiset.card_add, Multiset.coe_card] using hcard

theorem counted_push (hc : Counted h) : Counted (h.push v) := by
  refine ⟨insert_beyond hc.beyond, ?_⟩
  show h.m_size + 1 = ((contents (h.insert v (h.push_offset v)).m_buckets).card : Int)
  rw [insert_card, hc.size]
  rfl

theorem counted_reorganize (hc : Counted h) (hr : h.reorganize = some h') : Counted h' := by
  simp only [Heap.reorganize, Option.bind_eq_bind, Option.bind_eq_some_iff] at hr
  obtain ⟨b, hb, hr⟩ := hr
  have hb33 : b < 33 := (List.mem_range'_1.mp (List.mem_of_find?_eq_some hb)).2
  split at hr
  · cases hr
  · next start nodes hsplit =>
    cases hr
    obtain ⟨hbeyond, hcard, hsize⟩ := insert_list (start :: nodes)
      (h := { h with
        m_buckets := Function.update h.m_buckets b []
        m_cut := 2 ^ b % 2 ^ 64
        m_offset := nodes.foldl (fun min tmp => if value tmp < min then value tmp else min)
          (value start) })
      (update_beyond hb33 hc.beyond)
    refine ⟨hbeyond, ?_⟩
    have hsame := update_card (h := h) hb33 []
    rw [hsplit] at hsame
    rw [hsize, hcard, hsame]
    exact hc.size

theorem counted_fill (hc : Counted h) (hr : h.fill = some h') : Counted h' := by
  unfold Heap.fill at hr
  split at hr
  · exact counted_reorganize hc hr
  · cases hr
    exact hc

theorem counted_pop (hc : Counted h) (hr : h.pop = some (v, h')) : Counted h' := by
  simp only [Heap.pop, Option.bind_eq_bind, Option.bind_eq_some_iff] at hr
  obtain ⟨h₁, hh₁, hr⟩ := hr
  have hc₁ := counted_fill hc hh₁
  split at hr
  · cases hr
  · next val nodes hsplit =>
    have hcard := update_card (h := h₁) (show 0 < 33 by decide) nodes
    rw [hsplit, List.length_cons] at hcard
    have hpopped : Counted { h₁ with
        m_buckets := Function.update h₁.m_buckets 0 nodes
        m_size := h₁.m_size - 1 } := by
      refine ⟨update_beyond (by decide) hc₁.beyond, ?_⟩
      show h₁.m_size - 1 = ((contents (Function.update h₁.m_buckets 0 nodes)).card : Int)
      rw [hc₁.size]
      omega
    obtain ⟨-, rfl⟩ := Prod.mk.inj (Option.some.inj hr)
    split
    · exact ⟨hpopped.beyond, hpopped.size⟩
    · exact hpopped

/-- After any run, whatever keys were pushed. -/
theorem counted_run {tr : List Op} (hr : Run system Heap.empty tr h) : Counted h := by
  refine hr.invariant_state (I := Counted) ⟨fun _ _ => rfl, ?_⟩ fun h l h' hc hs => ?_
  · simp [contents, Heap.empty]
  · obtain ⟨r, hs⟩ := hs
    cases l with
    | push val =>
      cases hs
      exact counted_push hc
    | top =>
      obtain ⟨⟨val, h₁⟩, htop, hs⟩ := Option.map_eq_some_iff.mp hs
      cases hs
      simp only [Heap.top, Option.bind_eq_bind, Option.bind_eq_some_iff] at htop
      obtain ⟨h₂, hfill, val', -, heq⟩ := htop
      cases heq
      exact counted_fill hc hfill
    | pop =>
      obtain ⟨⟨val, h₁⟩, hpop, hs⟩ := Option.map_eq_some_iff.mp hs
      cases hs
      exact counted_pop hc hpop

/-! ## 2. One bucket -/

theorem mem_ring {b : Nat} {m : Nat × Nat} :
    m ∈ h.ring b ↔ m.1 = b ∧ m.2 < (h.m_buckets b).length := by
  unfold Heap.ring
  rw [List.mem_map]
  constructor
  · rintro ⟨p, hp, rfl⟩
    exact ⟨rfl, List.mem_range.mp hp⟩
  · rintro ⟨rfl, hp⟩
    exact ⟨m.2, List.mem_range.mpr hp, rfl⟩

theorem nodup_ring (b : Nat) : (h.ring b).Nodup :=
  List.nodup_range.map fun _ _ he => (Prod.mk.inj he).2

theorem mem_nodes {m : Nat × Nat} :
    m ∈ h.nodes ↔ m.1 < 33 ∧ m.2 < (h.m_buckets m.1).length := by
  unfold Heap.nodes
  rw [List.mem_flatMap]
  constructor
  · rintro ⟨b, hb, hm⟩
    obtain ⟨rfl, hp⟩ := mem_ring.mp hm
    exact ⟨List.mem_range.mp hb, hp⟩
  · rintro ⟨hb, hp⟩
    exact ⟨m.1, List.mem_range.mpr hb, mem_ring.mpr ⟨rfl, hp⟩⟩

theorem nodup_nodes : h.nodes.Nodup := by
  refine List.nodup_flatMap.mpr ⟨fun b _ => nodup_ring b, List.nodup_range.imp fun hne => ?_⟩
  intro m hm hm'
  exact hne ((mem_ring.mp hm).1.symm.trans (mem_ring.mp hm').1)

theorem length_nodes : h.nodes.length = (contents h.m_buckets).card := by
  unfold Heap.nodes contents
  rw [List.length_flatMap, Multiset.card_sum]
  exact congrArg List.sum (List.map_congr_left fun b _ => by
    rw [Heap.ring, List.length_map, List.length_range, Multiset.coe_card])

theorem visit_stuck {it : Iterator} (hit : it.m_node = none) : h.visit it = none := by
  rw [Heap.visit, hit]
  rfl

/-- From a place in a ring, the rest of it is visited, and then the node is null. -/
theorem walk_ring {b p k : Nat} (hp : p + (k + 1) = (h.m_buckets b).length) :
    ∃ it, walk h.visit (k + 1) ⟨b, some p⟩ =
        some ((List.range' p (k + 1)).map fun p => (b, p), it) ∧
      it.m_node = none := by
  have hlt : p < (h.m_buckets b).length := hp ▸ Nat.lt_add_of_pos_right (Nat.succ_pos k)
  have hvisit : h.visit ⟨b, some p⟩ = some ((b, p), h.increment b p) := if_pos hlt
  induction k generalizing p with
  | zero =>
    have hlast : (p + 1) % (h.m_buckets b).length = 0 := by
      rw [← hp, Nat.mod_self]
    refine ⟨h.increment b p, walk_cons hvisit rfl, ?_⟩
    unfold Heap.increment
    exact congrArg Iterator.m_node (if_pos hlast)
  | succ k ih =>
    have hnext : p + 1 < (h.m_buckets b).length := by
      rw [← hp]
      exact Nat.add_lt_add_left (Nat.succ_lt_succ (Nat.succ_pos k)) p
    have hincrement : h.increment b p = ⟨b, some (p + 1)⟩ := by
      unfold Heap.increment
      rw [Nat.mod_eq_of_lt hnext]
      exact if_neg (Nat.succ_ne_zero p)
    obtain ⟨it, hwalk, hit⟩ := ih (p := p + 1) (by rw [← hp, Nat.add_right_comm]; rfl) hnext
      (if_pos hnext)
    rw [hincrement] at hvisit
    exact ⟨it, walk_cons hvisit hwalk, hit⟩

theorem scan_zero {b : Nat} (hscan : h.scan 0 = some b) :
    b < 33 ∧ h.m_buckets b ≠ [] ∧ ∀ i, i < b → h.m_buckets i = [] := by
  obtain ⟨hne, hmem, hbefore⟩ := List.find?_range'_eq_some.mp hscan
  refine ⟨(List.mem_range'_1.mp hmem).2, of_decide_eq_true hne, fun i hi => ?_⟩
  simpa using hbefore i (Nat.zero_le i) hi

/-- An iteration visits the first bucket that is not empty. -/
theorem walk_begin (hc : Counted h) (hsize : h.m_size ≠ 0) :
    ∃ b it it', b < 33 ∧ h.m_buckets b ≠ [] ∧ h.begin = some it ∧
      walk h.visit (h.ring b).length it = some (h.ring b, it') ∧ it'.m_node = none := by
  have hne : contents h.m_buckets ≠ 0 := fun he => hsize (by rw [hc.size, he]; rfl)
  obtain ⟨v, hv⟩ := Multiset.exists_mem_of_ne_zero hne
  obtain ⟨j, hj, hvj⟩ := Multiset.mem_sum.mp hv
  have hscan : (h.scan 0).isSome := by
    refine List.find?_isSome.mpr ⟨j, List.mem_range'_1.mpr ⟨Nat.zero_le j, ?_⟩, ?_⟩
    · rw [Nat.zero_add]
      exact Finset.mem_range.mp hj
    · exact decide_eq_true (List.ne_nil_of_mem (Multiset.mem_coe.mp hvj))
  obtain ⟨b, hb⟩ := Option.isSome_iff_exists.mp hscan
  obtain ⟨hb33, hbne, -⟩ := scan_zero hb
  obtain ⟨k, hk⟩ := Nat.exists_eq_succ_of_ne_zero (List.length_pos_of_ne_nil hbne).ne'
  obtain ⟨it, hwalk, hit⟩ := walk_ring (h := h) (b := b) (p := 0) ((Nat.zero_add _).trans hk.symm)
  refine ⟨b, ⟨b, some 0⟩, it, hb33, hbne, ?_, ?_, hit⟩
  · rw [Heap.begin, if_neg hsize, hb]
    rfl
  · rw [Heap.ring, List.length_map, List.length_range, hk, List.range_eq_range']
    exact hwalk

/-! ## 3. All buckets -/

theorem visits_iff_one (hc : Counted h) :
    Visits h ↔ ∀ i j, h.m_buckets i ≠ [] → h.m_buckets j ≠ [] → i = j := by
  have hlt : ∀ i, h.m_buckets i ≠ [] → i < 33 := fun i hi => by
    by_contra hge
    exact hi (hc.beyond i (Nat.not_lt.mp hge))
  by_cases hsize : h.m_size = 0
  · have hnil : h.nodes = [] := by
      refine List.eq_nil_of_length_eq_zero ?_
      rw [length_nodes]
      exact_mod_cast hc.size.symm.trans hsize
    refine iff_of_true ⟨⟨0, none⟩, ⟨0, none⟩, [], if_pos hsize, rfl, rfl, hsize.symm, ?_⟩ ?_
    · rw [hnil]
    · intro i j hi
      have hmem : (i, 0) ∈ h.nodes := mem_nodes.mpr ⟨hlt i hi, List.length_pos_of_ne_nil hi⟩
      rw [hnil] at hmem
      cases hmem
  obtain ⟨b, it, it', hb33, hbne, hbegin, hwalk, hit'⟩ := walk_begin hc hsize
  constructor
  · rintro ⟨it₁, it₁', ns, hbegin₁, hwalk₁, hit₁', -, hperm⟩
    obtain rfl := Option.some.inj (hbegin.symm.trans hbegin₁)
    -- the visited nodes are those of one bucket
    obtain ⟨-, rfl, -⟩ := walk_unique hwalk (visit_stuck hit') hwalk₁ (visit_stuck hit₁')
    have hone : ∀ i, h.m_buckets i ≠ [] → i = b := fun i hi =>
      (mem_ring.mp (hperm.mem_iff.mpr (mem_nodes.mpr
        ⟨hlt i hi, List.length_pos_of_ne_nil hi⟩ : (i, 0) ∈ h.nodes))).1
    exact fun i j hi hj => (hone i hi).trans (hone j hj).symm
  · intro hone
    have hperm : (h.ring b).Perm h.nodes := by
      refine (List.perm_ext_iff_of_nodup (nodup_ring b) nodup_nodes).mpr fun m => ?_
      rw [mem_ring, mem_nodes]
      constructor
      · rintro ⟨rfl, hm⟩
        exact ⟨hb33, hm⟩
      · rintro ⟨-, hm⟩
        obtain rfl := hone m.1 b (List.ne_nil_of_length_pos (Nat.zero_lt_of_lt hm)) hbne
        exact ⟨rfl, hm⟩
    refine ⟨it, it', h.ring b, hbegin, hwalk, hit', ?_, hperm⟩
    rw [hperm.length_eq, length_nodes, hc.size]

/-- After every run an iteration visits all nodes exactly if they are in one bucket. -/
theorem visits_iff {tr : List Op} (hr : Run system Heap.empty tr h) :
    Visits h ↔ ∀ i j, h.m_buckets i ≠ [] → h.m_buckets j ≠ [] → i = j :=
  visits_iff_one (counted_run hr)

theorem run_keys {tr : List Op}
    (hr : (replay (fun h l => (next h l).map Prod.snd) Heap.empty tr).isSome) :
    Run system Heap.empty tr ((replay _ Heap.empty tr).get hr) :=
  run_replay (fun h l h' hs => by
    obtain ⟨⟨r, h₁⟩, hnext, rfl⟩ := Option.map_eq_some_iff.mp hs
    exact ⟨r, hnext⟩) hr

end

/-- All keys are equal to the one at the top. -/
theorem visits_iff_example :
    ∃ h, Run system Heap.empty [.push 0xffffffff, .push 0xffffffff, .top] h ∧
      h.m_size = 2 ∧ Visits h := by
  obtain ⟨h, hrun, hsize, hone⟩ : ∃ h, Run system Heap.empty
      [.push 0xffffffff, .push 0xffffffff, .top] h ∧ h.m_size = 2 ∧
      ∀ i < 33, h.m_buckets i ≠ [] → i = 0 :=
    ⟨_, run_keys (by decide +kernel), by decide +kernel, by decide +kernel⟩
  have hall : ∀ i, h.m_buckets i ≠ [] → i = 0 := by
    intro i hi
    refine hone i ?_ hi
    by_contra hge
    exact hi ((counted_run hrun).beyond i (Nat.not_lt.mp hge))
  exact ⟨h, hrun, hsize, (visits_iff hrun).mpr fun i j hi hj => (hall i hi).trans (hall j hj).symm⟩

/-- One of two keys is visited. -/
theorem not_visits :
    ∃ h, Run system Heap.empty [.push 0xffffffff, .push 0xfffffffe] h ∧ h.m_size = 2 ∧
      h.nodes = [(0, 0), (1, 0)] ∧
      (∃ it it', h.begin = some it ∧ walk h.visit 1 it = some ([(0, 0)], it') ∧ it'.eq h.end) ∧
      ¬ Visits h := by
  obtain ⟨h, hrun, hsize, hnodes, ⟨it, it', hbegin, hwalk, heq⟩, hmem, hmem'⟩ :
      ∃ h, Run system Heap.empty [.push 0xffffffff, .push 0xfffffffe] h ∧ h.m_size = 2 ∧
        h.nodes = [(0, 0), (1, 0)] ∧
        (∃ it it', h.begin = some it ∧ walk h.visit 1 it = some ([(0, 0)], it') ∧ it'.eq h.end) ∧
        h.m_buckets 0 ≠ [] ∧ h.m_buckets 1 ≠ [] :=
    ⟨_, run_keys (by decide +kernel), by decide +kernel, by decide +kernel,
      ⟨⟨0, some 0⟩, ⟨1, none⟩, by decide +kernel, by decide +kernel, rfl⟩,
      by decide +kernel, by decide +kernel⟩
  refine ⟨h, hrun, hsize, hnodes, ⟨it, it', hbegin, hwalk, heq⟩, fun hall => ?_⟩
  exact absurd ((visits_iff_one (counted_run hrun)).mp hall 0 1 hmem hmem') (by decide)

end Kuhllib.RadixHeap
