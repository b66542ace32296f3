import Kuhllib.Heap.SplayHeap

/-!
# `boost::splay_heap`: `change_top` and `remove`

`change_top` takes the node of the root out of the tree and inserts it with its new value. Its
left and its next link still point to what was below and behind it.

Results:
1. `remove_spec`: `remove` takes a node out, and leaves the size.
2. `agrees_iff_fits`: when `change_top` does what `change` does for the node at the top.
3. `change_top_agrees_iff`: the same for all calls of a run.
-/

namespace Kuhllib.SplayHeap

open HandleQueue LinkedTree Transition SplayHeapLemmas

variable {α T : Type} [DecidableEq α]

section

variable {m_compare : T → T → Bool} [IsStrictWeakOrder T (m_compare · ·)] {s : Heap α T}
  {t : NodeTree α} {n : α} {val : T}

/-! ## 1. `remove` -/

/-- The node goes out of the tree and of the nodes; the size stays. -/
theorem remove_spec (h : Inv m_compare s t) (hn : n ∈ s.nodes) :
    ∃ s' t', s.remove m_compare n = some s' ∧ Inv m_compare s' t' ∧
      s'.entries = s.entries.remove n ∧ s'.nodes = s.nodes.erase n ∧ s'.m_size = s.m_size := by
  obtain ⟨s₁, t₁, hs₁, hlinks, -, hlinked, hsorted, hperm⟩ :=
    detach_spec h.linked h.sorted (nodup_tree h) (h.nodes.mem_iff.mpr hn)
      (Nat.le_of_eq h.nodes.length_eq)
  have hn₁ : n ∈ s₁.nodes := hlinks.nodes ▸ hn
  refine ⟨{ s₁ with nodes := s₁.nodes.erase n }, t₁, ?_, ⟨hlinked, hsorted, ?_, ?_⟩, ?_, ?_,
    hlinks.m_size⟩
  · simp only [Heap.remove, hs₁, Heap.delete, if_pos hn₁, Option.bind_eq_bind, Option.bind_some]
  · rw [hlinks.nodes]
    exact ((hperm.symm.trans h.nodes).trans (List.perm_cons_erase hn)).cons_inv
  · exact (hlinks.nodes ▸ h.nodup).erase n
  · show HandleQueue.entries (s₁.nodes.erase n) s₁.m_data = _
    rw [hlinks.nodes, hlinks.m_data]
    exact entries_remove s.nodes s.m_data n
  · exact congrArg (List.erase · n) hlinks.nodes

/-! ## 2. The node of the root once more -/

namespace SplayChangeTopLemmas

/-- What an insertion does not write: a location that is in use, unless it is that of a chain
and there is an equivalent node. -/
theorem insert_keep (h : Linked s.cell m_root t) (hs : Sorted (s.less m_compare) t.classes)
    (hfuel : t.nodes.length ≤ s.nodes.length) (n : α) :
    ∃ s', s.insert m_compare n = some s' ∧ Links s s' ∧
      ∀ j, s.cell j ≠ none →
        (∀ x, j = .next x → ∀ y ∈ t.nodes, s.less m_compare y n ∨ s.less m_compare n y) →
        s'.cell j = s.cell j := by
  obtain ⟨k, C, u, hk, hp⟩ := descend_spec h hs (Nat.lt_succ_of_le hfuel) n
  cases u with
  | leaf =>
    have hnone : s.cell k = none := hp.sub
    refine ⟨s.assign k (some n), ?_, ⟨rfl, rfl, rfl⟩, fun j hj _ => cell_assign_of_ne ?_⟩
    · simp only [Heap.insert, hk, hnone, Option.bind_eq_bind, Option.bind_some]
    · rintro rfl
      exact hj hnone
  | node a m c b =>
    have hm : m ∈ t.nodes := by
      rw [hp.tree, (nodes_plug C _).mem_iff, nodes_node]
      simp
    have hequiv := hp.equivalent a m c b rfl
    refine ⟨(s.assign (.next n) (s.cell (.next m))).assign (.next m) (some n), ?_, ⟨rfl, rfl, rfl⟩,
      fun j _ hj => ?_⟩
    · simp only [Heap.insert, hk, hp.sub.1, Option.bind_eq_bind, Option.bind_some]
    · have hne : ∀ x, j ≠ .next x := fun x he => (hj x he m hm).elim hequiv.1 hequiv.2
      exact (cell_assign_of_ne (hne m)).trans (cell_assign_of_ne (hne n))

omit [IsStrictWeakOrder T (m_compare · ·)] in
/-- Beside an equivalent root the next link of the node is overwritten. -/
theorem insert_clear {m : α} (hroot : s.cell m_root = some m) (hmn : m ≠ n)
    (hless : ¬ s.less m_compare m n) (hless' : ¬ s.less m_compare n m) :
    (s.assign (.next n) none).insert m_compare n = s.insert m_compare n := by
  have hdescend : ∀ s' : Heap α T, s'.cell m_root = some m → s'.m_data = s.m_data →
      s'.descend m_compare n (s'.nodes.length + 1) m_root = some m_root := by
    intro s' hroot' hdata
    simp only [Heap.descend, hroot', hdata]
    exact (if_neg hless).trans (if_neg hless')
  have hroot' : (s.assign (.next n) none).cell m_root = some m :=
    (cell_assign_of_ne (by simp)).trans hroot
  have hnext : (s.assign (.next n) none).cell (.next m) = s.cell (.next m) :=
    cell_assign_of_ne (by simpa using hmn)
  simp only [Heap.insert, hdescend s hroot rfl, hdescend _ hroot' rfl, hroot, hroot', hnext,
    Option.bind_eq_bind, Option.bind_some]
  simp only [Heap.assign, Function.update_idem]

omit [IsStrictWeakOrder T (m_compare · ·)] in
/-- The links of the node of the root, and those that point to what was below it. -/
theorem unroot_cells {a : NodeTree α} {c : List α} (h : Inv m_compare s (.node a n c .leaf)) :
    (∀ j, j.owner = some n → (s.unroot n).cell j = s.cell j) ∧
      (c = [] → (s.unroot n).cell m_root = s.cell (.left n)) ∧
      ∀ m c', c = m :: c' → (s.unroot n).cell m_root = some m ∧ m ≠ n ∧
        s.cell (.next n) = some m ∧ (s.unroot n).cell (.left m) = s.cell (.left n) := by
  obtain ⟨-, -, hc, -⟩ := h.linked
  have hnodup := nodup_tree h
  rw [nodes_node] at hnodup
  cases c with
  | nil =>
    rw [unroot_of_last hc]
    refine ⟨fun j hj => cell_assign_of_ne ?_, fun _ => by simp [Heap.assign], fun m c' he => ?_⟩
    · rintro rfl
      cases hj
    · cases he
  | cons m c =>
    have hmn : m ≠ n := by
      rintro rfl
      exact (List.nodup_cons.mp (List.nodup_append.mp hnodup).2.1).1 (by simp)
    rw [unroot_of_next hc.1]
    refine ⟨fun j hj => ?_, fun he => absurd he (List.cons_ne_nil m c), ?_⟩
    · refine (cell_assign_of_ne ?_).trans ((cell_assign_of_ne ?_).trans (cell_assign_of_ne ?_))
      · exact Loc.ne_of_owner hj rfl hmn.symm
      · exact Loc.ne_of_owner hj rfl hmn.symm
      · rintro rfl
        cases hj
    · rintro m' c' he
      cases he
      exact ⟨by simp [Heap.assign], hmn, hc.1, by simp [Heap.assign]⟩

end SplayChangeTopLemmas

/-- `change_top(val)` leaves a tree that holds what `change` leaves, where it is called for the
node that `top()` takes its value from. -/
def Agrees (m_compare : T → T → Bool) (s : Heap α T) (val : T) : Prop :=
  ∃ s' t', s.change_top m_compare val = some s' ∧ Inv m_compare s' t' ∧
    ∃ s₁ n s₂, s.top = some (s.m_data n, s₁) ∧ s₁.cell m_root = some n ∧
      s₁.change m_compare n val = some s₂ ∧ s'.entries = s₂.entries ∧ s'.m_size = s₂.m_size

/-- There is one element only, or all elements are equivalent to the new value. -/
def Fits (m_compare : T → T → Bool) (s : Heap α T) (val : T) : Prop :=
  s.nodes.length = 1 ∨
    ∀ x ∈ s.nodes, m_compare (s.m_data x) val = false ∧ m_compare val (s.m_data x) = false

namespace SplayChangeTopLemmas

/-- The heap `s₂` without the node `n`, which has the new value. `s₁` is the heap with `n` at
the root. -/
structure TakenTop (m_compare : T → T → Bool) (s : Heap α T) (val : T) (s₁ : Heap α T)
    (a : NodeTree α) (n : α) (c : List α) (s₂ : Heap α T) (t₂ : NodeTree α) : Prop
    extends Links s s₁ where
  splay : s.splay_max m_root = some s₁
  inv : Inv m_compare s₁ (.node a n c .leaf)
  max : s.entries.IsMax m_compare (n, s.m_data n)
  taken : s₂ = { s₁.unroot n with m_data := Function.update (s₁.unroot n).m_data n val }
  insert : s.change_top m_compare val = s₂.insert m_compare n
  links : Links s₁ (s₁.unroot n)
  linked : Linked s₂.cell m_root t₂
  sorted : Sorted (s₂.less m_compare) t₂.classes
  perm : s.nodes.Perm (n :: t₂.nodes)

theorem takenTop (h : Inv m_compare s t) (hne : s.nodes ≠ []) (val : T) :
    ∃ s₁ a n c s₂ t₂, TakenTop m_compare s val s₁ a n c s₂ t₂ := by
  obtain ⟨s₁, a, n, c, hs₁, hlinks, hinv, -, hmax⟩ := root_spec h hne
  obtain ⟨t₂, hlinked, hlinks₂, hsorted, hperm⟩ := unroot_spec hinv
  rw [← less_of_links hlinks₂] at hsorted
  have hn₂ : n ∉ t₂.nodes :=
    (List.nodup_cons.mp (hperm.nodup_iff.mp hinv.nodup)).1
  refine ⟨s₁, a, n, c, _, t₂, hlinks, hs₁, hinv, hmax, rfl, ?_, hlinks₂, hlinked,
    sorted_update hsorted hn₂ _ rfl, hlinks.nodes ▸ hperm⟩
  simp only [Heap.change_top, hs₁, hinv.linked.1, Option.bind_eq_bind, Option.bind_some]

variable {s₁ s₂ : Heap α T} {a t₂ : NodeTree α} {c : List α}

omit [IsStrictWeakOrder T (m_compare · ·)] in
theorem TakenTop.nodes_eq (h : TakenTop m_compare s val s₁ a n c s₂ t₂) : s₂.nodes = s.nodes := by
  rw [h.taken]
  exact h.links.nodes.trans h.nodes

omit [IsStrictWeakOrder T (m_compare · ·)] in
theorem TakenTop.data_eq (h : TakenTop m_compare s val s₁ a n c s₂ t₂) :
    s₂.m_data = Function.update s.m_data n val := by
  rw [h.taken]
  show Function.update (s₁.unroot n).m_data n val = _
  rw [h.links.m_data, h.m_data]

omit [IsStrictWeakOrder T (m_compare · ·)] in
theorem TakenTop.length_le (h : TakenTop m_compare s val s₁ a n c s₂ t₂) :
    t₂.nodes.length ≤ s₂.nodes.length := by
  rw [h.nodes_eq, h.perm.length_eq]
  exact Nat.le_succ _

omit [IsStrictWeakOrder T (m_compare · ·)] in
theorem TakenTop.not_mem (h : TakenTop m_compare s val s₁ a n c s₂ t₂) : n ∉ t₂.nodes :=
  (List.nodup_cons.mp (h.perm.nodup_iff.mp (h.nodes ▸ h.inv.nodup))).1

omit [IsStrictWeakOrder T (m_compare · ·)] in
/-- The cells are those of the heap whose root goes out. -/
theorem TakenTop.cells (h : TakenTop m_compare s val s₁ a n c s₂ t₂) :
    (∀ j, j.owner = some n → s₂.cell j = s₁.cell j) ∧
      (c = [] → s₂.cell m_root = s₁.cell (.left n)) ∧
      ∀ m c', c = m :: c' → s₂.cell m_root = some m ∧ m ≠ n ∧ s₁.cell (.next n) = some m ∧
        s₂.cell (.left m) = s₁.cell (.left n) := by
  have hcells := unroot_cells h.inv
  have hcell : s₂.cell = (s₁.unroot n).cell := by rw [h.taken]
  rw [hcell]
  exact hcells

omit [IsStrictWeakOrder T (m_compare · ·)] in
/-- The nodes below the root are less than those of its class. -/
theorem TakenTop.below (h : TakenTop m_compare s val s₁ a n c s₂ t₂) :
    (∀ x ∈ a.nodes, m_compare (s.m_data x) (s.m_data n) = true) ∧
      (∀ x, x ∈ s.nodes ↔ x ∈ a.nodes ∨ x = n ∨ x ∈ c) ∧
      ∀ x ∈ c, m_compare (s.m_data x) (s.m_data n) = false ∧
        m_compare (s.m_data n) (s.m_data x) = false := by
  have hsorted : Sorted (s.less m_compare) (a.classes ++ (n :: c) :: []) := by
    have hs := h.inv.sorted
    rw [less_of_links h.toLinks] at hs
    exact hs
  obtain ⟨-, hwithin, hleft, -⟩ := sorted_append_cons.mp hsorted
  refine ⟨fun x hx => hleft x hx n List.mem_cons_self, fun x => ?_, fun x hx => ⟨?_, ?_⟩⟩
  · rw [← h.nodes, ← h.inv.nodes.mem_iff, nodes_node]
    simp
  · exact Bool.eq_false_iff.mpr (hwithin x (List.mem_cons_of_mem n hx) n List.mem_cons_self)
  · exact Bool.eq_false_iff.mpr (hwithin n List.mem_cons_self x (List.mem_cons_of_mem n hx))

/-- Where the new value fits, nothing is below the root. -/
theorem TakenTop.no_left (h : TakenTop m_compare s val s₁ a n c s₂ t₂)
    (hfits : Fits m_compare s val) : a = .leaf := by
  obtain ⟨hless, hmem, -⟩ := h.below
  cases a with
  | leaf => rfl
  | node a' r c' b' =>
    have hr : r ∈ (NodeTree.node a' r c' b').nodes := by simp
    rcases hfits with hone | hall
    · have hlength := h.inv.nodes.length_eq
      rw [h.nodes, hone, nodes_node, nodes_node] at hlength
      simp only [List.length_append, List.length_cons] at hlength
      omega
    · have hrv := hall r ((hmem r).mpr (.inl hr))
      have hnv := hall n ((hmem n).mpr (.inr (.inl rfl)))
      refine absurd (hless r hr) ?_
      exact @HeapOrder.not_lt_trans _ (m_compare · ·) _ _ _ _ (Bool.eq_false_iff.mp hrv.1)
        (Bool.eq_false_iff.mp hnv.2)

/-- Without links the node can be inserted. -/
theorem TakenTop.insert_free (h : TakenTop m_compare s val s₁ a n c s₂ t₂) (s₃ : Heap α T)
    (hlinks : Links s₂ s₃) (hcell : ∀ j, j ≠ .next n → s₃.cell j = s₂.cell j)
    (hfree : Free s₃ n) :
    ∃ s' t', s₃.insert m_compare n = some s' ∧ Inv m_compare s' t' ∧
      s'.entries = s.entries.set n val ∧ s'.m_size = s.m_size := by
  have hlinked : Linked s₃.cell m_root t₂ := by
    refine h.linked.move (hcell _ (by simp)) fun j x hx hj => hcell j (Loc.ne_of_owner hj rfl ?_)
    rintro rfl
    exact h.not_mem hx
  have hsorted : Sorted (s₃.less m_compare) t₂.classes := less_of_links hlinks ▸ h.sorted
  have hnodup := (List.nodup_cons.mp (h.perm.nodup_iff.mp (h.nodes ▸ h.inv.nodup))).2
  obtain ⟨s', t', hs', hlinks', hlinked', hsorted', hperm'⟩ :=
    insert_spec hlinked hsorted hnodup h.not_mem hfree (hlinks.nodes ▸ h.length_le)
  have hnodes : s'.nodes = s.nodes := (hlinks'.nodes.trans hlinks.nodes).trans h.nodes_eq
  refine ⟨s', t', hs', ⟨hlinked', hsorted', ?_, ?_⟩, ?_, ?_⟩
  · rw [hnodes]
    exact hperm'.trans h.perm.symm
  · rw [hnodes, ← h.nodes]
    exact h.inv.nodup
  · rw [Heap.entries, hnodes, hlinks'.m_data, hlinks.m_data, h.data_eq]
    exact entries_set s.nodes s.m_data n val
  · rw [hlinks'.m_size, hlinks.m_size, h.taken]
    exact h.links.m_size.trans h.m_size

theorem change_top_fits (h : TakenTop m_compare s val s₁ a n c s₂ t₂)
    (hfits : Fits m_compare s val) :
    ∃ s' t', s.change_top m_compare val = some s' ∧ Inv m_compare s' t' ∧
      s'.entries = s.entries.set n val ∧ s'.m_size = s.m_size := by
  obtain ⟨hown, -, hclass⟩ := h.cells
  obtain ⟨-, hleft, hnext, hright⟩ := h.inv.linked
  rw [h.no_left hfits] at hleft
  rw [h.insert]
  cases c with
  | nil =>
    refine h.insert_free s₂ ⟨rfl, rfl, rfl⟩ (fun _ _ => rfl) ⟨?_, ?_, ?_⟩
    · exact (hown _ rfl).trans hleft
    · exact (hown _ rfl).trans hright
    · exact (hown _ rfl).trans hnext
  | cons m c =>
    obtain ⟨hroot, hmn, -⟩ := hclass m c rfl
    have hmem := (h.below.2.1 m).mpr (.inr (.inr List.mem_cons_self))
    have hall : ∀ x ∈ s.nodes, m_compare (s.m_data x) val = false ∧
        m_compare val (s.m_data x) = false := by
      refine hfits.resolve_left fun hone => ?_
      have hlength := h.inv.nodes.length_eq
      rw [h.nodes, hone, nodes_node] at hlength
      simp only [List.length_append, List.length_cons] at hlength
      omega
    -- the root is equivalent to the new value
    have hm : s₂.m_data m = s.m_data m := by
      rw [h.data_eq, Function.update_of_ne hmn]
    have hn : s₂.m_data n = val := by
      rw [h.data_eq, Function.update_self]
    rw [← insert_clear hroot hmn (by rw [Heap.less, hm, hn, (hall m hmem).1]; simp)
      (by rw [Heap.less, hm, hn, (hall m hmem).2]; simp)]
    refine h.insert_free _ ⟨rfl, rfl, rfl⟩ (fun j hj => cell_assign_of_ne hj) ⟨?_, ?_, ?_⟩
    · exact (cell_assign_of_ne (by simp)).trans ((hown _ rfl).trans hleft)
    · exact (cell_assign_of_ne (by simp)).trans ((hown _ rfl).trans hright)
    · simp [Heap.assign]

/-- Otherwise two links point to the same node. -/
theorem change_top_twice (h : TakenTop m_compare s val s₁ a n c s₂ t₂)
    (hfits : ¬ Fits m_compare s val) :
    ∃ s' j k x, s.change_top m_compare val = some s' ∧ s'.nodes = s.nodes ∧ j ≠ k ∧
      Within m_root s.nodes j ∧ Within m_root s.nodes k ∧ s'.cell j = some x ∧
      s'.cell k = some x := by
  obtain ⟨hown, hone, hclass⟩ := h.cells
  obtain ⟨hless, hmem, hequiv⟩ := h.below
  obtain ⟨-, hleft, hnext, hright⟩ := h.inv.linked
  obtain ⟨s', hs', hlinks, hkeep⟩ := insert_keep h.linked h.sorted h.length_le n
  have hnodes : s'.nodes = s.nodes := hlinks.nodes.trans h.nodes_eq
  have hwithin (x : α) (hx : x ∈ s.nodes) (j : Loc Variable α) (hj : j.owner = some x) :
      Within m_root s.nodes j := .inr ⟨x, hx, hj⟩
  have hn := (hmem n).mpr (.inr (.inl rfl))
  rw [h.insert]
  -- a location in use that is none of a chain is not written
  have hstay (j : Loc Variable α) (x : α) (hj : s₂.cell j = some x) (hnot : ∀ y, j ≠ .next y) :
      s'.cell j = some x :=
    (hkeep j (by rw [hj]; simp) fun y he => absurd he (hnot y)).trans hj
  cases a with
  | node a' r c' b' =>
    -- the left subtree is below the node and below the new root
    have hln : s₂.cell (.left n) = some r := (hown _ rfl).trans hleft.1
    cases c with
    | nil =>
      exact ⟨s', .left n, m_root, r, hs', hnodes, by simp, hwithin n hn _ rfl, .inl rfl,
        hstay _ _ hln (by simp), hstay _ _ ((hone rfl).trans hleft.1) (by simp)⟩
    | cons m c =>
      obtain ⟨-, hmn, -, hlm⟩ := hclass m c rfl
      exact ⟨s', .left n, .left m, r, hs', hnodes, by simpa using hmn.symm, hwithin n hn _ rfl,
        hwithin m ((hmem m).mpr (.inr (.inr List.mem_cons_self))) _ rfl,
        hstay _ _ hln (by simp), hstay _ _ (hlm.trans hleft.1) (by simp)⟩
  | leaf =>
    have hclassmem : ∀ x ∈ s.nodes, x = n ∨ x ∈ c := fun x hx => by simpa using (hmem x).mp hx
    cases c with
    | nil =>
      refine absurd (.inl ?_) hfits
      have hlength := h.inv.nodes.length_eq
      rw [h.nodes] at hlength
      exact hlength.symm
    | cons m c =>
      -- no node is equivalent to the new value, and the root is still the next one
      obtain ⟨hroot, hmn, hnextn, -⟩ := hclass m c rfl
      have hnn : s₂.cell (.next n) = some m := (hown _ rfl).trans hnextn
      have hval : ∀ y ∈ t₂.nodes, s₂.less m_compare y n ∨ s₂.less m_compare n y := by
        intro y hy
        have hyn : y ≠ n := fun he => h.not_mem (he ▸ hy)
        have hys : y ∈ s.nodes := h.perm.mem_iff.mpr (List.mem_cons_of_mem n hy)
        rw [Heap.less, Heap.less, h.data_eq, Function.update_self, Function.update_of_ne hyn]
        by_contra hno
        obtain ⟨hno₁, hno₂⟩ := not_or.mp hno
        refine hfits (.inr fun x hx => ?_)
        have hsame : ∀ x ∈ s.nodes, m_compare (s.m_data x) (s.m_data n) = false ∧
            m_compare (s.m_data n) (s.m_data x) = false := by
          intro x hx
          rcases hclassmem x hx with rfl | hx
          · exact ⟨Bool.eq_false_iff.mpr (irrefl (r := (m_compare · ·)) _),
              Bool.eq_false_iff.mpr (irrefl (r := (m_compare · ·)) _)⟩
          · exact hequiv x hx
        have htrans {x y z : T} (h₁ : m_compare x y = false) (h₂ : m_compare y z = false) :
            m_compare x z = false := Bool.eq_false_iff.mpr <|
          @HeapOrder.not_lt_trans _ (m_compare · ·) _ _ _ _ (Bool.eq_false_iff.mp h₁)
            (Bool.eq_false_iff.mp h₂)
        obtain ⟨hxn, hnx⟩ := hsame x hx
        obtain ⟨hyn', hny⟩ := hsame y hys
        exact ⟨htrans (htrans hxn hny) (Bool.eq_false_iff.mpr hno₁),
          htrans (Bool.eq_false_iff.mpr hno₂) (htrans hyn' hnx)⟩
      refine ⟨s', .next n, m_root, m, hs', hnodes, by simp, hwithin n hn _ rfl, .inl rfl, ?_,
        hstay _ _ hroot (by simp)⟩
      exact (hkeep _ (by rw [hnn]; simp) fun _ _ => hval).trans hnn

end SplayChangeTopLemmas

open SplayChangeTopLemmas

theorem agrees_iff_fits (h : Inv m_compare s t) (hne : s.nodes ≠ []) (val : T) :
    Agrees m_compare s val ↔ Fits m_compare s val := by
  obtain ⟨s₁, a, n, c, s₂, t₂, htaken⟩ := takenTop h hne val
  constructor
  · rintro ⟨s', t', hs', hinv, -⟩
    by_contra hfits
    obtain ⟨s'', j, k, x, hs'', hnodes, hjk, hj, hk, hjx, hkx⟩ := change_top_twice htaken hfits
    obtain rfl := Option.some.inj (hs'.symm.trans hs'')
    have hwithin {j : Loc Variable α} (hj : Within m_root s.nodes j) :
        Within m_root t'.nodes j :=
      hj.imp_right fun ⟨y, hy, ho⟩ => ⟨y, hinv.nodes.mem_iff.mpr (hnodes ▸ hy), ho⟩
    exact hjk (hinv.linked.unique (nodup_tree hinv) (hwithin hj) (hwithin hk) hjx hkx)
  · intro hfits
    obtain ⟨s', t', hs', hinv, hentries, hsize⟩ := change_top_fits htaken hfits
    have hn : n ∈ s₁.nodes := htaken.nodes ▸ (mem_entries.mp htaken.max.1).1
    obtain ⟨s₃, -, hs₃, -, hentries₃, -, hsize₃⟩ := change_spec htaken.inv hn val
    refine ⟨s', t', hs', hinv, s₁, n, s₃, ?_, htaken.inv.linked.1, hs₃, ?_, ?_⟩
    · simp only [Heap.top, htaken.splay, htaken.inv.linked.1, htaken.m_data, Option.bind_eq_bind,
        Option.bind_some]
    · rw [hentries, hentries₃, Heap.entries, Heap.entries, htaken.nodes, htaken.m_data]
    · rw [hsize, hsize₃, htaken.m_size]

/-! ## 3. Runs -/

/-- Where every `change_top` leaves a tree, all operations do. -/
theorem inv_prefix {s₀ : Heap α T} {tr : List (Label α T)} (h₀ : (system α m_compare).init s₀)
    (hok : ∀ p s val, p ++ [.change_top val] <+: tr → Run (system α m_compare) s₀ p s →
      s.nodes ≠ [] → ∀ t, Inv m_compare s t → Agrees m_compare s val) :
    ∀ p s, p <+: tr → Run (system α m_compare) s₀ p s → ∃ t, Inv m_compare s t := by
  intro p s hp hr
  induction hr with
  | nil => exact ⟨_, (inv_initial h₀).1⟩
  | @snoc q s s' l hr hs ih =>
    obtain ⟨t, hinv⟩ := ih ((List.prefix_append q [l]).trans hp)
    obtain ⟨hv, hs⟩ := Option.ite_none_right_eq_some.mp hs
    by_cases hplain : Plain l
    · obtain ⟨s'', t'', hs'', hinv', -⟩ := exec_spec hinv hv hplain
      exact ⟨t'', Option.some.inj (hs.symm.trans hs'') ▸ hinv'⟩
    · cases l with
      | change_top val =>
        obtain ⟨s'', t'', hs'', hinv', -⟩ := hok q s val hp hr hv t hinv
        exact ⟨t'', Option.some.inj (hs.symm.trans hs'') ▸ hinv'⟩
      | remove n =>
        obtain ⟨s'', t'', hs'', hinv', -⟩ := remove_spec hinv hv
        exact ⟨t'', Option.some.inj (hs.symm.trans hs'') ▸ hinv'⟩
      | _ => exact absurd trivial hplain

/-- All calls of `change_top` in a run do what `change` does for the node at the top, and
leave a tree, exactly if each of them fits. -/
theorem change_top_agrees_iff {s₀ : Heap α T} (h₀ : (system α m_compare).init s₀)
    (tr : List (Label α T)) :
    (∀ p s val, p ++ [.change_top val] <+: tr → Run (system α m_compare) s₀ p s →
      s.nodes ≠ [] → Agrees m_compare s val) ↔
    ∀ p s val, p ++ [.change_top val] <+: tr → Run (system α m_compare) s₀ p s →
      s.nodes ≠ [] → Fits m_compare s val := by
  constructor
  · intro hall p s val hp hr hne
    obtain ⟨t, hinv⟩ := inv_prefix h₀ (fun p s val hp hr hne _ _ => hall p s val hp hr hne) p s
      ((List.prefix_append p _).trans hp) hr
    exact (agrees_iff_fits hinv hne val).mp (hall p s val hp hr hne)
  · intro hall p s val hp hr hne
    obtain ⟨t, hinv⟩ := inv_prefix h₀ (fun p s val hp hr hne t hinv =>
      (agrees_iff_fits hinv hne val).mpr (hall p s val hp hr hne)) p s
      ((List.prefix_append p _).trans hp) hr
    exact (agrees_iff_fits hinv hne val).mpr (hall p s val hp hr hne)

end

def exEmpty : Heap Nat Nat := ⟨[], fun _ => none, fun _ => 0, 0⟩

/-- The only element gets a greater value. -/
theorem change_top_agrees_iff_example : ∃ s : Heap Nat Nat,
    Run (system Nat fun x y => decide (x < y)) exEmpty [.push 0 4] s ∧ s.nodes ≠ [] ∧
      Agrees (fun x y => decide (x < y)) s 7 := by
  have hrun := run_replay (S := system Nat fun x y => decide (x < y)) (fun _ _ _ => id)
    (show (replay (next fun x y => decide (x < y)) exEmpty [.push 0 4]).isSome by decide)
  refine ⟨_, hrun, by decide, (change_top_agrees_iff (⟨rfl, rfl, rfl⟩ :
    (system Nat fun x y => decide (x < y)).init exEmpty) [.push 0 4, .change_top 7]).mpr
    (fun p s val hp hr _ => .inl ?_) [.push 0 4] _ 7 (List.prefix_refl _) hrun (by decide)⟩
  obtain ⟨rest, hp⟩ := hp
  match p with
  | [] => cases hp
  | [l] =>
    cases hp
    have hs := hr.single_step
    obtain rfl := Option.some.inj hs
    rfl
  | _ :: _ :: p => simp at hp

/-- The top of two elements gets a greater value. -/
theorem not_agrees : ¬ ∀ (s : Heap Nat Nat) (tr : List (Label Nat Nat)) (val : Nat),
    Run (system Nat fun x y => decide (x < y)) exEmpty tr s → s.nodes ≠ [] →
    Agrees (fun x y => decide (x < y)) s val := by
  intro hall
  have hrun := run_replay (S := system Nat fun x y => decide (x < y)) (fun _ _ _ => id)
    (show (replay (next fun x y => decide (x < y)) exEmpty [.push 0 1, .push 1 2]).isSome by decide)
  obtain ⟨t, hinv⟩ := inv_prefix ⟨rfl, rfl, rfl⟩ (fun p s val hp => by
    have hl := hp.subset (List.mem_append_right p (List.mem_singleton_self _))
    simp at hl) _ _ (List.prefix_refl _) hrun
  have hfits := (agrees_iff_fits hinv (by decide) 3).mp (hall _ _ 3 hrun (by decide))
  revert hfits
  unfold Fits
  decide

end Kuhllib.SplayHeap
