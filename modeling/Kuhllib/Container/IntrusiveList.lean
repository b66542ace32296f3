import Kuhllib.Lib.Ring
import Kuhllib.Lib.Transition
import Mathlib.Data.List.Nodup

/-!
# `nstd::container::intrusive_list`

The list owns a head of the element type; an element carries its own two
links. All lists and elements share one memory, so an element is erased
without knowing its list. A list is named by the address of its head.

`insert`, `erase`, `push_back` and `pop_front` are the code, assignment by
assignment. `Seqs` is what the lists are for: ordinary sequences. A state of
`system` pairs the memory with the sequences obtained by the same operations,
and `Inv` ties the two together.

Results:
1. `insert_eq`, `erase_eq`: the code is insertion into, removal from, a ring.
2. `inv_step`: every operation keeps `Inv`.
3. `refines_seqs`: what `Inv` gives after any sequence of operations.
4. `fresh_node_not_self_linked`: a node that was never inserted need not be
   linked to itself.
-/

namespace Kuhllib.IntrusiveList

open Ring Transition

variable {ι α : Type} [DecidableEq α]

/-! ## The code -/

/-- `connect(prev, next)`. -/
def connect (L : Links α) (prev next : α) : Links α where
  next := Function.update L.next prev next
  prev := Function.update L.prev next prev

/-- `insert(pos, obj)`: the links and the returned iterator. -/
def insert (L : Links α) (pos obj : α) : Links α × α :=
  -- obj_link.d_next = &*pos; obj_link.d_prev = next_link.d_prev;
  let L₁ := { L with next := Function.update L.next obj pos }
  let L₂ := { L₁ with prev := Function.update L₁.prev obj (L₁.prev pos) }
  -- next_link.d_prev = &obj; link(*obj_link.d_prev).d_next = &obj;
  let L₃ := { L₂ with prev := Function.update L₂.prev pos obj }
  let L₄ := { L₃ with next := Function.update L₃.next (L₃.prev obj) obj }
  (L₄, obj)

/-- `erase(pos)`. A node converts to the iterator that points to it, so this
is also `erase(node)`. Nothing is returned. -/
def erase (L : Links α) (pos : α) : Links α :=
  let L₁ := { L with next := Function.update L.next (L.prev pos) (L.next pos) }
  let L₂ := { L₁ with prev := Function.update L₁.prev (L₁.next pos) (L₁.prev pos) }
  let L₃ := { L₂ with prev := Function.update L₂.prev pos pos }
  { L₃ with next := Function.update L₃.next pos pos }

/-- `begin()` of the list with head `h`. -/
def begin (L : Links α) (h : α) : α := L.next h

/-- `push_back(obj)`: `end()` is the head. -/
def push_back (L : Links α) (h obj : α) : Links α := (insert L h obj).1

/-- `pop_front()`. -/
def pop_front (L : Links α) (h : α) : Links α := erase L (begin L h)

/-- `empty()`. -/
def empty (L : Links α) (h : α) : Bool := h == L.next h

/-! ## The purpose: sequences -/

/-- `obj` in front of `pos`, at the end when `pos` is no element. -/
def insertBefore (pos obj : α) : List α → List α
  | [] => [obj]
  | x :: xs => if x = pos then obj :: x :: xs else x :: insertBefore pos obj xs

/-- The sequences of all lists, and the nodes that were inserted so far. -/
structure Seqs (ι α : Type) where
  seq : ι → List α
  inserted : List α

/-- The public operations; `l` names the list. -/
inductive Op (ι α : Type)
  | insert (l : ι) (pos obj : α)
  | push_back (l : ι) (obj : α)
  | erase (pos : α)
  | pop_front (l : ι)

/-- A node that may be inserted: in no list and not a head. -/
def Free (head : ι → α) (s : Seqs ι α) (obj : α) : Prop :=
  ∀ l, obj ∉ s.seq l ∧ obj ≠ head l

/-- The use of the lists: positions belong to the list, a node is inserted
only while it is in no list, only nodes that were inserted are erased, and
`pop_front` needs an element. -/
def Valid (head : ι → α) (s : Seqs ι α) : Op ι α → Prop
  | .insert l pos obj => (pos = head l ∨ pos ∈ s.seq l) ∧ Free head s obj
  | .push_back _ obj => Free head s obj
  | .erase pos => pos ∈ s.inserted
  | .pop_front l => s.seq l ≠ []

variable [DecidableEq ι]

/-- The operations on ordinary sequences. -/
def Seqs.apply (s : Seqs ι α) : Op ι α → Seqs ι α
  | .insert l pos obj =>
    ⟨Function.update s.seq l (insertBefore pos obj (s.seq l)), obj :: s.inserted⟩
  | .push_back l obj => ⟨Function.update s.seq l (s.seq l ++ [obj]), obj :: s.inserted⟩
  | .erase pos => { s with seq := fun l => (s.seq l).erase pos }
  | .pop_front l => { s with seq := Function.update s.seq l (s.seq l).tail }

/-- The operations on the links. -/
def apply (head : ι → α) (L : Links α) : Op ι α → Links α
  | .insert _ pos obj => (insert L pos obj).1
  | .push_back l obj => push_back L (head l) obj
  | .erase pos => erase L pos
  | .pop_front l => pop_front L (head l)

/-- The links next to the sequences. Initially every list has been constructed
by `connect(d_head, d_head)`; the links of the nodes are arbitrary. -/
def system (head : ι → α) : System (Links α × Seqs ι α) (Op ι α) where
  init w := (∀ l, connect w.1 (head l) (head l) = w.1) ∧ w.2 = ⟨fun _ => [], []⟩
  step w op w' := Valid head w.2 op ∧ w' = (apply head w.1 op, w.2.apply op)

/-! ## 1. The code relinks rings -/

omit [DecidableEq ι] in
theorem insert_eq {L : Links α} {pos obj : α} (h : obj ≠ pos) :
    (insert L pos obj).1 = L.insert pos obj := by
  simp [insert, Links.insert, h]

theorem erase_eq (L : Links α) (pos : α) : erase L pos = L.remove pos := by
  have hn : Function.update L.next (L.prev pos) (L.next pos) pos = L.next pos := by
    by_cases h : pos = L.prev pos
    · rw [← h]; simp
    · simp [h]
  simp [erase, Links.remove, hn]

theorem connect_self {L : Links α} {h : α} :
    connect L h h = L ↔ L.next h = h ∧ L.prev h = h := by
  cases L
  simp only [connect, Links.mk.injEq, Function.update_eq_self_iff]
  exact and_congr eq_comm eq_comm

theorem insertBefore_split {pos obj : α} {xs ys : List α} (h : pos ∉ xs) :
    insertBefore pos obj (xs ++ pos :: ys) = xs ++ obj :: pos :: ys := by
  induction xs with
  | nil => simp [insertBefore]
  | cons x xs ih =>
    have hx : x ≠ pos := by rintro rfl; simp at h
    simp [insertBefore, hx, ih (fun hm => h (List.mem_cons_of_mem _ hm))]

theorem insertBefore_end {pos obj : α} {xs : List α} (h : pos ∉ xs) :
    insertBefore pos obj xs = xs ++ [obj] := by
  induction xs with
  | nil => rfl
  | cons x xs ih =>
    have hx : x ≠ pos := by rintro rfl; simp at h
    simp [insertBefore, hx, ih (fun hm => h (List.mem_cons_of_mem _ hm))]

theorem mem_insertBefore {pos obj x : α} {xs : List α} :
    x ∈ insertBefore pos obj xs ↔ x = obj ∨ x ∈ xs := by
  induction xs with
  | nil => simp [insertBefore]
  | cons y ys ih =>
    by_cases h : y = pos
    · simp [insertBefore, h]
    · simp only [insertBefore, h, if_false, List.mem_cons, ih]
      tauto

/-- Insertion in front of an element or of the head keeps the ring. -/
theorem ring_insertBefore {L : Links α} {h pos obj : α} {xs : List α} (hr : IsRing L h xs)
    (nd : (h :: xs).Nodup) (hpos : pos = h ∨ pos ∈ xs) (ho : obj ∉ h :: xs) :
    IsRing (L.insert pos obj) h (insertBefore pos obj xs) := by
  have hh : h ∉ xs := (List.nodup_cons.mp nd).1
  rcases hpos with rfl | hpos
  · rw [insertBefore_end hh]
    exact hr.insert nd hh ho (fun he => ho (by simp [he]))
  · obtain ⟨ys, zs, rfl⟩ := List.append_of_mem hpos
    have hsplit := Seg.append.mp hr
    have hys : pos ∉ ys := by
      intro hm
      have := (List.nodup_append.mp (List.nodup_cons.mp nd).2).2.2 pos hm pos (by simp)
      exact this rfl
    have hop : obj ≠ pos := by rintro rfl; simp at ho
    have hoh : obj ≠ h := by rintro rfl; simp at ho
    rw [insertBefore_split hys]
    have hp : L.prev pos ∈ h :: ys := hsplit.1.prev_mem
    have key : Seg (L.insert pos obj) h (ys ++ [obj]) pos := by
      refine hsplit.1.insert ?_ hys (fun hm => ho ?_) hop
      · rw [← List.cons_append] at nd
        exact (List.nodup_append.mp nd).1
      · rw [← List.cons_append]
        exact List.mem_append_left _ hm
    have frame : Seg (L.insert pos obj) pos zs h := by
      refine hsplit.2.insert_frame (fun hm => ?_) ⟨?_, ?_⟩ ⟨hoh, fun hm => ho ?_⟩
      · rw [← List.cons_append] at nd
        exact (List.nodup_append.mp nd).2.2 _ hp _ hm rfl
      · rintro rfl; simp at hh
      · intro hm
        have := (List.nodup_append.mp (List.nodup_cons.mp nd).2).2.1
        exact (List.nodup_cons.mp this).1 hm
      · exact List.mem_cons_of_mem _ (List.mem_append_right _ hm)
    have := Seg.append.mpr ⟨key, frame⟩
    simpa [IsRing] using this

/-! ## 2. The invariant -/

/-- Every list is a ring of its head and its sequence, the rings are disjoint,
and a node that was inserted and is in no list is linked to itself. -/
structure Inv (head : ι → α) (w : Links α × Seqs ι α) : Prop where
  ring : ∀ l, IsRing w.1 (head l) (w.2.seq l)
  nodup : ∀ l, (head l :: w.2.seq l).Nodup
  disjoint : ∀ l l', l ≠ l' → List.Disjoint (head l :: w.2.seq l) (head l' :: w.2.seq l')
  inserted : ∀ l, ∀ n ∈ w.2.seq l, n ∈ w.2.inserted
  no_head : ∀ n ∈ w.2.inserted, ∀ l, n ≠ head l
  self : ∀ n ∈ w.2.inserted, (∀ l, n ∉ w.2.seq l) → w.1.next n = n ∧ w.1.prev n = n

namespace IntrusiveListLemmas

variable {head : ι → α} {w : Links α × Seqs ι α}

omit [DecidableEq α] [DecidableEq ι] in
/-- The two neighbours of an element lie in the ring of its list. -/
theorem neighbours (h : Inv head w) {l : ι} {n : α} (hn : n ∈ w.2.seq l) :
    w.1.prev n ∈ head l :: w.2.seq l ∧ w.1.next n ∈ head l :: w.2.seq l := by
  have hr := h.ring l
  obtain ⟨ys, zs, he⟩ := List.append_of_mem hn
  rw [he] at hr ⊢
  have hs := Seg.append.mp hr
  constructor
  · have := hs.1.prev_mem
    simp only [List.mem_cons, List.mem_append] at this ⊢
    tauto
  · have := hs.2.next_mem
    simp only [List.mem_cons, List.mem_append]
    tauto

theorem inv_insert (h : Inv head w) {l : ι} {pos obj : α}
    (hpos : pos = head l ∨ pos ∈ w.2.seq l) (ho : Free head w.2 obj) :
    Inv head ((insert w.1 pos obj).1, w.2.apply (.insert l pos obj)) := by
  have hop : obj ≠ pos := by
    rintro rfl
    exact hpos.elim (ho l).2 (ho l).1
  have hout : ∀ l, obj ∉ head l :: w.2.seq l := fun l hm =>
    (List.mem_cons.mp hm).elim (ho l).2 (ho l).1
  have hprev : w.1.prev pos ∈ head l :: w.2.seq l := by
    rcases hpos with rfl | hpos
    · exact (h.ring l).prev_mem
    · exact (neighbours h hpos).1
  have hposl : pos ∈ head l :: w.2.seq l := by simpa using hpos
  have hmem : ∀ x, x ∈ insertBefore pos obj (w.2.seq l) ↔ x = obj ∨ x ∈ w.2.seq l :=
    fun x => mem_insertBefore
  have hperm : (insertBefore pos obj (w.2.seq l)).Nodup := by
    have nd := (List.nodup_cons.mp (h.nodup l)).2
    rcases hpos with rfl | hpos
    · rw [insertBefore_end (List.nodup_cons.mp (h.nodup l)).1]
      exact nd.append (List.nodup_singleton _) (by simpa using (ho l).1)
    · obtain ⟨ys, zs, he⟩ := List.append_of_mem hpos
      have ho' := (ho l).1
      rw [he] at nd ho' ⊢
      have hys : pos ∉ ys := fun hm =>
        (List.nodup_append.mp nd).2.2 pos hm pos (by simp) rfl
      rw [insertBefore_split hys]
      exact List.nodup_middle.mpr (List.nodup_cons.mpr ⟨ho', nd⟩)
  rw [insert_eq hop]
  refine ⟨fun l' => ?_, fun l' => ?_, fun l₁ l₂ hne => ?_, fun l' n hn => ?_, fun n hn l' => ?_,
    fun n hn hno => ?_⟩
  · by_cases hl : l' = l
    · subst hl
      simpa [Seqs.apply] using ring_insertBefore (h.ring l') (h.nodup l') hpos (hout l')
    · have hd := h.disjoint l l' (Ne.symm hl)
      have hc : pos ∉ head l' :: w.2.seq l' := fun hm => hd hposl hm
      simp only [Seqs.apply, Function.update_of_ne hl]
      refine (h.ring l').insert_frame (fun hm => hd hprev hm) ?_ ⟨(ho l').2, hout l'⟩
      exact ⟨fun he => hc (by simp [he]), fun hm => hc (List.mem_cons_of_mem _ hm)⟩
  · by_cases hl : l' = l
    · subst hl
      simp only [Seqs.apply, Function.update_self, List.nodup_cons, hmem]
      refine ⟨?_, hperm⟩
      rintro (he | hm)
      · exact (ho l').2 he.symm
      · exact (List.nodup_cons.mp (h.nodup l')).1 hm
    · simpa [Seqs.apply, hl] using h.nodup l'
  · -- only the ring of `l` grows, by a node that was in no ring
    have hd := h.disjoint l₁ l₂ hne
    intro x hx₁ hx₂
    simp only [Seqs.apply] at hx₁ hx₂
    have key : ∀ l', x ∈ head l' :: Function.update w.2.seq l (insertBefore pos obj (w.2.seq l)) l' →
        (x = obj ∧ l' = l) ∨ x ∈ head l' :: w.2.seq l' := by
      intro l' hx
      by_cases hl : l' = l
      · subst hl
        simp only [Function.update_self, List.mem_cons, hmem] at hx ⊢
        tauto
      · exact .inr (by simpa [hl] using hx)
    rcases key l₁ hx₁ with ⟨rfl, rfl⟩ | h₁ <;> rcases key l₂ hx₂ with ⟨he, rfl⟩ | h₂
    · exact hne rfl
    · exact hout _ h₂
    · subst he
      exact hout _ h₁
    · exact hd h₁ h₂
  · by_cases hl : l' = l
    · subst hl
      simp only [Seqs.apply, Function.update_self, hmem] at hn
      exact List.mem_cons.mpr (hn.imp id (h.inserted l' n))
    · exact List.mem_cons_of_mem _ (h.inserted l' n (by simpa [Seqs.apply, hl] using hn))
  · rcases List.mem_cons.mp hn with rfl | hn
    · exact (ho l').2
    · exact h.no_head n hn l'
  · have hnl : n ∉ insertBefore pos obj (w.2.seq l) := by simpa [Seqs.apply] using hno l
    rw [hmem, not_or] at hnl
    obtain ⟨hnobj, hnl⟩ := hnl
    have hnin : n ∈ w.2.inserted := (List.mem_cons.mp hn).resolve_left hnobj
    have hall : ∀ l', n ∉ w.2.seq l' := by
      intro l'
      by_cases hl : l' = l
      · rwa [hl]
      · simpa [Seqs.apply, hl] using hno l'
    have hring : n ∉ head l :: w.2.seq l := fun hm =>
      (List.mem_cons.mp hm).elim (h.no_head n hnin l) hnl
    have h₁ : n ≠ w.1.prev pos := fun he => hring (he ▸ hprev)
    have h₂ : n ≠ pos := fun he => hring (he ▸ hposl)
    simpa [Links.insert, h₁, h₂, hnobj] using h.self n hnin hall

theorem inv_erase (h : Inv head w) {pos : α} (hpos : pos ∈ w.2.inserted) :
    Inv head (erase w.1 pos, w.2.apply (.erase pos)) := by
  rw [erase_eq]
  by_cases hex : ∃ l, pos ∈ w.2.seq l
  · obtain ⟨l, hl⟩ := hex
    obtain ⟨hprev, hnext⟩ := neighbours h hl
    have hposl : pos ∈ head l :: w.2.seq l := List.mem_cons_of_mem _ hl
    have hother : ∀ l', l' ≠ l → pos ∉ w.2.seq l' := fun l' hne hm =>
      h.disjoint l l' hne.symm hposl (List.mem_cons_of_mem _ hm)
    have hsub : ∀ l', (w.2.seq l').erase pos ⊆ w.2.seq l' := fun l' => List.erase_subset
    refine ⟨fun l' => ?_, fun l' => ?_, fun l₁ l₂ hne => ?_, fun l' n hn => ?_, h.no_head,
      fun n hn hno => ?_⟩
    · by_cases hll : l' = l
      · subst hll
        have hr := h.ring l'
        have nd := h.nodup l'
        obtain ⟨ys, zs, he⟩ := List.append_of_mem hl
        simp only [Seqs.apply]
        rw [he] at hr nd ⊢
        have hys : pos ∉ ys := fun hm =>
          (List.nodup_append.mp (List.nodup_cons.mp nd).2).2.2 pos hm pos (by simp) rfl
        rw [List.erase_append_right _ hys, List.erase_cons_head]
        exact hr.remove nd (List.nodup_cons.mp nd).1
      · have hd := h.disjoint l l' (Ne.symm hll)
        simp only [Seqs.apply, List.erase_of_not_mem (hother l' hll)]
        refine (h.ring l').remove_frame ?_ (fun hm => hd hprev hm) ?_
        · exact ⟨h.no_head pos hpos l', fun hm => hd hposl hm⟩
        · exact ⟨fun he => hd hnext (by simp [he]), fun hm => hd hnext (List.mem_cons_of_mem _ hm)⟩
    · have nd := List.nodup_cons.mp (h.nodup l')
      exact List.nodup_cons.mpr ⟨fun hm => nd.1 (hsub l' hm), nd.2.erase pos⟩
    · have hcons : ∀ l', (head l' :: (w.2.seq l').erase pos) ⊆ head l' :: w.2.seq l' :=
        fun l' => List.cons_subset_cons _ (hsub l')
      exact fun x h₁ h₂ => h.disjoint l₁ l₂ hne (hcons l₁ h₁) (hcons l₂ h₂)
    · exact h.inserted l' n (hsub l' hn)
    · by_cases hnp : n = pos
      · subst hnp
        simp [Links.remove]
      · have hall : ∀ l', n ∉ w.2.seq l' := fun l' hm =>
          hno l' ((List.mem_erase_of_ne hnp).mpr hm)
        have hring : n ∉ head l :: w.2.seq l := fun hm =>
          (List.mem_cons.mp hm).elim (h.no_head n hn l) (hall l)
        have h₁ : n ≠ w.1.prev pos := fun he => hring (he ▸ hprev)
        have h₂ : n ≠ w.1.next pos := fun he => hring (he ▸ hnext)
        simpa [Links.remove, h₁, h₂, hnp] using h.self n hn hall
  · have hno : ∀ l, pos ∉ w.2.seq l := fun l hm => hex ⟨l, hm⟩
    obtain ⟨hn, hp⟩ := h.self pos hpos hno
    have hs : w.2.apply (.erase pos) = w.2 := by
      simp only [Seqs.apply]
      congr 1
      exact funext fun l => List.erase_of_not_mem (hno l)
    rw [Links.remove_self hn hp, hs]
    exact h

/-- `pop_front` erases the first element. -/
theorem pop_front_eq (h : Inv head w) {l : ι} (hl : w.2.seq l ≠ []) :
    begin w.1 (head l) ∈ w.2.inserted ∧
      w.2.apply (.pop_front l) = w.2.apply (.erase (begin w.1 (head l))) := by
  obtain ⟨x, xs, hx⟩ := List.exists_cons_of_ne_nil hl
  have hb : begin w.1 (head l) = x := by
    have hr := h.ring l
    rw [hx] at hr
    exact hr.1
  have hmem : x ∈ w.2.seq l := by rw [hx]; simp
  refine ⟨hb ▸ h.inserted l x hmem, ?_⟩
  simp only [Seqs.apply, hb]
  congr 1
  funext l'
  by_cases hl' : l' = l
  · subst hl'
    simp [hx]
  · have hno : x ∉ w.2.seq l' := fun hm =>
      h.disjoint l l' (Ne.symm hl') (List.mem_cons_of_mem _ hmem) (List.mem_cons_of_mem _ hm)
    simp [hl', List.erase_of_not_mem hno]

end IntrusiveListLemmas

open IntrusiveListLemmas

theorem inv_init {head : ι → α} (hh : Function.Injective head) {w : Links α × Seqs ι α}
    (h : (system head).init w) : Inv head w := by
  obtain ⟨L, s⟩ := w
  obtain ⟨hc, rfl⟩ := h
  refine ⟨fun l => connect_self.mp (hc l), by simp, fun l l' hne => ?_, by simp, by simp, by simp⟩
  simpa using fun he => hne (hh he.symm)

/-- Every valid operation keeps the invariant. -/
theorem inv_step {head : ι → α} {w w' : Links α × Seqs ι α}
    {op : Op ι α} (h : Inv head w) (hs : (system head).step w op w') : Inv head w' := by
  obtain ⟨hv, rfl⟩ := hs
  cases op with
  | insert l pos obj => exact inv_insert h hv.1 hv.2
  | push_back l obj =>
    have he : w.2.apply (.push_back l obj) = w.2.apply (.insert l (head l) obj) := by
      simp [Seqs.apply, insertBefore_end (List.nodup_cons.mp (h.nodup l)).1]
    rw [he]
    exact inv_insert h (.inl rfl) hv
  | erase pos => exact inv_erase h hv
  | pop_front l =>
    obtain ⟨hm, he⟩ := pop_front_eq h hv
    rw [he]
    exact inv_erase h hm

omit [DecidableEq ι] in
/-- `empty()` and `begin()` of a list. -/
theorem empty_begin {head : ι → α} {w : Links α × Seqs ι α} (h : Inv head w) (l : ι) :
    (empty w.1 (head l) = true ↔ w.2.seq l = []) ∧
    ∀ c cs, w.2.seq l = c :: cs → begin w.1 (head l) = c := by
  have hring := h.ring l
  have hnodup := h.nodup l
  unfold IsRing at hring
  cases hs : w.2.seq l with
  | nil =>
    rw [hs] at hring
    exact ⟨by simp [empty, hring.1], by simp⟩
  | cons c cs =>
    rw [hs] at hring hnodup
    have hne : head l ≠ c := fun he => (List.nodup_cons.mp hnodup).1 (by simp [he])
    refine ⟨by simp [empty, hring.1, hne], fun c' cs' he => ?_⟩
    cases he
    exact hring.1

/-- The lists of a program: each of its steps, with label `l`, makes at most the
one operation `ops l`, a valid one. `I` is what holds along the runs of the program. -/
theorem follows {σ ε : Type*} {S : System σ ε} (head : ι → α) (ops : ε → Option (Op ι α))
    (seqs : List ε → σ → Seqs ι α) (I : List ε → σ → Prop) {L₀ : Links α} {s₀ s : σ} {tr : List ε}
    (hh : Function.Injective head) (h₀ : ∀ l, connect L₀ (head l) (head l) = L₀)
    (h : Run S s₀ tr s) (start : I [] s₀) (nothing : seqs [] s₀ = ⟨fun _ => [], []⟩)
    (keep : ∀ tr s l s', I tr s → S.step s l s' → I (tr ++ [l]) s' ∧
      ((ops l = none ∧ seqs (tr ++ [l]) s' = seqs tr s) ∨
        ∃ op, ops l = some op ∧ Valid head (seqs tr s) op ∧
          seqs (tr ++ [l]) s' = (seqs tr s).apply op)) :
    ∃ L, Run (system head) (L₀, ⟨fun _ => [], []⟩) (tr.filterMap ops) (L, seqs tr s) ∧
      ∀ l, (empty L (head l) = true ↔ (seqs tr s).seq l = []) ∧
        ∀ c cs, (seqs tr s).seq l = c :: cs → begin L (head l) = c := by
  have hrun : I tr s ∧
      ∃ L, Run (system head) (L₀, ⟨fun _ => [], []⟩) (tr.filterMap ops) (L, seqs tr s) := by
    refine h.invariant (I := fun tr s => I tr s ∧
      ∃ L, Run (system head) (L₀, ⟨fun _ => [], []⟩) (tr.filterMap ops) (L, seqs tr s)) ?_ ?_
    · exact ⟨start, L₀, by rw [nothing]; exact .nil⟩
    · rintro tr s l s' ⟨hi, L, hr⟩ hs
      obtain ⟨hi', hop⟩ := keep tr s l s' hi hs
      refine ⟨hi', ?_⟩
      rw [List.filterMap_append]
      rcases hop with ⟨hop, hseqs⟩ | ⟨op, hop, hvalid, hseqs⟩
      · exact ⟨L, by simpa [hop, hseqs] using hr⟩
      · refine ⟨apply head L op, ?_⟩
        rw [hseqs, List.filterMap_cons_some hop]
        exact hr.snoc ⟨hvalid, rfl⟩
  obtain ⟨-, L, hr⟩ := hrun
  have hi : Inv head (L, seqs tr s) :=
    hr.invariant_state (inv_init hh ⟨h₀, rfl⟩) fun _ _ _ => inv_step
  exact ⟨L, hr, empty_begin hi⟩

/-! ## 3. Any sequence of operations -/

/-- After any sequence of operations on any lists: the links of every ring are
inverse to each other, the rings of different lists are disjoint, following
`d_next` from the head gives the sequence obtained by the same operations and
then the head, and a node that was inserted and is in no list is linked to
itself, so that erasing it again changes nothing. -/
theorem refines_seqs {head : ι → α} (hh : Function.Injective head) {w₀ w : Links α × Seqs ι α}
    {ops : List (Op ι α)} (h₀ : (system head).init w₀) (h : Run (system head) w₀ ops w) :
    (∀ l, ∀ c ∈ head l :: w.2.seq l,
      w.1.prev (w.1.next c) = c ∧ w.1.next (w.1.prev c) = c) ∧
    (∀ l l', l ≠ l' → List.Disjoint (head l :: w.2.seq l) (head l' :: w.2.seq l')) ∧
    (∀ l, (head l :: w.2.seq l).Nodup ∧ ∀ k ≤ (w.2.seq l).length,
      some (w.1.next^[k + 1] (head l)) = (w.2.seq l ++ [head l])[k]?) ∧
    (∀ n ∈ w.2.inserted, (∀ l, n ∉ w.2.seq l) →
      w.1.next n = n ∧ w.1.prev n = n ∧ erase w.1 n = w.1) := by
  have hi : Inv head w := h.invariant_state (inv_init hh h₀) fun _ _ _ => inv_step
  refine ⟨fun l c hc => ?_, hi.disjoint, fun l => ⟨hi.nodup l, fun k hk => ?_⟩, fun n hn hno => ?_⟩
  · have := (hi.ring l).inverse
    exact ⟨this.1 c hc, this.2 c (List.mem_cons.mp hc)⟩
  · exact (hi.ring l).iterate_next k hk
  · obtain ⟨h₁, h₂⟩ := hi.self n hn hno
    exact ⟨h₁, h₂, by rw [erase_eq, Links.remove_self h₁ h₂]⟩

/-- A memory with one list, whose head is cell `0`; the other cells have not
been initialised and happen to point to the head. -/
def exLinks : Links Nat := ⟨fun _ => 0, fun _ => 0⟩

/-- `refines_seqs` after `push_back` of cell `1` and its removal. -/
theorem refines_seqs_example :
    (push_back exLinks 0 1).next 1 = 0 ∧
      erase (erase (push_back exLinks 0 1) 1) 1 = erase (push_back exLinks 0 1) 1 := by
  have hrun : Run (system fun _ : Unit => 0) (exLinks, ⟨fun _ => [], []⟩)
      [.push_back () 1, .erase 1]
      (erase (push_back exLinks 0 1) 1, ⟨fun _ => [], [1]⟩) := by
    refine Run.cons ⟨?_, rfl⟩ (Run.single ⟨?_, rfl⟩)
    · exact fun _ => ⟨by simp, by simp⟩
    · simp [Valid, Seqs.apply]
  have hinit : (system fun _ : Unit => 0).init (exLinks, ⟨fun _ => [], []⟩) :=
    ⟨fun _ => connect_self.mpr ⟨rfl, rfl⟩, rfl⟩
  have := refines_seqs (fun _ _ _ => rfl) hinit hrun
  exact ⟨by decide, (this.2.2.2 1 (by simp) (by simp)).2.2⟩

/-! ## 4. Nodes that were never inserted -/

/-- A node in no list need not be linked to itself: its links are not
initialised, so cell `2` keeps pointing to the head of a list it is not in. -/
theorem fresh_node_not_self_linked :
    ¬ ∀ (head : Unit → Nat) (w₀ w : Links Nat × Seqs Unit Nat) (ops : List (Op Unit Nat)),
      Function.Injective head → (system head).init w₀ → Run (system head) w₀ ops w →
      ∀ n, (∀ l, n ≠ head l ∧ n ∉ w.2.seq l) → w.1.next n = n ∧ w.1.prev n = n := by
  intro h
  have hinit : (system fun _ : Unit => 0).init (exLinks, ⟨fun _ => [], []⟩) :=
    ⟨fun _ => connect_self.mpr ⟨rfl, rfl⟩, rfl⟩
  have hrun : Run (system fun _ : Unit => 0) (exLinks, ⟨fun _ => [], []⟩) [.push_back () 1]
      (push_back exLinks 0 1, ⟨fun _ => [1], [1]⟩) := by
    refine Run.single ⟨?_, rfl⟩
    exact fun _ => ⟨by simp, by simp⟩
  have := h (fun _ => 0) _ _ _ (fun _ _ _ => rfl) hinit hrun 2 (by simp)
  exact absurd this.1 (by decide)

end Kuhllib.IntrusiveList
