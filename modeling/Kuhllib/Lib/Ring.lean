import Mathlib.Data.List.Basic
import Mathlib.Logic.Function.Iterate

/-!
# Doubly linked segments and rings

Cells are addresses of an arbitrary type. `Links` maps every address to its
two neighbours. `Seg L a xs b` says that the cells strictly between `a` and
`b` are `xs`, in both directions. A ring is a segment that ends where it starts.

* `Seg.insert` and `Seg.remove`: what relinking one cell does to a segment.
* `Seg.congr`: a segment only depends on the links of its own cells.
* `Seg.iterate_next`: following `next` enumerates the segment.
-/

namespace Ring

universe u

variable {α : Type u}

/-- The two neighbours of every cell. -/
structure Links (α : Type u) where
  next : α → α
  prev : α → α

/-- The cells between `a` and `b` are exactly `xs`. -/
def Seg (L : Links α) : α → List α → α → Prop
  | a, [], b => L.next a = b ∧ L.prev b = a
  | a, x :: xs, b => L.next a = x ∧ L.prev x = a ∧ Seg L x xs b

/-- The cells reached from the head `h` before it comes around again are `xs`. -/
def IsRing (L : Links α) (h : α) (xs : List α) : Prop := Seg L h xs h

theorem Seg.append {L : Links α} {a b c : α} {xs ys : List α} :
    Seg L a (xs ++ c :: ys) b ↔ Seg L a xs c ∧ Seg L c ys b := by
  induction xs generalizing a with
  | nil => simp [Seg, and_assoc]
  | cons x xs ih => simp [Seg, ih, and_assoc]

/-- Changing links outside the segment keeps the segment. -/
theorem Seg.congr {L L' : Links α} {a b : α} {xs : List α}
    (hn : ∀ c ∈ a :: xs, L'.next c = L.next c) (hp : ∀ c, c = b ∨ c ∈ xs → L'.prev c = L.prev c)
    (h : Seg L a xs b) : Seg L' a xs b := by
  induction xs generalizing a with
  | nil => exact ⟨(hn a (by simp)).trans h.1, (hp b (.inl rfl)).trans h.2⟩
  | cons x xs ih =>
    obtain ⟨h₁, h₂, h₃⟩ := h
    refine ⟨(hn a (by simp)).trans h₁, (hp x (by simp)).trans h₂, ih ?_ ?_ h₃⟩
    · exact fun c hc => hn c (List.mem_cons_of_mem _ hc)
    · exact fun c hc => hp c (hc.imp id (List.mem_cons_of_mem _))

/-- The predecessor of the end lies in the segment. -/
theorem Seg.prev_mem {L : Links α} {a b : α} {xs : List α} (h : Seg L a xs b) :
    L.prev b ∈ a :: xs := by
  induction xs generalizing a with
  | nil => simp [h.2]
  | cons x xs ih => exact List.mem_cons_of_mem _ (ih h.2.2)

/-- The successor of the start is the end or lies in the segment. -/
theorem Seg.next_mem {L : Links α} {a b : α} {xs : List α} (h : Seg L a xs b) :
    L.next a = b ∨ L.next a ∈ xs := by
  cases xs with
  | nil => exact .inl h.1
  | cons x xs => exact .inr (by simp [h.1])

/-- `next` and `prev` are inverse to each other on the cells of a segment. -/
theorem Seg.inverse {L : Links α} {a b : α} {xs : List α} (h : Seg L a xs b) :
    (∀ c ∈ a :: xs, L.prev (L.next c) = c) ∧ ∀ c, c = b ∨ c ∈ xs → L.next (L.prev c) = c := by
  induction xs generalizing a with
  | nil =>
    obtain ⟨h₁, h₂⟩ := h
    simp [h₁, h₂]
  | cons x xs ih =>
    obtain ⟨h₁, h₂, h₃⟩ := h
    obtain ⟨ihn, ihp⟩ := ih h₃
    refine ⟨fun c hc => ?_, fun c hc => ?_⟩
    · rcases List.mem_cons.mp hc with rfl | hc
      · rw [h₁, h₂]
      · exact ihn c hc
    · rcases hc with rfl | hc
      · exact ihp c (.inl rfl)
      · rcases List.mem_cons.mp hc with rfl | hc
        · rw [h₂, h₁]
        · exact ihp c (.inr hc)

/-- Following `next` from the start visits the cells in order, then the end. -/
theorem Seg.iterate_next {L : Links α} {a b : α} {xs : List α} (h : Seg L a xs b) (k : Nat)
    (hk : k ≤ xs.length) : some (L.next^[k + 1] a) = (xs ++ [b])[k]? := by
  induction xs generalizing a k with
  | nil =>
    obtain rfl : k = 0 := by simpa using hk
    simp [h.1]
  | cons x xs ih =>
    cases k with
    | zero => simp [h.1]
    | succ k =>
      have := ih h.2.2 k (by simpa using hk)
      rw [Function.iterate_succ_apply, h.1, this]
      simp

variable [DecidableEq α]

/-- The links after `obj` has been put in front of `b`, in the order of four
assignments: both links of `obj`, then those of its neighbours. -/
def Links.insert (L : Links α) (b obj : α) : Links α where
  next := Function.update (Function.update L.next obj b) (L.prev b) obj
  prev := Function.update (Function.update L.prev obj (L.prev b)) b obj

/-- The links after the neighbours of `n` have been connected to each other
and `n` to itself. -/
def Links.remove (L : Links α) (n : α) : Links α where
  next := Function.update (Function.update L.next (L.prev n) (L.next n)) n n
  prev := Function.update (Function.update L.prev (L.next n) (L.prev n)) n n

/-- Insertion in front of the end of a segment appends to the segment. -/
theorem Seg.insert {L : Links α} {a b obj : α} {xs : List α} (h : Seg L a xs b)
    (nd : (a :: xs).Nodup) (hb : b ∉ xs) (ho : obj ∉ a :: xs) (hob : obj ≠ b) :
    Seg (L.insert b obj) a (xs ++ [obj]) b := by
  induction xs generalizing a with
  | nil =>
    obtain ⟨h₁, h₂⟩ := h
    have hoa : obj ≠ a := by simpa using ho
    simp [Seg, Links.insert, h₂, hob, hoa]
  | cons x xs ih =>
    obtain ⟨h₁, h₂, h₃⟩ := h
    have hp : L.prev b ≠ a := by
      rintro rfl
      exact (List.nodup_cons.mp nd).1 h₃.prev_mem
    have hbx : x ≠ b := by rintro rfl; simp at hb
    have hox : x ≠ obj := by rintro rfl; simp at ho
    have hoa : a ≠ obj := by rintro rfl; simp at ho
    refine ⟨?_, ?_, ih h₃ (List.nodup_cons.mp nd).2 (fun hm => hb (List.mem_cons_of_mem _ hm))
      (fun hm => ho (List.mem_cons_of_mem _ hm))⟩
    · simp [Links.insert, Function.update_of_ne hp.symm, Function.update_of_ne hoa, h₁]
    · simp [Links.insert, Function.update_of_ne hbx, Function.update_of_ne hox, h₂]

/-- Insertion elsewhere does not touch a segment. -/
theorem Seg.insert_frame {L : Links α} {a b c obj : α} {xs : List α} (h : Seg L a xs b)
    (hp : L.prev c ∉ a :: xs) (hc : c ≠ b ∧ c ∉ xs) (ho : obj ≠ b ∧ obj ∉ a :: xs) :
    Seg (L.insert c obj) a xs b := by
  refine h.congr (fun d hd => ?_) (fun d hd => ?_)
  · have h₁ : d ≠ L.prev c := by rintro rfl; exact hp hd
    have h₂ : d ≠ obj := by rintro rfl; exact ho.2 hd
    simp [Links.insert, h₁, h₂]
  · have h₁ : d ≠ c := by rintro rfl; exact hd.elim hc.1 hc.2
    have h₂ : d ≠ obj := by
      rintro rfl
      exact hd.elim ho.1 fun hm => ho.2 (List.mem_cons_of_mem _ hm)
    simp [Links.insert, h₁, h₂]

/-- Removal of a cell joins the segments on its two sides. -/
theorem Seg.remove {L : Links α} {a b n : α} {xs ys : List α} (h : Seg L a (xs ++ n :: ys) b)
    (nd : (a :: (xs ++ n :: ys)).Nodup) (hb : b ∉ xs ++ n :: ys) :
    Seg (L.remove n) a (xs ++ ys) b := by
  induction xs generalizing a with
  | nil =>
    obtain ⟨h₁, h₂, h₃⟩ := h
    have han : a ≠ n := by rintro rfl; simp at nd
    have hbn : b ≠ n := by rintro rfl; simp at hb
    cases ys with
    | nil => simp [Seg, Links.remove, h₂, h₃.1, han, hbn]
    | cons y ys =>
      obtain ⟨h₄, h₅, h₆⟩ := h₃
      have hyn : y ≠ n := by rintro rfl; simp at nd
      refine ⟨by simp [Links.remove, h₂, h₄, han], by simp [Links.remove, h₂, h₄, hyn],
        h₆.congr (fun c hc => ?_) (fun c hc => ?_)⟩
      · have h₁ : c ≠ n := by rintro rfl; simp [hc] at nd
        have h₂' : c ≠ a := by rintro rfl; simp at nd; simp_all
        simp [Links.remove, h₂, h₁, h₂']
      · have h₁ : c ≠ n := by
          rintro rfl
          rcases hc with rfl | hc
          · exact hbn rfl
          · simp [hc] at nd
        have h₂' : c ≠ y := by
          rintro rfl
          rcases hc with rfl | hc
          · simp at hb
          · simp [hc] at nd
        simp [Links.remove, h₄, h₁, h₂']
  | cons x xs ih =>
    obtain ⟨h₁, h₂, h₃⟩ := h
    have hsplit := Seg.append.mp h₃
    have hp : L.prev n ≠ a := by
      intro he
      have hm := hsplit.1.prev_mem
      rw [he] at hm
      exact (List.nodup_cons.mp nd).1 (by
        rw [List.cons_append, ← List.cons_append]
        exact List.mem_append_left _ hm)
    have hx : L.next n ≠ x := by
      intro he
      rcases hsplit.2.next_mem with hm | hm
      · rw [he] at hm; subst hm; simp at hb
      · rw [he] at hm
        simp [hm] at nd
    have hxn : x ≠ n := by rintro rfl; simp at nd
    have han : a ≠ n := by rintro rfl; simp at nd
    refine ⟨?_, ?_, ih h₃ (List.nodup_cons.mp nd).2 (fun hm => hb (List.mem_cons_of_mem _ hm))⟩
    · simp [Links.remove, hp.symm, han, h₁]
    · simp [Links.remove, hx.symm, hxn, h₂]

/-- Removal elsewhere does not touch a segment. -/
theorem Seg.remove_frame {L : Links α} {a b n : α} {xs : List α} (h : Seg L a xs b)
    (hn : n ≠ b ∧ n ∉ a :: xs) (hp : L.prev n ∉ a :: xs) (hs : L.next n ≠ b ∧ L.next n ∉ xs) :
    Seg (L.remove n) a xs b := by
  refine h.congr (fun d hd => ?_) (fun d hd => ?_)
  · have h₁ : d ≠ n := by rintro rfl; exact hn.2 hd
    have h₂ : d ≠ L.prev n := by rintro rfl; exact hp hd
    simp [Links.remove, h₁, h₂]
  · have h₁ : d ≠ n := by
      rintro rfl
      exact hd.elim hn.1 fun hm => hn.2 (List.mem_cons_of_mem _ hm)
    have h₂ : d ≠ L.next n := by rintro rfl; exact hd.elim hs.1 hs.2
    simp [Links.remove, h₁, h₂]

/-- A cell that is linked to itself is removed without any effect. -/
theorem Links.remove_self {L : Links α} {n : α} (hn : L.next n = n) (hp : L.prev n = n) :
    L.remove n = L := by
  cases L with
  | mk next prev =>
    simp only at hn hp
    simp [Links.remove, hn, hp, Function.update_eq_self_iff]

end Ring
