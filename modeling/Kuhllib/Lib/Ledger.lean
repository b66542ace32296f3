import Mathlib.Data.Multiset.Count
import Mathlib.Data.Multiset.ZeroCons
import Mathlib.Data.Set.Insert

/-!
# Ledgers

A component that takes requests and answers each of them keeps a ledger: the
requests issued so far, those it holds, those that were answered (settled) and
those that are being closed, which were answered and are still held.

* `Balanced`: every issued request is held or settled, each at most once, and
  both only while it is being closed.
* `Balanced.hold`, `.pass`, `.settle`, `.close`, `.move`: one rule for each thing
  that happens to a request.
* `Balanced.count_add_count`: when nothing is being closed, every issued request
  is held exactly once or settled exactly once.
-/

namespace Ledger

universe u

variable {τ : Type u}

structure Balanced (issued : Set τ) (held settled closing : Multiset τ) : Prop where
  held_nodup : held.Nodup
  settled_nodup : settled.Nodup
  closing_nodup : closing.Nodup
  issued_iff : ∀ t, t ∈ issued ↔ t ∈ held ∨ t ∈ settled
  closing_iff : ∀ t, t ∈ closing ↔ t ∈ held ∧ t ∈ settled

variable {issued : Set τ} {held settled closing : Multiset τ} {t : τ}

theorem Balanced.empty : Balanced (∅ : Set τ) 0 0 0 where
  held_nodup := Multiset.nodup_zero
  settled_nodup := Multiset.nodup_zero
  closing_nodup := Multiset.nodup_zero
  issued_iff _ := by simp
  closing_iff _ := by simp

theorem Balanced.not_held (h : Balanced issued held settled closing) (ht : t ∉ issued) :
    t ∉ held := fun hm => ht ((h.issued_iff t).mpr (.inl hm))

theorem Balanced.not_settled (h : Balanced issued held settled closing) (ht : t ∉ issued) :
    t ∉ settled := fun hm => ht ((h.issued_iff t).mpr (.inr hm))

/-- A new request that is kept. -/
theorem Balanced.hold (h : Balanced issued held settled closing) (ht : t ∉ issued) :
    Balanced (insert t issued) (t ::ₘ held) settled closing where
  held_nodup := Multiset.nodup_cons.mpr ⟨h.not_held ht, h.held_nodup⟩
  settled_nodup := h.settled_nodup
  closing_nodup := h.closing_nodup
  issued_iff u := by rw [Set.mem_insert_iff, h.issued_iff, Multiset.mem_cons, or_assoc]
  closing_iff u := by
    have hs := h.not_settled ht
    rw [h.closing_iff, Multiset.mem_cons]
    constructor
    · exact fun hu => ⟨.inr hu.1, hu.2⟩
    · rintro ⟨rfl | hu, hu'⟩
      · exact absurd hu' hs
      · exact ⟨hu, hu'⟩

/-- A new request that is answered at once. -/
theorem Balanced.pass (h : Balanced issued held settled closing) (ht : t ∉ issued) :
    Balanced (insert t issued) held (t ::ₘ settled) closing where
  held_nodup := h.held_nodup
  settled_nodup := Multiset.nodup_cons.mpr ⟨h.not_settled ht, h.settled_nodup⟩
  closing_nodup := h.closing_nodup
  issued_iff u := by rw [Set.mem_insert_iff, h.issued_iff, Multiset.mem_cons, or_left_comm]
  closing_iff u := by
    have hh := h.not_held ht
    rw [h.closing_iff, Multiset.mem_cons]
    constructor
    · exact fun hu => ⟨hu.1, .inr hu.2⟩
    · rintro ⟨hu, rfl | hu'⟩
      · exact absurd hu hh
      · exact ⟨hu, hu'⟩

/-- A held request is answered and closed later. -/
theorem Balanced.settle (h : Balanced issued held settled closing) (hh : t ∈ held)
    (hs : t ∉ settled) : Balanced issued held (t ::ₘ settled) (t ::ₘ closing) where
  held_nodup := h.held_nodup
  settled_nodup := Multiset.nodup_cons.mpr ⟨hs, h.settled_nodup⟩
  closing_nodup := Multiset.nodup_cons.mpr
    ⟨fun hc => hs ((h.closing_iff t).mp hc).2, h.closing_nodup⟩
  issued_iff u := by
    rw [h.issued_iff, Multiset.mem_cons]
    constructor
    · exact Or.imp_right .inr
    · rintro (hu | rfl | hu)
      · exact .inl hu
      · exact .inl hh
      · exact .inr hu
  closing_iff u := by
    rw [Multiset.mem_cons, Multiset.mem_cons, h.closing_iff]
    constructor
    · rintro (rfl | hu)
      · exact ⟨hh, .inl rfl⟩
      · exact ⟨hu.1, .inr hu.2⟩
    · rintro ⟨hu, rfl | hu'⟩
      · exact .inl rfl
      · exact .inr ⟨hu, hu'⟩

/-- An answered request is let go. -/
theorem Balanced.close (h : Balanced issued (t ::ₘ held) settled (t ::ₘ closing)) :
    Balanced issued held settled closing where
  held_nodup := (Multiset.nodup_cons.mp h.held_nodup).2
  settled_nodup := h.settled_nodup
  closing_nodup := (Multiset.nodup_cons.mp h.closing_nodup).2
  issued_iff u := by
    have hs : t ∈ settled := ((h.closing_iff t).mp (Multiset.mem_cons_self t _)).2
    rw [h.issued_iff, Multiset.mem_cons]
    constructor
    · rintro ((rfl | hu) | hu)
      · exact .inr hs
      · exact .inl hu
      · exact .inr hu
    · exact Or.imp_left .inr
  closing_iff u := by
    have hh := (Multiset.nodup_cons.mp h.held_nodup).1
    have hc := (Multiset.nodup_cons.mp h.closing_nodup).1
    have hu := h.closing_iff u
    rw [Multiset.mem_cons, Multiset.mem_cons] at hu
    rcases eq_or_ne u t with rfl | hne
    · exact ⟨fun hm => absurd hm hc, fun hm => absurd hm.1 hh⟩
    · simpa [hne] using hu

/-- A held request is answered and let go. -/
theorem Balanced.move (h : Balanced issued (t ::ₘ held) settled closing) (hs : t ∉ settled) :
    Balanced issued held (t ::ₘ settled) closing :=
  (h.settle (Multiset.mem_cons_self t held) hs).close

theorem Balanced.settled_of_closing (h : Balanced issued held settled closing)
    (ht : t ∈ closing) : t ∈ settled := ((h.closing_iff t).mp ht).2

/-- A held request that is not being closed has not been answered. -/
theorem Balanced.not_settled_of_held (h : Balanced issued held settled closing) (hh : t ∈ held)
    (hc : t ∉ closing) : t ∉ settled := fun hs => hc ((h.closing_iff t).mpr ⟨hh, hs⟩)

theorem Balanced.count_add_count [DecidableEq τ] (h : Balanced issued held settled 0)
    (ht : t ∈ issued) : held.count t + settled.count t = 1 := by
  have hnot : ¬ (t ∈ held ∧ t ∈ settled) := fun hb => by
    have := (h.closing_iff t).mpr hb
    simp at this
  rcases (h.issued_iff t).mp ht with hh | hs
  · rw [Multiset.count_eq_one_of_mem h.held_nodup hh,
      Multiset.count_eq_zero_of_notMem fun hs => hnot ⟨hh, hs⟩]
  · rw [Multiset.count_eq_one_of_mem h.settled_nodup hs,
      Multiset.count_eq_zero_of_notMem fun hh => hnot ⟨hh, hs⟩]

end Ledger
