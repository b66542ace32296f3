import Kuhllib.Container.IntrusiveList

/-!
# Moving and swapping intrusive lists

The head is a member of the list object, so the ring of a moved list has another head. The
move constructor and the move assignment relink the new head only, and `swap` only exchanges
the links of the two heads.

Results:
1. `move_destination`: the destination of a move has the sequence of the source.
2. `transfers_iff`: the other list stays a list if and only if it is the same one.
-/

namespace Kuhllib.IntrusiveList

open Ring Transition

variable {ι α : Type} [DecidableEq α]

/-! ## The code -/

/-- `intrusive_list(other)`, where `h` is the new head. -/
def move_construct (L : Links α) (h other : α) : Links α :=
  let L₁ := connect L h (L.next other)
  connect L₁ (L₁.prev other) h

/-- `operator= (other)`. -/
def move_assign (L : Links α) (h other : α) : Links α :=
  let L₁ := connect L h (L.next other)
  connect L₁ (L₁.prev other) h

def swap (L : Links α) (h other : α) : Links α :=
  let L₁ := { L with
    next := Function.update (Function.update L.next h (L.next other)) other (L.next h) }
  { L₁ with prev := Function.update (Function.update L₁.prev h (L₁.prev other)) other (L₁.prev h) }

/-- The operations on two lists; a new list has the head `h`. -/
inductive Transfer (ι α : Type)
  | move_construct (h : α) (src : ι)
  | move_assign (dst src : ι)
  | swap (l other : ι)

def transfer (head : ι → α) (L : Links α) : Transfer ι α → Links α
  | .move_construct h src => move_construct L h (head src)
  | .move_assign dst src => move_assign L (head dst) (head src)
  | .swap l other => swap L (head l) (head other)

/-- A new head lies in no ring. -/
def Transfer.Valid (head : ι → α) (s : Seqs ι α) : Transfer ι α → Prop
  | .move_construct h _ => ∀ l, h ∉ head l :: s.seq l
  | .move_assign _ _ | .swap _ _ => True

/-! ## The purpose -/

/-- A move gives the sequence to the destination. The source is a list that has at most nodes
of the old destination, and those that it has not are linked to themselves. -/
def Transfers (head : ι → α) (s : Seqs ι α) (L' : Links α) : Transfer ι α → Prop
  | .move_construct h src => IsRing L' h (s.seq src) ∧ IsRing L' (head src) []
  | .move_assign dst src => IsRing L' (head dst) (s.seq src) ∧
      ∃ xs, IsRing L' (head src) xs ∧ xs ⊆ s.seq dst ∧
        ∀ n ∈ s.seq dst, n ∈ xs ∨ L'.next n = n ∧ L'.prev n = n
  | .swap l other => IsRing L' (head l) (s.seq other) ∧ IsRing L' (head other) (s.seq l)

/-- Both operands are the same object. -/
def Transfer.Same : Transfer ι α → Prop
  | .move_construct _ _ => False
  | .move_assign dst src => dst = src
  | .swap l other => l = other

namespace IntrusiveListMovesLemmas

variable {L : Links α} {a b b' h other : α} {xs : List α}

/-- A segment gets another end. -/
theorem seg_connect (hs : Seg L a xs b) (hnodup : (a :: xs).Nodup) (hb : b' ∉ a :: xs) :
    Seg (connect L (L.prev b) b') a xs b' := by
  induction xs generalizing a with
  | nil =>
    obtain ⟨-, hprev⟩ := hs
    simp [Seg, connect, hprev]
  | cons x xs ih =>
    obtain ⟨hnext, hprev, hrest⟩ := hs
    obtain ⟨ha, hnodup⟩ := List.nodup_cons.mp hnodup
    have hlast : a ≠ L.prev b := fun he => ha (he ▸ hrest.prev_mem)
    have hx : x ≠ b' := by
      rintro rfl
      exact hb (List.mem_cons_of_mem _ List.mem_cons_self)
    refine ⟨?_, ?_, ih hrest hnodup fun hm => hb (List.mem_cons_of_mem _ hm)⟩
    · simp [connect, Function.update_of_ne hlast, hnext]
    · simp [connect, Function.update_of_ne hx, hprev]

/-- The new head takes the place of the old one in the ring. -/
theorem move_ring (hr : IsRing L other xs) (hnodup : (other :: xs).Nodup) (hh : h ∉ other :: xs) :
    IsRing (move_construct L h other) h xs := by
  obtain ⟨hother, hnodup'⟩ := List.nodup_cons.mp hnodup
  cases xs with
  | nil =>
    obtain ⟨hnext, -⟩ := hr
    have hprev : (connect L h (L.next other)).prev other = h := by simp [connect, hnext]
    have hmove : move_construct L h other = connect (connect L h (L.next other)) h h := by
      simp only [move_construct, hprev]
    rw [hmove]
    simp [IsRing, Seg, connect]
  | cons x xs =>
    obtain ⟨hnext, hprev, hrest⟩ := hr
    have hxo : x ≠ other := fun he => hother (he ▸ List.mem_cons_self)
    have hhx : h ∉ x :: xs := fun hm => hh (List.mem_cons_of_mem _ hm)
    have hx : x ≠ h := fun he => hhx (he ▸ List.mem_cons_self)
    have hxxs : x ∉ xs := (List.nodup_cons.mp hnodup').1
    -- the first assignment leaves the cells after the first one as they are
    have hrest₁ : Seg (connect L h x) x xs other := by
      refine hrest.congr (fun c hc => ?_) fun c hc => ?_
      · have hne : c ≠ h := fun he => hhx (he ▸ hc)
        simp [connect, Function.update_of_ne hne]
      · have hne : c ≠ x := by
          rintro rfl
          exact hc.elim hxo hxxs
        simp [connect, Function.update_of_ne hne]
    have hlast : h ≠ (connect L h x).prev other := fun he => hhx (he ▸ hrest₁.prev_mem)
    have hmove : move_construct L h other = connect (connect L h x) ((connect L h x).prev other) h := by
      simp only [move_construct, hnext]
    rw [hmove]
    refine ⟨?_, ?_, seg_connect hrest₁ hnodup' hhx⟩
    · simp [connect] at hlast ⊢
      simp [Function.update_of_ne hlast]
    · simp [connect, Function.update_of_ne hx]

/-- The old head still points to its first node, which points to the new one. -/
theorem move_source (hr : IsRing L other xs) (hnodup : (other :: xs).Nodup)
    (hh : h ∉ other :: xs) :
    (move_construct L h other).next other = L.next other ∧
      (move_construct L h other).prev (L.next other) = h := by
  obtain ⟨hother, hnodup'⟩ := List.nodup_cons.mp hnodup
  have hne : other ≠ h := fun he => hh (he ▸ List.mem_cons_self)
  have hfirst : L.next other ≠ h := by
    intro he
    rcases hr.next_mem with hm | hm
    · exact hne (hm.symm.trans he)
    · exact hh (he ▸ List.mem_cons_of_mem _ hm)
  have hlast : other ≠ (connect L h (L.next other)).prev other := by
    rcases eq_or_ne other (L.next other) with he | hfirst'
    · simp [connect, ← he, hne]
    · simp only [connect, Function.update_of_ne hfirst']
      cases xs with
      | nil => exact absurd hr.1.symm hfirst'
      | cons x xs =>
        intro he
        exact hother (he ▸ hr.2.2.prev_mem)
  refine ⟨?_, ?_⟩
  · simp only [move_construct]
    simp only [connect] at hlast ⊢
    rw [Function.update_of_ne hlast, Function.update_of_ne hne]
  · simp only [move_construct, connect]
    rw [Function.update_of_ne hfirst, Function.update_self]

/-- So the source of a move is no list. -/
theorem not_ring_of_move {ys : List α} (hr : IsRing L other xs) (hnodup : (other :: xs).Nodup)
    (hh : h ∉ other :: xs) : ¬ IsRing (move_construct L h other) other ys := by
  intro hring
  obtain ⟨hnext, hprev⟩ := move_source hr hnodup hh
  have hne : h ≠ other := fun he => hh (he ▸ List.mem_cons_self)
  cases ys with
  | nil =>
    have hself : L.next other = other := hnext.symm.trans hring.1
    rw [hself] at hprev
    exact hne (hprev.symm.trans hring.2)
  | cons y ys =>
    have hfirst : L.next other = y := hnext.symm.trans hring.1
    rw [hfirst] at hprev
    exact hne (hprev.symm.trans hring.2.1)

theorem connect_eq (hnext : L.next a = b) (hprev : L.prev b = a) : connect L a b = L := by
  cases L
  simp only [connect, Links.mk.injEq, Function.update_eq_self_iff]
  exact ⟨hnext.symm, hprev.symm⟩

/-- A list that is assigned to itself stays as it is. -/
theorem move_self (hr : IsRing L h xs) : move_assign L h h = L := by
  obtain ⟨hnext, hprev⟩ := hr.inverse
  have hfirst : connect L h (L.next h) = L := connect_eq rfl (hnext h List.mem_cons_self)
  have hlast : connect L (L.prev h) h = L := connect_eq (hprev h (.inl rfl)) rfl
  unfold move_assign
  dsimp only
  rw [hfirst, hlast]

theorem swap_self (L : Links α) (h : α) : swap L h h = L := by
  cases L
  simp [swap]

/-- The neighbours of a head do not know that the heads have been exchanged. -/
theorem not_ring_of_swap (hr : IsRing L other xs) (hne : h ≠ other) (hh : h ∉ xs)
    (hother : other ∉ xs) : ¬ IsRing (swap L h other) h xs := by
  intro hring
  cases xs with
  | nil =>
    have hnext : (swap L h other).next h = L.next other := by
      simp [swap, Function.update_of_ne hne]
    exact hne (hring.1.symm.trans (hnext.trans hr.1))
  | cons x xs =>
    have hx : x ≠ h := fun he => hh (he ▸ List.mem_cons_self)
    have hxo : x ≠ other := fun he => hother (he ▸ List.mem_cons_self)
    have hprev : (swap L h other).prev x = L.prev x := by
      simp [swap, Function.update_of_ne hx, Function.update_of_ne hxo]
    exact hne (hring.2.1.symm.trans (hprev.trans hr.2.1))

end IntrusiveListMovesLemmas

open IntrusiveListMovesLemmas

variable [DecidableEq ι] {head : ι → α} {w : Links α × Seqs ι α}

omit [DecidableEq ι] in
/-- A new list that is constructed from another one has its sequence, and so has one that another
one is assigned to. -/
theorem move_destination (hw : Inv head w) {h : α} {src : ι} (hh : h ∉ head src :: w.2.seq src) :
    IsRing (move_construct w.1 h (head src)) h (w.2.seq src) :=
  move_ring (hw.ring src) (hw.nodup src) hh

/-- After any sequence of operations on lists, moving one list to another or exchanging the two
leaves lists behind if and only if both are the same object. -/
theorem transfers_iff (hh : Function.Injective head) {w₀ : Links α × Seqs ι α}
    {ops : List (Op ι α)} (h₀ : (system head).init w₀) (h : Run (system head) w₀ ops w)
    {t : Transfer ι α} (ht : t.Valid head w.2) :
    Transfers head w.2 (transfer head w.1 t) t ↔ t.Same := by
  have hw : Inv head w := h.invariant_state (inv_init hh h₀) fun _ _ _ => inv_step
  have hout {l l' : ι} (hne : l ≠ l') : head l ∉ head l' :: w.2.seq l' := fun hm =>
    hw.disjoint l l' hne List.mem_cons_self hm
  cases t with
  | move_construct h src =>
    refine iff_of_false (fun hmoved => ?_) id
    exact not_ring_of_move (hw.ring src) (hw.nodup src) (ht src) hmoved.2
  | move_assign dst src =>
    constructor
    · rintro ⟨-, xs, hring, -⟩
      show dst = src
      refine Decidable.by_contra fun hne => ?_
      exact not_ring_of_move (hw.ring src) (hw.nodup src) (hout hne) hring
    · rintro rfl
      have hself : transfer head w.1 (.move_assign dst dst) = w.1 := move_self (hw.ring dst)
      rw [hself]
      exact ⟨hw.ring dst, w.2.seq dst, hw.ring dst, fun _ hm => hm, fun _ hm => .inl hm⟩
  | swap l other =>
    constructor
    · rintro ⟨hring, -⟩
      show l = other
      refine Decidable.by_contra fun hne => ?_
      have hl := hout hne
      exact not_ring_of_swap (hw.ring other) (fun he => hne (hh he))
        (fun hm => hl (List.mem_cons_of_mem _ hm)) (List.nodup_cons.mp (hw.nodup other)).1 hring
    · rintro rfl
      have hself : transfer head w.1 (.swap l l) = w.1 := swap_self w.1 (head l)
      rw [hself]
      exact ⟨hw.ring l, hw.ring l⟩

/-- A memory with two lists, whose heads are the cells `0` and `1`. -/
def exPair : Links Nat := ⟨id, id⟩

def exHead (second : Bool) : Nat := second.toNat

theorem exHead_injective : Function.Injective exHead := by
  intro a b h
  cases a <;> cases b <;> simp_all [exHead]

theorem init_exPair : (system exHead).init (exPair, ⟨fun _ => [], []⟩) :=
  ⟨fun _ => connect_self.mpr ⟨rfl, rfl⟩, rfl⟩

theorem transfers_iff_example :
    Transfers exHead ⟨fun _ => [], []⟩ (transfer exHead exPair (.swap false true))
      (.swap false true) ↔ (Transfer.swap false true : Transfer Bool Nat).Same :=
  transfers_iff exHead_injective init_exPair .nil trivial

/-- Two empty lists are swapped, moved and assigned. -/
theorem not_transfers :
    (system exHead).init (exPair, ⟨fun _ => [], []⟩) ∧
      ¬ Transfers exHead ⟨fun _ => [], []⟩ (transfer exHead exPair (.swap false true))
        (.swap false true) ∧
      ¬ Transfers exHead ⟨fun _ => [], []⟩ (transfer exHead exPair (.move_construct 2 true))
        (.move_construct 2 true) ∧
      (transfer exHead exPair (.move_assign false true)).prev 1 = 0 := by
  refine ⟨⟨fun _ => connect_self.mpr ⟨rfl, rfl⟩, rfl⟩, fun hswap => ?_, fun hmove => ?_, by decide⟩
  · exact absurd hswap.1.1 (by decide)
  · exact absurd hmove.2.2 (by decide)

end Kuhllib.IntrusiveList
