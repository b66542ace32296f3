import Kuhllib.Lib.ArrayContent
import Kuhllib.Lib.HeapOrder
import Kuhllib.Lib.Transition

/-!
# `boost::priority_queue`

`base` are the cells of `m_container`, `size` is its size. In each of the loops `cidx` is the
right child of `hidx`. The loop of `pop` leaves a hole above a single left child alone, and the
code behind it looks at the hole again; there is no such code in `change_top`.

Results:
1. `siftup_spec`, `pop_loop_spec`, `change_top_loop_spec`: the loops move a hole.
2. `push_spec`, `pop_spec`, `change_top_spec`: what the operations do to the values.
3. `refines_bag_iff`: the runs that are runs of a bag from which a maximum is popped.
-/

namespace Kuhllib.PriorityQueue

open HeapOrder ArrayContent Transition

structure Heap (T : Type) where
  base : Nat → T
  size : Nat

variable {T : Type}

/-- `*(base + idx) = value;`. -/
def Heap.assign (s : Heap T) (idx : Nat) (value : T) : Heap T :=
  { s with base := Function.update s.base idx value }

section

variable (m_compare : T → T → Bool)

/-- The loop of `siftup` and the assignment behind it. -/
def Heap.siftup_loop (s : Heap T) (idx : Nat) (value : T) : Heap T :=
  let pidx := (idx - 1) / 2
  if _h : idx ≠ 0 ∧ m_compare (s.base pidx) value = true then
    (s.assign idx (s.base pidx)).siftup_loop pidx value
  else s.assign idx value
termination_by idx
decreasing_by exact parent_lt (Nat.pos_of_ne_zero _h.1)

def Heap.siftup (s : Heap T) (idx : Nat) (value : T) : Heap T :=
  if idx = 0 then s else s.siftup_loop m_compare idx value

def Heap.push (s : Heap T) (val : T) : Heap T :=
  let s : Heap T := { base := Function.update s.base s.size val, size := s.size + 1 }
  s.siftup m_compare (s.size - 1) val

/-- The greater one of the child `cidx` and the one before it. -/
def Heap.greater_child (s : Heap T) (cidx : Nat) : Nat :=
  if m_compare (s.base cidx) (s.base (cidx - 1)) then cidx - 1 else cidx

theorem greater_child_mem (s : Heap T) (hidx : Nat) :
    hidx * 2 + 1 ≤ s.greater_child m_compare (hidx * 2 + 2) ∧
      s.greater_child m_compare (hidx * 2 + 2) ≤ hidx * 2 + 2 := by
  unfold Heap.greater_child
  split
  · exact ⟨Nat.le_refl _, Nat.le_succ _⟩
  · exact ⟨Nat.le_succ _, Nat.le_refl _⟩

/-- The loop goes on behind the hole. -/
theorem greater_child_gt (s : Heap T) (hidx : Nat) :
    hidx < s.greater_child m_compare (hidx * 2 + 2) :=
  Nat.lt_of_lt_of_le (Nat.lt_succ_of_le (Nat.le_mul_of_pos_right hidx Nat.two_pos))
    (greater_child_mem m_compare s hidx).1

/-- The loop of `pop`. -/
def Heap.pop_loop (s : Heap T) (hidx : Nat) : Heap T × Nat :=
  let cidx := hidx * 2 + 2
  if _h : cidx < s.size then
    let cidx := s.greater_child m_compare cidx
    (s.assign hidx (s.base cidx)).pop_loop cidx
  else (s, hidx)
termination_by s.size - hidx
decreasing_by
  have hgt := greater_child_gt m_compare s hidx
  exact Nat.sub_lt_sub_left (Nat.lt_trans hgt (Nat.lt_of_le_of_lt (greater_child_mem ..).2 _h)) hgt

def Heap.pop (s : Heap T) : Heap T :=
  let len := s.size
  let (s, hidx) := s.pop_loop m_compare 0
  let cidx := hidx * 2 + 2
  let s := s.assign hidx (s.base (len - 1))
  -- the argument is the last cell itself, which `siftup` does not write
  let s := if cidx ≠ len then s.siftup m_compare hidx (s.base (len - 1)) else s
  { s with size := s.size - 1 }

/-- The loop of `change_top`. -/
def Heap.change_top_loop (s : Heap T) (hidx : Nat) (tmp : T) : Heap T × Nat :=
  let cidx := hidx * 2 + 2
  if _h : cidx < s.size then
    let cidx := s.greater_child m_compare cidx
    if m_compare (s.base cidx) tmp then (s, hidx)
    else (s.assign hidx (s.base cidx)).change_top_loop cidx tmp
  else (s, hidx)
termination_by s.size - hidx
decreasing_by
  have hgt := greater_child_gt m_compare s hidx
  exact Nat.sub_lt_sub_left (Nat.lt_trans hgt (Nat.lt_of_le_of_lt (greater_child_mem ..).2 _h)) hgt

/-- `change_top(val)`; `tmp` is what the assignment of `val` leaves. -/
def Heap.change_top (s : Heap T) (tmp : T) : Heap T :=
  let (s, hidx) := s.change_top_loop m_compare 0 tmp
  s.assign hidx tmp

end

def Heap.top (s : Heap T) : T := s.base 0

inductive Label (T : Type)
  | push (val : T)
  | pop
  | change_top (val : T)

def next (m_compare : T → T → Bool) (s : Heap T) : Label T → Option (Heap T)
  | .push val => some (s.push m_compare val)
  | .pop => if s.size ≠ 0 then some (s.pop m_compare) else none
  | .change_top val => if s.size ≠ 0 then some (s.change_top m_compare val) else none

def system (m_compare : T → T → Bool) : System (Heap T) (Label T) where
  init s := s.size = 0
  step s l s' := next m_compare s l = some s'

def Heap.values (s : Heap T) : Multiset T := content s.size s.base

/-! ## 1. The loops -/

section

variable {m_compare : T → T → Bool} [IsStrictWeakOrder T (m_compare · ·)] {s : Heap T}
  {h : Nat} {value : T}

namespace PriorityQueueLemmas

/-- A value is put at `h` or, as long as it is greater, above it. -/
theorem siftup_loop_spec (hs : Hole 2 (m_compare · ·) s.size h s.base) (hn : h < s.size)
    (habove : Above 2 (m_compare · ·) s.size h s.base value) :
    let s' := s.siftup_loop m_compare h value
    s'.size = s.size ∧ Ordered 2 (m_compare · ·) s.size s'.base ∧
      s'.values = value ::ₘ around s.size h s.base ∧ ∀ i, h < i → s'.base i = s.base i := by
  induction h using Nat.strongRecOn generalizing s with
  | ind h ih =>
    rw [Heap.siftup_loop]
    split
    · rename_i hloop
      have hpos : 0 < h := Nat.pos_of_ne_zero hloop.1
      have hlt := parent_lt (d := 2) hpos
      obtain ⟨hhole, habove'⟩ := hs.up hpos hn hloop.2
      obtain ⟨hsize, hord, hvalues, hframe⟩ :=
        ih _ hlt (s := s.assign h (s.base (parent 2 h))) hhole (Nat.lt_trans hlt hn) habove'
      refine ⟨hsize, hord, hvalues.trans ?_, fun i hi => ?_⟩
      · exact congrArg _ (around_move (Nat.lt_trans hlt hn) hn (Nat.ne_of_lt hlt))
      · exact (hframe i (Nat.lt_trans hlt hi)).trans
          (Function.update_of_ne (Nat.ne_of_gt hi) ..)
    · rename_i hstop
      refine ⟨rfl, hs.fill habove fun hpos hlt => hstop ⟨Nat.ne_of_gt hpos, hlt⟩,
        content_update hn, fun i hi => Function.update_of_ne (Nat.ne_of_gt hi) ..⟩

omit [IsStrictWeakOrder T (m_compare · ·)] in
theorem siftup_eq (hvalue : s.base h = value) :
    s.siftup m_compare h value = s.siftup_loop m_compare h value := by
  unfold Heap.siftup
  split
  · rename_i hzero
    rw [Heap.siftup_loop, dif_neg fun hc => hc.1 hzero, Heap.assign, ← hvalue,
      Function.update_eq_self]
  · rfl

/-- `siftup` for a value that stands in its cell. -/
theorem siftup_spec (hs : Hole 2 (m_compare · ·) s.size h s.base) (hn : h < s.size)
    (habove : Above 2 (m_compare · ·) s.size h s.base value) (hvalue : s.base h = value) :
    let s' := s.siftup m_compare h value
    s'.size = s.size ∧ Ordered 2 (m_compare · ·) s.size s'.base ∧
      s'.values = value ::ₘ around s.size h s.base ∧ ∀ i, h < i → s'.base i = s.base i := by
  rw [siftup_eq hvalue]
  exact siftup_loop_spec hs hn habove

theorem greater_child_lastGreatest (hfull : h * 2 + 2 < s.size) :
    LastGreatest 2 (m_compare · ·) s.size s.base h (s.greater_child m_compare (h * 2 + 2)) := by
  have hirrefl : ∀ x, ¬ m_compare x x = true := irrefl (r := (m_compare · ·))
  have hcases : ∀ c, h * 2 + 1 ≤ c → c ≤ h * 2 + 2 → c = h * 2 + 1 ∨ c = h * 2 + 2 := by
    intro c hc hc'
    omega
  unfold Heap.greater_child
  by_cases hless : m_compare (s.base (h * 2 + 2)) (s.base (h * 2 + 2 - 1)) = true
  · rw [if_pos hless]
    refine ⟨hfull, Nat.le_refl _, Nat.le_succ _, fun c hc hc' => ?_, fun c hc hc' => ?_⟩
    · rcases hcases c hc hc' with rfl | rfl
      · exact hirrefl _
      · exact asymm (r := (m_compare · ·)) hless
    · rcases hcases c (Nat.le_of_lt hc) hc' with rfl | rfl
      · exact absurd hc (Nat.lt_irrefl _)
      · exact hless
  · rw [if_neg hless]
    refine ⟨hfull, Nat.le_succ _, Nat.le_refl _, fun c hc hc' => ?_,
      fun c hc hc' => absurd hc' (Nat.not_le.mpr hc)⟩
    rcases hcases c hc hc' with rfl | rfl
    · exact hless
    · exact hirrefl _

/-- The greater child moves up into the hole. -/
theorem down_spec (hs : Hole 2 (m_compare · ·) s.size h s.base) (hfull : h * 2 + 2 < s.size) :
    let m := s.greater_child m_compare (h * 2 + 2)
    let s' := s.assign h (s.base m)
    h < m ∧ m < s.size ∧ parent 2 m = h ∧ Hole 2 (m_compare · ·) s.size m s'.base ∧
      around s.size m s'.base = around s.size h s.base ∧
      s'.base (parent 2 m) = s'.base m ∧ ∀ i, h < i → s'.base i = s.base i := by
  intro m s'
  have hm : LastGreatest 2 (m_compare · ·) s.size s.base h m := greater_child_lastGreatest hfull
  obtain ⟨hlt, hmn, hp⟩ := hm.child
  have hother : ∀ i, h < i → s'.base i = s.base i :=
    fun i hi => Function.update_of_ne (Nat.ne_of_gt hi) ..
  refine ⟨hlt, hmn, hp, hs.down (Nat.lt_of_le_of_lt (Nat.zero_le h) hlt) hmn hp ?_,
    around_move hmn (Nat.lt_trans hlt hmn) (Nat.ne_of_gt hlt), ?_, hother⟩
  · intro i hi _ hpi
    obtain ⟨hlow, hhigh⟩ := (parent_eq_iff Nat.two_pos hi).mp hpi
    exact hm.greatest i hlow hhigh
  · rw [hp, hother m hlt]
    exact Function.update_self ..

/-- The hole goes down to a cell that has no two children. Where it has moved, the value of
the cell stands above it as well. -/
theorem pop_loop_spec (hs : Hole 2 (m_compare · ·) s.size h s.base) (hn : h < s.size) :
    let r := s.pop_loop m_compare h
    r.1.size = s.size ∧ Hole 2 (m_compare · ·) s.size r.2 r.1.base ∧ r.2 < s.size ∧
      s.size ≤ r.2 * 2 + 2 ∧ around s.size r.2 r.1.base = around s.size h s.base ∧
      (∀ i, r.2 ≤ i → r.1.base i = s.base i) ∧
      (r.2 ≠ h → r.1.base (parent 2 r.2) = r.1.base r.2) ∧ h ≤ r.2 ∧
      ∀ i, i < h → r.1.base i = s.base i := by
  induction hk : s.size - h using Nat.strongRecOn generalizing s h with
  | ind k ih =>
    rw [Heap.pop_loop]
    split
    · rename_i hfull
      obtain ⟨hlt, hmn, hp, hhole, haround, htwice, hother⟩ := down_spec hs hfull
      generalize s.greater_child m_compare (h * 2 + 2) = m at *
      obtain ⟨hsize, hhole', hlast, hend, haround', hframe, hlink, hle, hbefore⟩ :=
        ih _ (by rw [← hk]; exact Nat.sub_lt_sub_left hn hlt)
          (s := s.assign h (s.base m)) hhole hmn rfl
      refine ⟨hsize, hhole', hlast, hend, haround'.trans haround, fun i hi => ?_, fun _ => ?_,
        Nat.le_trans (Nat.le_of_lt hlt) hle, fun i hi => ?_⟩
      · rw [hframe i hi]
        exact hother i (Nat.lt_of_lt_of_le hlt (Nat.le_trans hle hi))
      · dsimp only at hframe hlink hbefore ⊢
        by_cases hmove : ((s.assign h (s.base m)).pop_loop m_compare m).2 = m
        · rw [hmove, hbefore _ (hp ▸ hlt), hframe m (Nat.le_of_eq hmove), htwice]
        · exact hlink hmove
      · rw [hbefore i (Nat.lt_trans hi hlt)]
        exact Function.update_of_ne (Nat.ne_of_lt hi) ..
    · rename_i hend
      exact ⟨rfl, hs, hn, Nat.le_of_not_lt hend, rfl, fun _ _ => rfl, fun hne => absurd rfl hne,
        Nat.le_refl h, fun _ _ => rfl⟩

/-- The hole goes down as long as its greater child is not less than the value, which is then
above the children of the last cell exactly if nothing greater is below the end of the way. -/
theorem change_top_loop_spec (hs : Hole 2 (m_compare · ·) s.size h s.base) (hn : h < s.size)
    (hup : 0 < h → ¬ m_compare (s.base (parent 2 h)) value) :
    let r := s.change_top_loop m_compare h value
    r.1.size = s.size ∧ Hole 2 (m_compare · ·) s.size r.2 r.1.base ∧ r.2 < s.size ∧
      around s.size r.2 r.1.base = around s.size h s.base ∧
      (0 < r.2 → ¬ m_compare (r.1.base (parent 2 r.2)) value) ∧
      (Above 2 (m_compare · ·) s.size r.2 r.1.base value ↔
        NoneGreater 2 (m_compare · ·) s.size s.base h value) := by
  induction hk : s.size - h using Nat.strongRecOn generalizing s h with
  | ind k ih =>
    rw [Heap.change_top_loop]
    by_cases hfull : h * 2 + 2 < s.size
    · rw [dif_pos hfull]
      have hm : LastGreatest 2 (m_compare · ·) s.size s.base h
          (s.greater_child m_compare (h * 2 + 2)) := greater_child_lastGreatest hfull
      obtain ⟨hlt, hmn, hp, hhole, haround, htwice, hother⟩ := down_spec hs hfull
      generalize s.greater_child m_compare (h * 2 + 2) = m at *
      by_cases hless : m_compare (s.base m) value = true
      · rw [if_pos hless]
        have hgroup : ∀ c, h * 2 + 1 ≤ c → c ≤ h * 2 + 2 → ¬ m_compare value (s.base c) :=
          fun c hc hc' => @not_lt_trans _ (m_compare · ·) _ _ _ _
            (asymm (r := (m_compare · ·)) hless) (hm.greatest c hc hc')
        refine ⟨rfl, hs, hn, rfl, hup, iff_of_true (fun i hi _ hpi => ?_) ?_⟩
        · obtain ⟨hlow, hhigh⟩ := (parent_eq_iff Nat.two_pos hi).mp hpi
          exact hgroup i hlow hhigh
        · refine noneGreater_of_group hfull hgroup fun i hi hin hpi => ?_
          exact hs.except i hi hin (Nat.ne_of_gt (Nat.lt_trans hpi (parent_lt hi)))
            (Nat.ne_of_gt hpi)
      · rw [if_neg hless]
        have hup' : 0 < m → ¬ m_compare ((s.assign h (s.base m)).base (parent 2 m)) value := by
          intro _
          rw [htwice, hother m hlt]
          exact hless
        obtain ⟨hsize, hhole', hlast, haround', hstop, habove⟩ :=
          ih _ (by rw [← hk]; exact Nat.sub_lt_sub_left hn hlt)
            (s := s.assign h (s.base m)) hhole hmn hup' rfl
        refine ⟨hsize, hhole', hlast, haround'.trans haround, hstop, habove.trans ?_⟩
        rw [hm.noneGreater_iff]
        exact ⟨fun hx => hx.congr Nat.two_pos fun i hi _ => (hother i (Nat.lt_trans hlt hi)).symm,
          fun hx => hx.congr Nat.two_pos fun i hi _ => hother i (Nat.lt_trans hlt hi)⟩
    · rw [dif_neg hfull]
      exact ⟨rfl, hs, hn, rfl, hup, (noneGreater_end Nat.two_pos (Nat.le_of_not_lt hfull)).symm⟩

omit [IsStrictWeakOrder T (m_compare · ·)] in
theorem siftup_loop_stop (hstop : 0 < h → ¬ m_compare (s.base (parent 2 h)) value) :
    s.siftup_loop m_compare h value = s.assign h value := by
  rw [Heap.siftup_loop]
  exact dif_neg fun hc => hstop (Nat.pos_of_ne_zero hc.1) hc.2

/-- The value of the last of `n + 1` cells is put into the hole. Behind a single left child,
which is the last cell, there is nothing to do. -/
theorem last_spec {n : Nat} (hsize : s.size = n + 1)
    (hs : Hole 2 (m_compare · ·) (n + 1) h s.base) (hn : h < n + 1) (hend : n + 1 ≤ h * 2 + 2)
    (hlink : h = n → 0 < h → s.base (parent 2 h) = s.base h) :
    let t := s.assign h (s.base n)
    let s' := if h * 2 + 2 ≠ n + 1 then t.siftup m_compare h (t.base n) else t
    s'.size = n + 1 ∧ Ordered 2 (m_compare · ·) n s'.base ∧
      content n s'.base = around (n + 1) h s.base := by
  intro t s'
  have htbase : t.base n = s.base n := by
    by_cases hlast : n = h
    · subst hlast
      exact Function.update_self ..
    · exact Function.update_of_ne hlast ..
  have hcell : t.base h = s.base n := Function.update_self ..
  -- what is left to show is what stands in all the cells, and in the last one
  have hdrop : content (n + 1) s'.base = s.base n ::ₘ around (n + 1) h s.base →
      s'.base n = s.base n → content n s'.base = around (n + 1) h s.base := by
    intro hcontent hlast
    rw [content_succ, hlast] at hcontent
    exact (Multiset.cons_inj_right _).mp hcontent
  by_cases hsingle : h * 2 + 2 = n + 1
  · have hs' : s' = t := if_neg (not_not.mpr hsingle)
    have hpn : parent 2 n = h := (parent_eq_iff Nat.two_pos (by omega)).mpr (by omega)
    rw [hs'] at hdrop ⊢
    refine ⟨hsize, (hs.mono (Nat.le_succ n)).fill (fun i hi hin hp => ?_) fun hpos => ?_,
      hdrop (content_update hn) htbase⟩
    · have hlow := ((parent_eq_iff Nat.two_pos hi).mp hp).1
      exact absurd hin (by omega)
    · exact hs.across hpos n (by omega) (Nat.lt_succ_self n) hpn
  · have hs' : s' = t.siftup m_compare h (s.base n) := by
      rw [← htbase]
      exact if_pos hsingle
    have hhole : Hole 2 (m_compare · ·) t.size h t.base := by
      show Hole 2 (m_compare · ·) s.size h (Function.update s.base h (s.base n))
      rw [hsize]
      exact hs.congr (fun i _ hi => Function.update_of_ne hi ..) hn
    have hleaf : Above 2 (m_compare · ·) t.size h t.base (s.base n) := by
      intro i hi hin hp
      have hin : i < s.size := hin
      have hlow := ((parent_eq_iff Nat.two_pos hi).mp hp).1
      exact absurd hin (by omega)
    obtain ⟨hsize', hord, hvalues, hframe⟩ :=
      siftup_spec hhole (hsize ▸ hn : h < s.size) hleaf hcell
    have htsize : t.size = n + 1 := hsize
    rw [htsize] at hsize' hord hvalues
    rw [hs'] at hdrop ⊢
    have haround : around (n + 1) h t.base = around (n + 1) h s.base := around_update
    rw [Heap.values, hsize', haround] at hvalues
    refine ⟨hsize', hord.mono (Nat.le_succ n), hdrop hvalues ?_⟩
    rcases Nat.eq_or_lt_of_le (Nat.le_of_lt_succ hn) with hlast | hless
    · -- the value stands in the last cell and above it
      have hstop : 0 < h → ¬ m_compare (t.base (parent 2 h)) (s.base n) = true := by
        intro hpos
        have hup : t.base (parent 2 h) = s.base (parent 2 h) :=
          Function.update_of_ne (Nat.ne_of_lt (parent_lt hpos)) ..
        rw [hup, hlink hlast hpos, hlast]
        exact irrefl (r := (m_compare · ·)) _
      rw [siftup_eq hcell, siftup_loop_stop hstop, ← hlast]
      exact Function.update_self ..
    · rw [hframe n hless, htbase]

end PriorityQueueLemmas

open PriorityQueueLemmas

/-! ## 2. The operations -/

/-- No element is greater than its parent. -/
abbrev Heap.Sorted (m_compare : T → T → Bool) (s : Heap T) : Prop :=
  Ordered 2 (m_compare · ·) s.size s.base

theorem push_spec (ho : s.Sorted m_compare) (val : T) :
    (s.push m_compare val).Sorted m_compare ∧
      (s.push m_compare val).values = val ::ₘ s.values := by
  let s₁ : Heap T := { base := Function.update s.base s.size val, size := s.size + 1 }
  have hhole : Hole 2 (m_compare · ·) s₁.size s.size s₁.base :=
    ho.grow.congr (fun i _ hi => Function.update_of_ne hi ..) (Nat.lt_succ_self _)
  obtain ⟨hsize, hord, hvalues, -⟩ := siftup_spec hhole (Nat.lt_succ_self _)
    above_last (Function.update_self .. : s₁.base s.size = val)
  have hpush : s.push m_compare val = s₁.siftup m_compare s.size val := rfl
  have hold : around s₁.size s.size s₁.base = s.values :=
    around_update.trans (around_last s.size s.base)
  rw [hpush]
  refine ⟨?_, hvalues.trans (congrArg _ hold)⟩
  rw [Heap.Sorted, hsize]
  exact hord

theorem pop_spec (ho : s.Sorted m_compare) (hpos : 0 < s.size) :
    (s.pop m_compare).Sorted m_compare ∧ s.values = s.top ::ₘ (s.pop m_compare).values := by
  obtain ⟨n, hn⟩ := Nat.exists_eq_succ_of_ne_zero (Nat.ne_of_gt hpos)
  obtain ⟨hsize, hhole, hlt, hend, haround, -, hlink, -⟩ := pop_loop_spec (ho.hole hpos) hpos
  have hpop : s.pop m_compare =
      let r := s.pop_loop m_compare 0
      let t := r.1.assign r.2 (r.1.base (s.size - 1))
      let s' := if r.2 * 2 + 2 ≠ s.size then t.siftup m_compare r.2 (t.base (s.size - 1)) else t
      { s' with size := s'.size - 1 } := rfl
  generalize s.pop_loop m_compare 0 = r at *
  dsimp only at hsize hhole hlt hend haround hlink hpop
  have hsub : s.size - 1 = n := by rw [hn, Nat.succ_sub_one]
  rw [hsub, hn] at hpop
  rw [hn] at hsize hhole hlt hend
  obtain ⟨hsize', hord, hcontent⟩ :=
    last_spec hsize hhole hlt hend fun _ hpos => hlink (Nat.ne_of_gt hpos)
  rw [hpop]
  refine ⟨?_, ?_⟩
  · rw [Heap.Sorted, hsize']
    exact hord
  · rw [Heap.values, Heap.values, hsize', ← cons_around hpos, ← haround]
    show _ = s.top ::ₘ content n _
    rw [hcontent, hn]
    rfl

/-- The new value stands right exactly if the way down ends above no greater one. -/
theorem change_top_spec (ho : s.Sorted m_compare) (hpos : 0 < s.size) (val : T) :
    ((s.change_top m_compare val).Sorted m_compare ↔
      NoneGreater 2 (m_compare · ·) s.size s.base 0 val) ∧
    ∃ rest, s.values = s.top ::ₘ rest ∧ (s.change_top m_compare val).values = val ::ₘ rest := by
  obtain ⟨hsize, hhole, hlt, haround, hstop, habove⟩ :=
    change_top_loop_spec (ho.hole hpos) hpos
      (fun hlt => absurd hlt (Nat.lt_irrefl 0) : 0 < 0 → ¬ m_compare (s.base (parent 2 0)) val)
  have hchange : s.change_top m_compare val =
      let r := s.change_top_loop m_compare 0 val
      r.1.assign r.2 val := rfl
  rw [hchange]
  generalize s.change_top_loop m_compare 0 val = r at *
  dsimp only at hsize hhole hlt haround hstop habove ⊢
  have hsize' : (r.1.assign r.2 val).size = s.size := hsize
  refine ⟨?_, around s.size 0 s.base, (cons_around hpos).symm, ?_⟩
  · rw [Heap.Sorted, hsize', ← habove]
    exact hhole.fill_iff hstop
  · rw [Heap.values, hsize', ← haround]
    exact content_update hlt

/-! ## 3. The bag -/

def IsMaximum (m_compare : T → T → Bool) (q : Multiset T) (x : T) : Prop :=
  x ∈ q ∧ ∀ y ∈ q, m_compare x y = false

/-- A maximum is popped, or gets a new value. -/
def bag (m_compare : T → T → Bool) : System (Multiset T) (Label T) where
  init q := q = 0
  step q l q' :=
    match l with
    | .push val => q' = val ::ₘ q
    | .pop => ∃ x, IsMaximum m_compare q x ∧ q = x ::ₘ q'
    | .change_top val => ∃ x rest, IsMaximum m_compare q x ∧ q = x ::ₘ rest ∧ q' = val ::ₘ rest

/-- The heap holds the values of the bag, and its first one is a maximum. -/
structure Agrees (m_compare : T → T → Bool) (s : Heap T) (q : Multiset T) : Prop where
  ordered : ∀ i, 0 < i → i < s.size → m_compare (s.base ((i - 1) / 2)) (s.base i) = false
  values : s.values = q
  top : s.size ≠ 0 → IsMaximum m_compare q s.top

/-- The way down to the greatest children of the root does not end above a single left child
that is greater than the new value. -/
def Fits (m_compare : T → T → Bool) (s : Heap T) : Label T → Prop
  | .change_top val => NoneGreater 2 (m_compare · ·) s.size s.base 0 val
  | _ => True

theorem top_isMaximum (ho : s.Sorted m_compare) (hpos : 0 < s.size) :
    IsMaximum m_compare s.values s.top := by
  refine ⟨mem_content.mpr ⟨0, hpos, rfl⟩, fun y hy => ?_⟩
  obtain ⟨i, hi, rfl⟩ := mem_content.mp hy
  exact Bool.eq_false_iff.mpr (ho.root hi)

theorem agrees_of_sorted (ho : s.Sorted m_compare) : Agrees m_compare s s.values where
  ordered i hi hin := Bool.eq_false_iff.mpr (ho i hi hin)
  values := rfl
  top hne := top_isMaximum ho (Nat.pos_of_ne_zero hne)

omit [IsStrictWeakOrder T (m_compare · ·)] in
theorem Agrees.sorted {q : Multiset T} (h : Agrees m_compare s q) : s.Sorted m_compare :=
  fun i hi hin => Bool.eq_false_iff.mp (h.ordered i hi hin)

/-- Every operation is the one of the bag, and leaves an ordered heap exactly if it fits. -/
theorem bag_step {s' : Heap T} {l : Label T} (ho : s.Sorted m_compare)
    (hs : next m_compare s l = some s') :
    (bag m_compare).step s.values l s'.values ∧ (s'.Sorted m_compare ↔ Fits m_compare s l) := by
  cases l with
  | push val =>
    cases hs
    obtain ⟨hord, hvalues⟩ := push_spec ho val
    exact ⟨hvalues, iff_of_true hord trivial⟩
  | pop =>
    obtain ⟨hne, hs⟩ := Option.ite_none_right_eq_some.mp hs
    cases hs
    have hpos := Nat.pos_of_ne_zero hne
    obtain ⟨hord, hvalues⟩ := pop_spec ho hpos
    exact ⟨⟨s.top, top_isMaximum ho hpos, hvalues⟩, iff_of_true hord trivial⟩
  | change_top val =>
    obtain ⟨hne, hs⟩ := Option.ite_none_right_eq_some.mp hs
    cases hs
    have hpos := Nat.pos_of_ne_zero hne
    obtain ⟨hord, rest, hold, hnew⟩ := change_top_spec ho hpos val
    exact ⟨⟨s.top, rest, top_isMaximum ho hpos, hold, hnew⟩, hord⟩

/-- After each of the operations `tr` the heap is ordered, holds the values of the bag and has
a maximum of them at the top, exactly if every `change_top` fits. -/
theorem refines_bag_iff {s₀ : Heap T} (h₀ : (system m_compare).init s₀) (tr : List (Label T)) :
    (∀ p s, p <+: tr → Run (system m_compare) s₀ p s →
      ∃ q, Run (bag m_compare) 0 p q ∧ Agrees m_compare s q) ↔
    ∀ p s l s', p ++ [l] <+: tr → Run (system m_compare) s₀ p s →
      (system m_compare).step s l s' → Fits m_compare s l := by
  have hsize : s₀.size = 0 := h₀
  refine prefixes_iff (I := fun p s => ∃ q, Run (bag m_compare) 0 p q ∧ Agrees m_compare s q)
    ⟨0, .nil, ⟨fun i _ hi => ?_, ?_, fun hne => absurd hsize hne⟩⟩ ?_
  · exact absurd hi (hsize ▸ Nat.not_lt_zero i)
  · rw [Heap.values, hsize]
    rfl
  · rintro p s l s' - ⟨q, hq, hagrees⟩ hs
    obtain ⟨hbag, hfits⟩ := bag_step hagrees.sorted hs
    rw [hagrees.values] at hbag
    rw [← hfits]
    exact ⟨fun ⟨_, _, h'⟩ => h'.sorted, fun hord => ⟨_, hq.snoc hbag, agrees_of_sorted hord⟩⟩

end

/-- Without `change_top` every heap is ordered. -/
theorem refines_bag_iff_example : ∃ (s : Heap Nat) (q : Multiset Nat),
    Run (system fun x y => decide (x < y)) ⟨id, 0⟩ [.push 3, .push 5, .push 4, .pop, .push 1] s ∧
      Run (bag fun x y => decide (x < y)) 0 [.push 3, .push 5, .push 4, .pop, .push 1] q ∧
      Agrees (fun x y => decide (x < y)) s q := by
  have h₀ : (system fun x y => decide (x < y)).init (⟨id, 0⟩ : Heap Nat) := rfl
  have hrun : ∃ s, Run (system fun x y => decide (x < y)) ⟨id, 0⟩
      [.push 3, .push 5, .push 4, .pop, .push 1] s := by
    refine ⟨_, .cons rfl <| .cons rfl <| .cons rfl <| .cons (if_pos ?_) <| .single rfl⟩
    simp [Heap.push, Heap.siftup, Heap.siftup_loop, Heap.assign]
  obtain ⟨s, hrun⟩ := hrun
  obtain ⟨q, hq, hagrees⟩ := (refines_bag_iff h₀ _).mpr (fun p s l s' hp _ _ => by
    have hl : l ∈ [.push 3, .push 5, .push 4, .pop, .push 1] :=
      hp.subset (List.mem_append_right p (List.mem_singleton_self l))
    cases l with
    | change_top val => simp at hl
    | _ => trivial) _ s (List.prefix_refl _) hrun
  exact ⟨s, q, hrun, hq, hagrees⟩

/-- The root gets a value below that of its only child. -/
theorem not_refines_bag : ¬ ∀ (s₀ s : Heap Nat) (tr : List (Label Nat)),
    (system fun x y => decide (x < y)).init s₀ →
    Run (system fun x y => decide (x < y)) s₀ tr s →
    ∃ q, Run (bag fun x y => decide (x < y)) 0 tr q ∧
      Agrees (fun x y => decide (x < y)) s q := by
  intro hall
  have hrun : ∃ s, Run (system fun x y => decide (x < y)) ⟨id, 0⟩
      [.push 5, .push 3, .change_top 1] s ∧ s.size = 2 ∧ s.base 0 = 1 ∧ s.base 1 = 3 := by
    refine ⟨_, .cons rfl <| .cons rfl <| .single (if_pos ?_), ?_⟩ <;>
    simp [Heap.push, Heap.change_top, Heap.siftup, Heap.siftup_loop, Heap.change_top_loop,
      Heap.assign]
  obtain ⟨s, hrun, hsize, hroot, hchild⟩ := hrun
  obtain ⟨q, -, hagrees⟩ := hall ⟨id, 0⟩ s _ (show 0 = 0 from rfl) hrun
  have hord := hagrees.ordered 1 Nat.one_pos (hsize ▸ Nat.lt_succ_self 1)
  rw [hchild, hroot] at hord
  exact absurd hord (by decide)

end Kuhllib.PriorityQueue
