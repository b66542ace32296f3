import Kuhllib.Heap.DHeap

/-!
# `boost::d_heap`: `decrease`, `change` and `remove`

`decrease` moves an element down, `remove` moves the hole of an element down. Both loops
look at full groups of children only; the group at the end of the array may be partial.
`remove` erases the node of the first place.

Results:
1. `decrease_loop_spec`, `pop_loop_path`: the way down to the greatest children.
2. `changes_iff`: when `decrease`, `change` and `change_top` set one value.
3. `removes_iff`: when `remove` removes its element.
-/

namespace Kuhllib.DHeap

open HeapOrder BackPointers HandleQueue DHeapLemmas

variable {α T : Type} [DecidableEq α]

section

variable (m_compare : T → T → Bool) (d : Nat)

/-- The search of `decrease` in the group that ends with `cidx`: `p`, or the pointer to the
greatest child if that is greater. -/
def Heap.decrease_min (s : Heap α T) (p : α) (cidx : Nat) : α :=
  (List.range d).foldl (fun min i =>
    if m_compare (s.m_value min) (s.value (cidx - i)) then s.base (cidx - i) else min) p

/-- The loop of `decrease`: the heap and the position `hidx` for `p`. -/
def Heap.decrease_loop (p : α) : Nat → Heap α T → Nat → Option (Heap α T × Nat)
  | 0, _, _ => none
  | fuel + 1, s, hidx =>
    let cidx := hidx * d + d
    if cidx < s.size then
      let min := s.decrease_min m_compare d p cidx
      if min = p then some (s, hidx)
      else Heap.decrease_loop p fuel (s.assign hidx min) (s.m_index min)
    else some (s, hidx)

/-- `decrease(p, value)`, where the loop has `fuel` rounds. -/
def Heap.decrease (fuel : Nat) (s : Heap α T) (p : α) (value : T) : Option (Heap α T) := do
  let s := { s with m_value := Function.update s.m_value p value }
  let (s, hidx) ← Heap.decrease_loop m_compare d p fuel s (s.m_index p)
  return s.assign hidx p

/-- `change(p, value)`; `comp` is what the assignment of `value` leaves. -/
def Heap.change (fuel : Nat) (s : Heap α T) (p : α) (value : T) : Option (Heap α T) :=
  let comp := value
  if m_compare (s.m_value p) comp then some (s.increase m_compare d p value)
  else s.decrease m_compare d fuel p value

def Heap.change_top (fuel : Nat) (s : Heap α T) (value : T) : Option (Heap α T) :=
  s.change m_compare d fuel (s.base 0) value

/-- What `remove(p)` does to the vector. Its loop is the one of `pop`. -/
def Heap.remove_fill [NeZero d] (s : Heap α T) (p : α) : Heap α T :=
  let len := s.size
  let (s, hidx) := s.pop_loop m_compare d (s.m_index p)
  let s := s.assign hidx (s.base (len - 1))
  s.siftup m_compare d hidx (s.base (len - 1))

def Heap.remove [NeZero d] (s : Heap α T) (p : α) : Heap α T :=
  let rmnode := s.base 0
  let s := s.remove_fill m_compare d p
  { s with m_nodes := s.m_nodes.erase rmnode, size := s.size - 1 }

end

section

variable {m_compare : T → T → Bool} {d : Nat} {s : Heap α T} {p : α} {h n : Nat} {S : Set α}

/-! ## 1. The loops -/

namespace DHeapChangesLemmas

omit [DecidableEq α] in
/-- A search that begins with `p`: the greatest of the positions, if it is greater. -/
theorem foldl_min [IsStrictWeakOrder T (m_compare · ·)] (s : Heap α T) (p : α) (c : Nat)
    (cs : List Nat) :
    (c :: cs).foldl (fun min c =>
      if m_compare (s.m_value min) (s.value c) then s.base c else min) p =
    if m_compare (s.m_value p) (s.value (largest m_compare s.value c cs)) then
      s.base (largest m_compare s.value c cs) else p := by
  induction cs generalizing p c with
  | nil => rfl
  | cons c' cs ih =>
    rw [List.foldl_cons, ih, largest_cons]
    by_cases hpc : m_compare (s.m_value p) (s.value c) = true
    · rw [if_pos hpc]
      show (if m_compare (s.value c) _ = true then _ else _) = _
      split
      · rename_i hc
        rw [if_pos (trans_of (m_compare · · = true) hpc hc)]
      · rfl
    · rw [if_neg hpc]
      by_cases hc : m_compare (s.value c) (s.value (largest m_compare s.value c' cs)) = true
      · rw [if_pos hc]
      · rw [if_neg hc, if_neg hpc, if_neg (@not_lt_trans _ (m_compare · ·) _ _ _ _ hpc hc)]

theorem group_pairwise (cidx : Nat) (hd : 0 < d) (hc : d ≤ cidx) :
    (cidx :: (List.range' 1 (d - 1)).map (cidx - ·)).Pairwise (· > ·) := by
  rw [List.pairwise_cons, List.pairwise_map]
  refine ⟨fun c hmem => ?_,
    List.Pairwise.imp_of_mem (fun hi hj hij => ?_) List.pairwise_lt_range'⟩
  · obtain ⟨i, hi, rfl⟩ := List.mem_map.mp hmem
    rw [List.mem_range'_1] at hi
    omega
  · rw [List.mem_range'_1] at hi hj
    omega

omit [DecidableEq α] in
theorem group_max_lastGreatest [NeZero d] [IsStrictWeakOrder T (m_compare · ·)]
    (hfull : h * d + d < s.size) :
    LastGreatest d (m_compare · ·) s.size s.value h (s.group_max m_compare d (h * d + d)) := by
  obtain ⟨hlow, hhigh⟩ := group_max_mem m_compare d s h
  refine ⟨hfull, hlow, hhigh, fun c hc hc' => ?_, fun c hc hc' => ?_⟩
  · exact largest_ge s.value _ _ c ((mem_group d).mpr ⟨hc, hc'⟩)
  · refine largest_last s.value _ _ (group_pairwise _ (Nat.pos_of_neZero d) (Nat.le_add_left ..))
      c ((mem_group d).mpr ⟨?_, hc'⟩) hc
    exact Nat.le_trans hlow (Nat.le_of_lt hc)

omit [DecidableEq α] in
theorem decrease_min_eq [NeZero d] [IsStrictWeakOrder T (m_compare · ·)] (cidx : Nat) :
    s.decrease_min m_compare d p cidx =
      if m_compare (s.m_value p) (s.value (s.group_max m_compare d cidx)) then
        s.base (s.group_max m_compare d cidx) else p := by
  have hrange : (List.range d).map (cidx - ·) =
      cidx :: (List.range' 1 (d - 1)).map (cidx - ·) := by
    obtain ⟨e, rfl⟩ := Nat.exists_eq_succ_of_ne_zero (NeZero.ne d)
    rw [List.range_eq_range', List.range'_succ, List.map_cons]
    rfl
  rw [Heap.group_max, ← foldl_min, ← hrange, List.foldl_map]
  rfl

/-- The loop of `decrease`: the hole goes down with the smaller element in hand, and the
element is above the children of the last position exactly if nothing greater is below. -/
theorem decrease_loop_spec [NeZero d] [IsStrictWeakOrder T (m_compare · ·)] {fuel : Nat}
    (hs : Sifting m_compare d s s.size h S) (hn : h < s.size) (hS : p ∉ S)
    (hup : 0 < h → ¬ m_compare (s.value (parent d h)) (s.m_value p))
    (hf : s.size - h ≤ fuel) :
    ∃ s' k, Heap.decrease_loop m_compare d p fuel s h = some (s', k) ∧ Moves s s' ∧
      Sifting m_compare d s' s.size k S ∧ k < s.size ∧
      (0 < k → ¬ m_compare (s'.value (parent d k)) (s.m_value p)) ∧
      (Above d (m_compare · ·) s.size k s'.value (s.m_value p) ↔
        NoneGreater d (m_compare · ·) s.size s.value h (s.m_value p)) := by
  have hd : 0 < d := Nat.pos_of_neZero d
  induction fuel generalizing s h with
  | zero => exact absurd hf (by omega)
  | succ fuel ih =>
    rw [Heap.decrease_loop]
    by_cases hfull : h * d + d < s.size
    · rw [if_pos hfull, decrease_min_eq]
      have hm : LastGreatest d (m_compare · ·) s.size s.value h
        (s.group_max m_compare d (h * d + d)) := group_max_lastGreatest hfull
      obtain ⟨hlt, hmn, hp⟩ := hm.child
      have hpos := Nat.lt_of_le_of_lt (Nat.zero_le h) hlt
      have hmax : ∀ i, 0 < i → i < s.size → parent d i = h →
          ¬ m_compare (s.value (s.group_max m_compare d (h * d + d))) (s.value i) := by
        intro i hi _ hp
        obtain ⟨hlow, hhigh⟩ := (parent_eq_iff hd hi).mp hp
        exact hm.greatest i hlow hhigh
      generalize s.group_max m_compare d (h * d + d) = m at *
      by_cases hless : m_compare (s.m_value p) (s.value m) = true
      · -- the greatest child moves up
        obtain ⟨hmem, hindex⟩ := hs.places.at_place m hmn (Nat.ne_of_gt hlt)
        have hne : s.base m ≠ p := fun he => hS (he ▸ hmem)
        rw [if_pos hless, if_neg hne, hindex]
        have hvalue : (s.assign h (s.base m)).value = Function.update s.value h (s.value m) :=
          value_assign ..
        have hup' : 0 < m → ¬ m_compare ((s.assign h (s.base m)).value (parent d m))
            (s.m_value p) := by
          intro _
          rw [hp, hvalue, Function.update_self]
          exact asymm (r := (m_compare · ·)) hless
        obtain ⟨s', k, hloop, hmoves, hs', hk, hstop, habove⟩ :=
          ih (sifting_down hs hpos hmn hp hmax) hmn hup' (show s.size - m ≤ fuel by omega)
        refine ⟨s', k, hloop, (moves_assign ..).trans hmoves, hs', hk, hstop, habove.trans ?_⟩
        have hother : ∀ i, m < i → i < s.size → (s.assign h (s.base m)).value i = s.value i := by
          intro i hi _
          rw [hvalue, Function.update_of_ne (by omega)]
        rw [hm.noneGreater_iff]
        exact ⟨fun hx => hx.congr hd fun i hi hin => (hother i hi hin).symm,
          fun hx => hx.congr hd hother⟩
      · rw [if_neg hless]
        have hgroup : ∀ c, h * d + 1 ≤ c → c ≤ h * d + d →
            ¬ m_compare (s.m_value p) (s.value c) := fun c hc hc' =>
          @not_lt_trans _ (m_compare · ·) _ _ _ _ hless (hm.greatest c hc hc')
        refine ⟨s, h, if_pos rfl, .refl s, hs, hn, hup, iff_of_true ?_ ?_⟩
        · intro i hi _ hp
          obtain ⟨hlow, hhigh⟩ := (parent_eq_iff hd hi).mp hp
          exact hgroup i hlow hhigh
        · refine noneGreater_of_group hfull hgroup fun i hi hin hpi => ?_
          exact hs.hole.except i hi hin (Nat.ne_of_gt (Nat.lt_trans hpi (parent_lt hi)))
            (Nat.ne_of_gt hpi)
    · have hlast := Nat.le_of_not_lt hfull
      exact ⟨s, h, if_neg hfull, .refl s, hs, hn, hup, (noneGreater_end hd hlast).symm⟩

/-- The way of the hole: nothing else is changed, and behind a move the element stands at
both places. -/
theorem pop_loop_path [NeZero d] [IsStrictWeakOrder T (m_compare · ·)] (s : Heap α T) (h : Nat) :
    let r := s.pop_loop m_compare d h
    Descends d (m_compare · ·) s.size s.value h r.2 ∧
      (∀ i, i < h → r.1.base i = s.base i) ∧ (∀ i, r.2 ≤ i → r.1.base i = s.base i) ∧
      (r.2 ≠ h → r.1.base (parent d r.2) = r.1.base r.2) := by
  induction hk : s.size - h using Nat.strongRecOn generalizing s h with
  | ind k ih =>
    rw [Heap.pop_loop]
    split
    · rename_i hfull
      have hm : LastGreatest d (m_compare · ·) s.size s.value h
        (s.group_max m_compare d (h * d + d)) := group_max_lastGreatest hfull
      obtain ⟨hlt, hmn, hp⟩ := hm.child
      generalize s.group_max m_compare d (h * d + d) = m at *
      dsimp only
      have hbase : ∀ i, i ≠ h → (s.assign h (s.base m)).base i = s.base i :=
        fun i hi => Function.update_of_ne hi ..
      have hself : (s.assign h (s.base m)).base h = s.base m := Function.update_self ..
      obtain ⟨hpath, hbelow, habove, hlink⟩ :=
        ih _ (by rw [← hk]; exact Nat.sub_lt_sub_left (Nat.lt_trans hlt hmn) hlt)
          (s.assign h (s.base m)) m rfl
      have hle := hpath.le
      refine ⟨.down hm (hpath.congr fun i hi _ => ?_), fun i hi => ?_, fun i hi => ?_, fun _ => ?_⟩
      · rw [Heap.value, Heap.value, hbase i (by omega)]
        rfl
      · rw [hbelow i (Nat.lt_trans hi hlt), hbase i (Nat.ne_of_lt hi)]
      · rw [habove i hi, hbase i (by omega)]
      · by_cases hend : ((s.assign h (s.base m)).pop_loop m_compare d m).2 = m
        · rw [hend, hp, hbelow h hlt, habove m (Nat.le_of_eq hend), hself,
            hbase m (Nat.ne_of_gt hlt)]
        · exact hlink hend
    · exact ⟨.here h, fun _ _ => rfl, fun _ _ => rfl, fun hne => absurd rfl hne⟩

theorem assign_base (s : Heap α T) (h m : Nat) : (s.assign h (s.base m)).base m = s.base m := by
  by_cases he : m = h
  · rw [he]
    exact Function.update_self ..
  · exact Function.update_of_ne he ..

/-- An element that stands right stays where it is. -/
theorem siftup_stop (hbase : s.base h = p) (hindex : s.m_index p = h)
    (hstop : 0 < h → ¬ m_compare (s.value (parent d h)) (s.m_value p)) :
    s.siftup m_compare d h p = s := by
  unfold Heap.siftup
  split
  · rfl
  · rename_i hne
    rw [Heap.siftup_loop]
    have hno : ¬ (h ≠ 0 ∧ m_compare (s.value ((h - 1) / d)) (s.m_value p) = true) :=
      fun hc => hstop (Nat.pos_of_ne_zero hne) hc.2
    rw [dif_neg hno, assign_self hbase hindex]

end DHeapChangesLemmas

open DHeapChangesLemmas

/-! ## 2. A new value -/

/-- The operation leaves a valid heap in which `p` has the value, and the rest is as before. -/
def Sets (m_compare : T → T → Bool) (d : Nat) (s : Heap α T) (p : α) (value : T)
    (r : Option (Heap α T)) : Prop :=
  ∃ s', r = some s' ∧ Inv m_compare d s' ∧ s'.entries = s.entries.set p value

section

variable [NeZero d] [IsStrictWeakOrder T (m_compare · ·)] {value : T} {fuel : Nat}

/-- `decrease` overlooks what is greater in a partial group. -/
theorem decrease_spec (h : Inv m_compare d s) (hp : p ∈ s.m_nodes)
    (hvalue : m_compare (s.m_value p) value = false) (hf : s.size ≤ fuel) :
    Sets m_compare d s p value (s.decrease m_compare d fuel p value) ↔
      NoneGreater d (m_compare · ·) s.size s.value (s.m_index p) value := by
  let s₁ : Heap α T := { s with m_value := Function.update s.m_value p value }
  obtain ⟨hlt, hbase, hs, hother⟩ := sifting_set h hp value
  have hnew : s₁.m_value p = value := Function.update_self ..
  have hup : 0 < s.m_index p →
      ¬ m_compare (s₁.value (parent d (s.m_index p))) (s₁.m_value p) := by
    intro hpos
    have hless := parent_lt (d := d) hpos
    have hold := h.sifted.ordered _ hpos hlt
    rw [Heap.value, Heap.value, hbase] at hold
    rw [hother _ (Nat.lt_trans hless hlt) (Nat.ne_of_lt hless), hnew]
    exact @not_lt_trans _ (m_compare · ·) _ _ _ _ hold (by simp [hvalue])
  obtain ⟨s', k, hloop, hmoves, hs', hk, hstop, habove⟩ :=
    decrease_loop_spec hs hlt (fun hd => hd.2 (Set.mem_singleton p)) hup
      (show s.size - s.m_index p ≤ fuel by omega)
  have hdecrease : s.decrease m_compare d fuel p value = some (s'.assign k p) := by
    rw [Heap.decrease]
    show (Heap.decrease_loop m_compare d p fuel s₁ (s.m_index p)).bind _ = _
    rw [hloop]
    rfl
  have hmem : p ∈ {p | p ∈ s.m_nodes} := hp
  have hfinal : Moves s₁ (s'.assign k p) := hmoves.trans (moves_assign ..)
  have hplaces := hs'.places.fill hk (fun hd => hd.2 (Set.mem_singleton p))
  rw [Set.insert_sdiff_self_of_mem hmem] at hplaces
  have hentries : (s'.assign k p).entries = s.entries.set p value := by
    rw [Heap.entries, hfinal.m_nodes, hfinal.m_value]
    exact entries_set s.m_nodes s.m_value p value
  -- all is right but the order, which depends on what is below
  have hinv : Inv m_compare d (s'.assign k p) ↔
      Above d (m_compare · ·) s.size k s'.value value := by
    have hfill := hs'.hole.fill_iff hstop
    have hvalues : (s'.assign k p).value = Function.update s'.value k value := by
      rw [value_assign, hmoves.m_value, hnew]
    rw [hnew] at hfill
    rw [← hfill, ← hvalues]
    constructor
    · intro hi
      have := hi.sifted.ordered
      rwa [hfinal.size] at this
    · intro ho
      refine ⟨?_, ?_⟩
      · rw [hfinal.m_nodes]
        exact h.nodup
      · rw [hfinal.m_nodes, hfinal.size]
        exact ⟨hplaces, ho⟩
  have hd : 0 < d := Nat.pos_of_neZero d
  have hbelow : NoneGreater d (m_compare · ·) s.size s₁.value (s.m_index p) value ↔
      NoneGreater d (m_compare · ·) s.size s.value (s.m_index p) value :=
    ⟨fun hx => hx.congr hd fun i hi hin => (hother i hin (Nat.ne_of_gt hi)).symm,
      fun hx => hx.congr hd fun i hi hin => hother i hin (Nat.ne_of_gt hi)⟩
  rw [hnew] at habove
  rw [← hbelow]
  refine Iff.trans ?_ (hinv.trans habove)
  rw [Sets, hdecrease]
  constructor
  · rintro ⟨_, ⟨⟩, hi, -⟩
    exact hi
  · exact fun hi => ⟨_, rfl, hi, hentries⟩

theorem change_spec (h : Inv m_compare d s) (hp : p ∈ s.m_nodes) (value : T)
    (hf : s.size ≤ fuel) :
    Sets m_compare d s p value (s.change m_compare d fuel p value) ↔
      m_compare (s.m_value p) value = true ∨
        NoneGreater d (m_compare · ·) s.size s.value (s.m_index p) value := by
  unfold Heap.change
  by_cases hless : m_compare (s.m_value p) value = true
  · rw [if_pos hless]
    have hnot : m_compare value (s.m_value p) = false :=
      Bool.eq_false_iff.mpr (asymm (r := (m_compare · ·)) hless)
    obtain ⟨hinv, hentries⟩ := increase_spec h hp hnot
    exact iff_of_true ⟨_, rfl, hinv, hentries⟩ (.inl hless)
  · rw [if_neg hless, decrease_spec h hp (Bool.eq_false_iff.mpr hless) hf, or_iff_right hless]

/-- `decrease`, `change` and `change_top` set the value of one element and leave a valid heap.
They do so exactly if the value is greater than before, which `decrease` excludes, or if the
way down to the greatest children does not end above a partial group of children with a
greater element. -/
theorem changes_iff (h : Inv m_compare d s) (hf : s.size ≤ fuel) :
    (∀ p ∈ s.m_nodes, ∀ value, m_compare (s.m_value p) value = false →
      (Sets m_compare d s p value (s.decrease m_compare d fuel p value) ↔
        NoneGreater d (m_compare · ·) s.size s.value (s.m_index p) value)) ∧
    (∀ p ∈ s.m_nodes, ∀ value,
      (Sets m_compare d s p value (s.change m_compare d fuel p value) ↔
        m_compare (s.m_value p) value = true ∨
          NoneGreater d (m_compare · ·) s.size s.value (s.m_index p) value)) ∧
    (s.m_nodes ≠ [] → ∀ value,
      (Sets m_compare d s (s.base 0) value (s.change_top m_compare d fuel value) ↔
        m_compare s.top value = true ∨
          NoneGreater d (m_compare · ·) s.size s.value 0 value)) := by
  refine ⟨fun p hp value hvalue => decrease_spec h hp hvalue hf,
    fun p hp value => change_spec h hp value hf, fun hne value => ?_⟩
  have hpos := size_pos h hne
  obtain ⟨hroot, hindex⟩ := h.sifted.places.at_place 0 hpos (Nat.ne_of_lt hpos)
  have hchange := change_spec h hroot value hf
  rw [hindex] at hchange
  exact hchange

end

/-- The values 5 and 3, where the group of the root is partial. -/
def exTwo : Heap Nat Nat where
  m_nodes := [0, 1]
  m_index := id
  m_value p := if p = 0 then 5 else 3
  base := id
  size := 2

def lessNat (x y : Nat) : Bool := decide (x < y)

instance : IsStrictWeakOrder Nat (lessNat · ·) where
  irrefl := by simp [lessNat]
  trans := by simp only [lessNat, decide_eq_true_eq]; omega
  incomp_trans := by simp only [lessNat, decide_eq_true_eq]; omega

theorem inv_exTwo : Inv lessNat 2 exTwo where
  nodup := by decide
  sifted := by
    refine ⟨⟨fun i hi _ => ⟨?_, rfl⟩, fun x hx => ?_⟩, fun i hpos hi => ?_⟩
    · have hi : i < 2 := hi
      show i ∈ [0, 1]
      simp
      omega
    · have hx : x ∈ [0, 1] := hx
      have hlt : x < 2 := by simp at hx; omega
      exact ⟨hlt, Nat.ne_of_lt hlt, rfl⟩
    · have hi : i < 2 := hi
      obtain rfl : i = 1 := by omega
      decide

theorem changes_iff_example : Sets lessNat 2 exTwo 1 2 (exTwo.decrease lessNat 2 2 1 2) := by
  refine ((changes_iff inv_exTwo (Nat.le_refl 2)).1 1 (by decide) 2 (by decide)).mpr ?_
  intro k hk _ c hc hcn
  have hle : 1 ≤ k := hk.le
  have hcn : c < 2 := hcn
  omega

/-- The root is decreased below its only child. -/
theorem not_changes : ¬ ∀ (s : Heap Nat Nat) (p value : Nat), Inv lessNat 2 s → p ∈ s.m_nodes →
    lessNat (s.m_value p) value = false →
    ∃ fuel, Sets lessNat 2 s p value (s.decrease lessNat 2 fuel p value) := by
  intro hall
  obtain ⟨fuel, s', hdecrease, hinv, -⟩ := hall exTwo 0 1 inv_exTwo (by decide) (by decide)
  cases fuel with
  | zero => cases hdecrease
  | succ fuel =>
    cases hdecrease
    exact hinv.sifted.ordered 1 Nat.one_pos (Nat.lt_succ_self 1) (by decide)

section

variable [NeZero d] [IsStrictWeakOrder T (m_compare · ·)]

/-! ## 3. Without an element -/

/-- `remove(p)` leaves a valid heap with the same elements but `p`. -/
def Removes (m_compare : T → T → Bool) (d : Nat) (s : Heap α T) (p : α) (s' : Heap α T) : Prop :=
  Inv m_compare d s' ∧ s'.entries = s.entries.remove p ∧
    s'.m_nodes.length + 1 = s.m_nodes.length

theorem moves_remove_fill (h : Inv m_compare d s) (hp : p ∈ s.m_nodes) :
    Moves s (s.remove_fill m_compare d p) := by
  obtain ⟨hlt, -, -⟩ := h.sifted.places.place_of p hp
  obtain ⟨-, hmoves, -⟩ :=
    pop_loop_spec ⟨h.sifted.places.take hlt, h.sifted.ordered.hole hlt⟩ hlt
  exact hmoves.trans ((moves_assign ..).trans (moves_siftup ..))

/-- The node of the first place is erased, whichever the element. -/
theorem remove_first (h : Inv m_compare d s) (hp : p ∈ s.m_nodes)
    (hr : Removes m_compare d s p (s.remove m_compare d p)) : s.base 0 = p := by
  have hmoves := moves_remove_fill h hp
  have hmem : ∀ e, e ∈ (s.remove m_compare d p).entries ↔ e ∈ s.entries.remove p := by
    intro e
    rw [hr.2.1]
  by_contra hne
  have hkeeps : (p, s.m_value p) ∈ (s.remove m_compare d p).entries := by
    refine mem_entries.mpr ⟨?_, congrFun hmoves.m_value p⟩
    show p ∈ (s.remove_fill m_compare d p).m_nodes.erase (s.base 0)
    rw [hmoves.m_nodes]
    exact (List.mem_erase_of_ne (Ne.symm hne)).mpr hp
  have hgone := (hmem _).mp hkeeps
  rw [Heap.entries, ← entries_remove] at hgone
  exact h.nodup.not_mem_erase (mem_entries.mp hgone).1

/-- What is left to show when the first element is removed. -/
theorem removes_iff_sifted (h : Inv m_compare d s) (hp : p ∈ s.m_nodes) (hroot : s.base 0 = p) :
    Removes m_compare d s p (s.remove m_compare d p) ↔
      Sifted m_compare d (s.remove_fill m_compare d p) (s.size - 1)
        ({p | p ∈ s.m_nodes} \ {p}) := by
  have hmoves := moves_remove_fill h hp
  have hnodes : (s.remove m_compare d p).m_nodes = s.m_nodes.erase p := by
    show (s.remove_fill m_compare d p).m_nodes.erase (s.base 0) = _
    rw [hmoves.m_nodes, hroot]
  have hset : {q | q ∈ (s.remove m_compare d p).m_nodes} = {p | p ∈ s.m_nodes} \ {p} := by
    ext q
    rw [hnodes]
    exact h.nodup.mem_erase_iff.trans and_comm
  have hsize : (s.remove m_compare d p).size = s.size - 1 :=
    congrArg (· - 1) hmoves.size
  constructor
  · intro hr
    have hsifted := hr.1.sifted
    rw [hset, hsize] at hsifted
    exact ⟨hsifted.places, hsifted.ordered⟩
  · intro hsifted
    refine ⟨⟨?_, ?_⟩, ?_, ?_⟩
    · rw [hnodes]
      exact h.nodup.erase p
    · rw [hset, hsize]
      exact ⟨hsifted.places, hsifted.ordered⟩
    · rw [Heap.entries, hnodes]
      show HandleQueue.entries _ (s.remove_fill m_compare d p).m_value = _
      rw [hmoves.m_value]
      exact entries_remove s.m_nodes s.m_value p
    · rw [hnodes, List.length_erase_of_mem hp]
      exact Nat.succ_pred_eq_of_pos (List.length_pos_of_mem hp)

/-- The last element is put into the hole that comes from the first place. The hole may be
its own place, or above a greater element. -/
theorem fill_sifted_iff (h : Inv m_compare d s) (hp : p ∈ s.m_nodes) (hroot : s.base 0 = p) :
    Sifted m_compare d (s.remove_fill m_compare d p) (s.size - 1) ({p | p ∈ s.m_nodes} \ {p}) ↔
      s.size = 1 ∨ ∀ k, Descends d (m_compare · ·) s.size s.value 0 k → s.size ≤ k * d + d →
        k ≠ s.size - 1 ∧ ∀ c, k * d + 1 ≤ c → c < s.size - 1 →
          ¬ m_compare (s.value (s.size - 1)) (s.value c) := by
  have hd : 0 < d := Nat.pos_of_neZero d
  obtain ⟨hpos, -, -⟩ := h.sifted.places.place_of p hp
  replace hpos : 0 < s.size := Nat.lt_of_le_of_lt (Nat.zero_le _) hpos
  have hindex : s.m_index p = 0 :=
    hroot ▸ (h.sifted.places.at_place 0 hpos (Nat.ne_of_lt hpos)).2
  have hs : Sifting m_compare d s s.size 0 ({p | p ∈ s.m_nodes} \ {s.base 0}) :=
    ⟨h.sifted.places.take hpos, h.sifted.ordered.hole hpos⟩
  obtain ⟨hs₁, hmoves, hlt, hlast⟩ := pop_loop_spec hs hpos
  obtain ⟨hpath, -, hframe, hlink⟩ := @pop_loop_path α T _ m_compare d _ _ s 0
  have hfill : s.remove_fill m_compare d p =
      ((s.pop_loop m_compare d 0).1.assign (s.pop_loop m_compare d 0).2
        ((s.pop_loop m_compare d 0).1.base (s.size - 1))).siftup m_compare d
        (s.pop_loop m_compare d 0).2 ((s.pop_loop m_compare d 0).1.base (s.size - 1)) := by
    rw [Heap.remove_fill, hindex]
    dsimp only
    rw [assign_base]
  rw [hfill]
  rw [hroot] at hs₁
  generalize s.pop_loop m_compare d 0 = r at *
  obtain ⟨t, k⟩ := r
  dsimp only at hs₁ hmoves hlt hlast hpath hframe hlink ⊢
  have hcond : (∀ k, Descends d (m_compare · ·) s.size s.value 0 k → s.size ≤ k * d + d →
      k ≠ s.size - 1 ∧ ∀ c, k * d + 1 ≤ c → c < s.size - 1 →
        ¬ m_compare (s.value (s.size - 1)) (s.value c)) ↔
      k ≠ s.size - 1 ∧ ∀ c, k * d + 1 ≤ c → c < s.size - 1 →
        ¬ m_compare (s.value (s.size - 1)) (s.value c) := by
    refine ⟨fun hall => hall k hpath hlast, fun hk k' hpath' hlast' => ?_⟩
    rwa [hpath'.end_unique hlast' hpath hlast]
  rw [hcond]
  have hvalue : ∀ i, k ≤ i → t.value i = s.value i := by
    intro i hi
    rw [Heap.value, Heap.value, hframe i hi, hmoves.m_value]
  by_cases hk : k = s.size - 1
  · rw [hk] at hs₁ hlink ⊢
    by_cases hone : s.size = 1
    · -- no element is left
      refine iff_of_true ?_ (.inl hone)
      rw [hone] at hs₁ ⊢
      refine ⟨⟨fun i hi => absurd hi (Nat.not_lt_zero i), fun x hx => ?_⟩,
        fun i _ hi => absurd hi (Nat.not_lt_zero i)⟩
      obtain ⟨hx₁, hx₂, -⟩ := hs₁.places.place_of x hx
      omega
    · -- the last element has moved up, but is put down once more
      refine iff_of_false (fun hsifted => ?_) (fun hor => hor.elim hone fun hc => hc.1 rfl)
      have hlast : 0 < s.size - 1 := by omega
      have hup := hlink (Nat.ne_of_gt hlast)
      have hless := parent_lt (d := d) hlast
      have hmem := (hs₁.places.at_place (parent d (s.size - 1)) (by omega) (by omega)).1
      rw [hup] at hmem
      have hbase : (t.assign (s.size - 1) (t.base (s.size - 1))).base (parent d (s.size - 1)) =
          t.base (s.size - 1) :=
        (Function.update_of_ne (Nat.ne_of_lt hless) ..).trans hup
      rw [siftup_stop (Function.update_self ..) (Function.update_self ..) fun _ => by
        rw [Heap.value, hbase]
        exact irrefl (r := (m_compare · ·)) _] at hsifted
      have hplace := (hsifted.places.place_of _ hmem).1
      have hself : (t.assign (s.size - 1) (t.base (s.size - 1))).m_index (t.base (s.size - 1)) =
          s.size - 1 := Function.update_self ..
      rw [hself] at hplace
      exact absurd hplace (Nat.lt_irrefl _)
  · have hone : s.size ≠ 1 := by omega
    have hless : k < s.size - 1 := by omega
    rw [or_iff_right hone, and_iff_right hk]
    have hself : k ≤ k * d := Nat.le_mul_of_pos_right k hd
    have hlastv : t.value (s.size - 1) = s.value (s.size - 1) := hvalue _ (Nat.le_of_lt hless)
    constructor
    · intro hsifted c hc hcn hlt'
      have hchild : parent d c = k := (parent_eq_iff hd (by omega)).mpr ⟨hc, by omega⟩
      have hstop : 0 < k → ¬ m_compare (t.value (parent d k)) (t.value (s.size - 1)) := by
        intro hkpos hup
        refine hs₁.hole.across hkpos c (by omega) (by omega) hchild ?_
        rw [hvalue c (by omega)]
        rw [hlastv] at hup
        exact trans_of (m_compare · · = true) hup hlt'
      have hassign := value_assign t k (t.base (s.size - 1))
      rw [siftup_stop (Function.update_self ..) (Function.update_self ..) fun hkpos => by
        rw [hassign, Function.update_of_ne (Nat.ne_of_lt (parent_lt hkpos))]
        exact hstop hkpos] at hsifted
      have hordered := hsifted.ordered
      rw [hassign] at hordered
      have habove := ((hs₁.hole.mono (Nat.sub_le _ 1)).fill_iff hstop).mp hordered c (by omega)
        hcn hchild
      rw [hvalue c (by omega), hlastv] at habove
      exact habove hlt'
    · intro hc
      have habove : Above d (m_compare · ·) (s.size - 1) k t.value (t.value (s.size - 1)) := by
        intro i hi hin hp
        have hlow := ((parent_eq_iff hd hi).mp hp).1
        rw [hlastv, hvalue i (by omega)]
        exact hc i hlow hin
      have hsifted := (last_spec hs₁ hlt habove).1
      rwa [if_pos hk] at hsifted

/-- `remove` removes its element and leaves a valid heap exactly if the element is the first
one, and it is the only one or the way down to the greatest children does not end at the last
place or above a partial group of children with one greater than the last. -/
theorem removes_iff (h : Inv m_compare d s) (hp : p ∈ s.m_nodes) :
    Removes m_compare d s p (s.remove m_compare d p) ↔
      s.m_index p = 0 ∧ (s.size = 1 ∨
        ∀ k, Descends d (m_compare · ·) s.size s.value 0 k → s.size ≤ k * d + d →
          k ≠ s.size - 1 ∧ ∀ c, k * d + 1 ≤ c → c < s.size - 1 →
            ¬ m_compare (s.value (s.size - 1)) (s.value c)) := by
  obtain ⟨hlt, -, hbase⟩ := h.sifted.places.place_of p hp
  have hpos : 0 < s.size := Nat.lt_of_le_of_lt (Nat.zero_le _) hlt
  have hroot : s.base 0 = p ↔ s.m_index p = 0 := by
    constructor
    · rintro rfl
      exact (h.sifted.places.at_place 0 hpos (Nat.ne_of_lt hpos)).2
    · intro hi
      rw [hi] at hbase
      exact hbase
  constructor
  · intro hr
    have hfirst := remove_first h hp hr
    exact ⟨hroot.mp hfirst,
      (fill_sifted_iff h hp hfirst).mp ((removes_iff_sifted h hp hfirst).mp hr)⟩
  · rintro ⟨hi, hc⟩
    have hfirst := hroot.mpr hi
    exact (removes_iff_sifted h hp hfirst).mpr ((fill_sifted_iff h hp hfirst).mpr hc)

end

theorem removes_iff_example : Removes lessNat 2 exTwo 0 (exTwo.remove lessNat 2 0) := by
  refine (removes_iff inv_exTwo (by decide)).mpr ⟨rfl, .inr fun k hk hlast => ?_⟩
  obtain rfl : k = 0 := (descends_end (Nat.le_refl 2)).mp hk
  refine ⟨Nat.zero_ne_one, fun c hc hcn => ?_⟩
  have hcn : c < 1 := hcn
  omega

/-- The last element is removed, and the node of the first one is erased. -/
theorem not_removes : ¬ ∀ (s : Heap Nat Nat) (p : Nat), Inv lessNat 2 s → p ∈ s.m_nodes →
    Removes lessNat 2 s p (s.remove lessNat 2 p) := by
  intro hall
  have hp : 1 ∈ exTwo.m_nodes := by decide
  exact absurd (remove_first inv_exTwo hp (hall exTwo 1 inv_exTwo hp)) (by decide)

end

end Kuhllib.DHeap
