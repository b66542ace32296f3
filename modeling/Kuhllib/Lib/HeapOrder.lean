import Mathlib.Logic.Function.Basic
import Mathlib.Order.Defs.Unbundled

/-!
# Heap order in implicit d-ary trees

The values stand in an array, the parent of position `i` is `(i - 1) / d`. `Ordered`
says that no value is greater than the one of its parent. While values move, one
position is a hole: `Hole` says what holds around it, whatever stands in it, and
`Above` that a value is not less than the children of the hole.

The rules say how an ordered array gets a hole, how the hole moves up and down, and
how it is filled. `largest` is the search for the greatest of some positions, `Descends`
the path that goes down to the last one of the greatest children.
-/

namespace HeapOrder

variable {T : Type*} {d : Nat} {lt : T → T → Prop} {n h i m : Nat} {v : Nat → T} {x : T}

def parent (d i : Nat) : Nat := (i - 1) / d

def Ordered (d : Nat) (lt : T → T → Prop) (n : Nat) (v : Nat → T) : Prop :=
  ∀ i, 0 < i → i < n → ¬ lt (v (parent d i)) (v i)

structure Hole (d : Nat) (lt : T → T → Prop) (n h : Nat) (v : Nat → T) : Prop where
  except : ∀ i, 0 < i → i < n → i ≠ h → parent d i ≠ h → ¬ lt (v (parent d i)) (v i)
  across : 0 < h → ∀ i, 0 < i → i < n → parent d i = h → ¬ lt (v (parent d h)) (v i)

def Above (d : Nat) (lt : T → T → Prop) (n h : Nat) (v : Nat → T) (x : T) : Prop :=
  ∀ i, 0 < i → i < n → parent d i = h → ¬ lt x (v i)

theorem parent_lt (hi : 0 < i) : parent d i < i :=
  Nat.lt_of_le_of_lt (Nat.div_le_self _ _) (Nat.sub_lt hi Nat.one_pos)

theorem parent_eq_iff (hd : 0 < d) (hi : 0 < i) :
    parent d i = h ↔ h * d + 1 ≤ i ∧ i ≤ h * d + d := by
  rw [parent, Nat.div_eq_iff hd]
  omega

/-! ## Strict weak orders -/

theorem not_lt_trans [IsStrictWeakOrder T lt] {a b c : T} (hab : ¬ lt a b) (hbc : ¬ lt b c) :
    ¬ lt a c := by
  intro hac
  have hba : ¬ lt b a := fun hba => hbc (trans_of lt hba hac)
  have hcb : ¬ lt c b := fun hcb => hab (trans_of lt hac hcb)
  exact (IsStrictWeakOrder.incomp_trans a b c ⟨hab, hba⟩ ⟨hbc, hcb⟩).1 hac

/-- The order of the numbers. -/
instance isStrictWeakOrder_nat : IsStrictWeakOrder Nat (fun x y => decide (x < y) = true) where
  irrefl := by simp
  trans := by simp only [decide_eq_true_eq]; omega
  incomp_trans := by simp only [decide_eq_true_eq]; omega

/-! ## Ordered arrays -/

theorem Ordered.mono {n' : Nat} (ho : Ordered d lt n v) (hn : n' ≤ n) : Ordered d lt n' v :=
  fun i hi hin => ho i hi (Nat.lt_of_lt_of_le hin hn)

/-- No value is greater than the one of the root. -/
theorem Ordered.root [IsStrictWeakOrder T lt] (ho : Ordered d lt n v) (hi : i < n) :
    ¬ lt (v 0) (v i) := by
  induction i using Nat.strongRecOn with
  | ind i ih =>
    rcases Nat.eq_zero_or_pos i with rfl | hpos
    · exact irrefl _
    · have hp := parent_lt (d := d) hpos
      exact not_lt_trans (ih _ hp (Nat.lt_trans hp hi)) (ho i hpos hi)

/-- Any position may become a hole. -/
theorem Ordered.hole [IsStrictWeakOrder T lt] (ho : Ordered d lt n v) (hh : h < n) :
    Hole d lt n h v where
  except i hpos hi _ _ := ho i hpos hi
  across hpos i hi hin hp := not_lt_trans (ho h hpos hh) (hp ▸ ho i hi hin)

theorem Ordered.above [IsStrictWeakOrder T lt] (ho : Ordered d lt n v) (hx : ¬ lt x (v h)) :
    Above d lt n h v x :=
  fun i hi hin hp => not_lt_trans hx (hp ▸ ho i hi hin)

/-- The position behind the end becomes a hole. -/
theorem Ordered.grow (ho : Ordered d lt n v) : Hole d lt (n + 1) n v where
  except i hi hin hne _ := ho i hi (by omega)
  across _ i hi hin hp := absurd (parent_lt (d := d) hi) (by omega)

/-- Nothing is below the last position. -/
theorem above_last : Above d lt (n + 1) n v x :=
  fun i hi hin hp => absurd (parent_lt (d := d) hi) (by omega)

/-- A hole at the last position is given up. -/
theorem Hole.shrink (hh : Hole d lt (n + 1) n v) : Ordered d lt n v := by
  intro i hi hin
  have hp := parent_lt (d := d) hi
  exact hh.except i hi (by omega) (by omega) (by omega)

theorem Hole.mono {n' : Nat} (hh : Hole d lt n h v) (hn : n' ≤ n) : Hole d lt n' h v where
  except i hi hin := hh.except i hi (Nat.lt_of_lt_of_le hin hn)
  across hpos i hi hin := hh.across hpos i hi (Nat.lt_of_lt_of_le hin hn)

/-- What stands in the hole does not matter. -/
theorem Hole.congr {v' : Nat → T} (hh : Hole d lt n h v)
    (hv : ∀ i, i < n → i ≠ h → v' i = v i) (hn : h < n) : Hole d lt n h v' where
  except i hi hin hih hp := by
    rw [hv i hin hih, hv _ (Nat.lt_trans (parent_lt hi) hin) hp]
    exact hh.except i hi hin hih hp
  across hpos i hi hin hp := by
    have hlt := parent_lt (d := d) hpos
    have hih : i ≠ h := fun he => Nat.ne_of_lt (parent_lt (d := d) hi) (hp.trans he.symm)
    rw [hv i hin hih, hv _ (Nat.lt_trans hlt hn) (Nat.ne_of_lt hlt)]
    exact hh.across hpos i hi hin hp

theorem Above.congr {v' : Nat → T} (hx : Above d lt n h v x)
    (hv : ∀ i, i < n → i ≠ h → v' i = v i) : Above d lt n h v' x := by
  intro i hi hin hp
  have hih : i ≠ h := fun he => Nat.ne_of_lt (parent_lt (d := d) hi) (hp.trans he.symm)
  rw [hv i hin hih]
  exact hx i hi hin hp

/-- The hole is filled. -/
theorem Hole.fill (hh : Hole d lt n h v) (hx : Above d lt n h v x)
    (hstop : 0 < h → ¬ lt (v (parent d h)) x) : Ordered d lt n (Function.update v h x) := by
  intro i hi hin
  by_cases hih : i = h
  · subst hih
    rw [Function.update_self, Function.update_of_ne (Nat.ne_of_lt (parent_lt hi))]
    exact hstop hi
  · rw [Function.update_of_ne hih]
    by_cases hp : parent d i = h
    · rw [hp, Function.update_self]
      exact hx i hi hin hp
    · rw [Function.update_of_ne hp]
      exact hh.except i hi hin hih hp

/-- A value that does not move up stands right exactly if it is above the children. -/
theorem Hole.fill_iff (hh : Hole d lt n h v) (hstop : 0 < h → ¬ lt (v (parent d h)) x) :
    Ordered d lt n (Function.update v h x) ↔ Above d lt n h v x := by
  refine ⟨fun ho i hi hin hp => ?_, fun hx => hh.fill hx hstop⟩
  have hih : i ≠ h := fun he => Nat.ne_of_lt (parent_lt (d := d) hi) (hp.trans he.symm)
  have hi' := ho i hi hin
  rwa [hp, Function.update_self, Function.update_of_ne hih] at hi'

/-- The hole moves up, away from a value that is greater than the one of the parent. -/
theorem Hole.up [IsStrictWeakOrder T lt] (hh : Hole d lt n h v) (hpos : 0 < h) (hn : h < n)
    (hx : lt (v (parent d h)) x) :
    Hole d lt n (parent d h) (Function.update v h (v (parent d h))) ∧
      Above d lt n (parent d h) (Function.update v h (v (parent d h))) x := by
  have hlt := parent_lt (d := d) hpos
  have hother : ∀ i, 0 < i → i < n → i ≠ h → parent d i = parent d h →
      ¬ lt (v (parent d h)) (v i) := by
    intro i hi hin hih hp
    rw [← hp]
    exact hh.except i hi hin hih (by omega)
  refine ⟨⟨fun i hi hin hne hp => ?_, fun hpp i hi hin hp => ?_⟩, fun i hi hin hp => ?_⟩
  · by_cases hih : i = h
    · exact absurd (congrArg (parent d) hih) hp
    · rw [Function.update_of_ne hih]
      by_cases hph : parent d i = h
      · rw [hph, Function.update_self]
        exact hh.across hpos i hi hin hph
      · rw [Function.update_of_ne hph]
        exact hh.except i hi hin hih hph
  · have hgrand := parent_lt (d := d) hpp
    have hup : ¬ lt (v (parent d (parent d h))) (v (parent d h)) :=
      hh.except (parent d h) hpp (by omega) (by omega) (by omega)
    rw [Function.update_of_ne (by omega)]
    by_cases hih : i = h
    · rw [hih, Function.update_self]
      exact hup
    · rw [Function.update_of_ne hih]
      exact not_lt_trans hup (hother i hi hin hih hp)
  · have hge : ¬ lt x (v (parent d h)) := asymm hx
    by_cases hih : i = h
    · rw [hih, Function.update_self]
      exact hge
    · rw [Function.update_of_ne hih]
      exact not_lt_trans hge (hother i hi hin hih hp)

/-- The hole moves down to a greatest child. -/
theorem Hole.down (hh : Hole d lt n h v) (hm : 0 < m) (hn : m < n) (hp : parent d m = h)
    (hmax : ∀ i, 0 < i → i < n → parent d i = h → ¬ lt (v m) (v i)) :
    Hole d lt n m (Function.update v h (v m)) := by
  have hlt : h < m := hp ▸ parent_lt hm
  refine ⟨fun i hi hin hne hpm => ?_, fun _ i hi hin hpi => ?_⟩
  · by_cases hih : i = h
    · subst hih
      rw [Function.update_self, Function.update_of_ne (Nat.ne_of_lt (parent_lt hi))]
      exact hh.across hi m hm hn hp
    · rw [Function.update_of_ne hih]
      by_cases hph : parent d i = h
      · rw [hph, Function.update_self]
        exact hmax i hi hin hph
      · rw [Function.update_of_ne hph]
        exact hh.except i hi hin hih hph
  · have hmi := parent_lt (d := d) hi
    rw [hp, Function.update_self, Function.update_of_ne (by omega)]
    rw [← hpi]
    exact hh.except i hi hin (by omega) (by omega)

/-! ## The greatest of some positions -/

/-- The last one of `m` and `cs` that is greater than all before it. -/
def largest (lt : T → T → Bool) (v : Nat → T) (m : Nat) (cs : List Nat) : Nat :=
  cs.foldl (fun m c => if lt (v m) (v c) then c else m) m

theorem largest_mem (lt : T → T → Bool) (v : Nat → T) (m : Nat) (cs : List Nat) :
    largest lt v m cs ∈ m :: cs := by
  induction cs generalizing m with
  | nil => exact List.mem_cons_self
  | cons c cs ih =>
    show largest lt v (if lt (v m) (v c) then c else m) cs ∈ _
    split
    · exact List.mem_cons_of_mem _ (ih c)
    · rcases List.mem_cons.mp (ih m) with he | he
      · rw [he]
        exact List.mem_cons_self
      · exact List.mem_cons_of_mem _ (List.mem_cons_of_mem _ he)

theorem largest_ge {lt : T → T → Bool} [IsStrictWeakOrder T (lt · ·)] (v : Nat → T) (m : Nat)
    (cs : List Nat) : ∀ c ∈ m :: cs, ¬ lt (v (largest lt v m cs)) (v c) := by
  induction cs generalizing m with
  | nil =>
    intro c hc
    rw [List.mem_singleton.mp hc]
    exact irrefl (r := (lt · ·)) _
  | cons c₀ cs ih =>
    intro c hc
    have hi := ih (if lt (v m) (v c₀) then c₀ else m)
    show ¬ lt (v (largest lt v (if lt (v m) (v c₀) then c₀ else m) cs)) (v c)
    have hfirst := hi _ List.mem_cons_self
    rcases List.mem_cons.mp hc with rfl | hc
    · refine @not_lt_trans _ (lt · ·) _ _ _ _ hfirst ?_
      split
      · rename_i h
        exact asymm (r := (lt · ·)) h
      · exact irrefl (r := (lt · ·)) _
    · rcases List.mem_cons.mp hc with rfl | hc
      · refine @not_lt_trans _ (lt · ·) _ _ _ _ hfirst ?_
        split
        · exact irrefl (r := (lt · ·)) _
        · assumption
      · exact hi c (List.mem_cons_of_mem _ hc)

/-- A position stays the greatest one unless one behind it is greater. -/
theorem largest_cons {lt : T → T → Bool} [IsStrictWeakOrder T (lt · ·)] (v : Nat → T) (m c : Nat)
    (cs : List Nat) : largest lt v m (c :: cs) =
      if lt (v m) (v (largest lt v c cs)) then largest lt v c cs else m := by
  induction cs generalizing m c with
  | nil => rfl
  | cons c' cs ih =>
    have hge := @largest_ge _ lt _ v c (c' :: cs)
    by_cases hmc : lt (v m) (v c) = true
    · -- the search goes on from `c`
      have hstep : largest lt v m (c :: c' :: cs) = largest lt v c (c' :: cs) := by
        show largest lt v (if lt (v m) (v c) then c else m) (c' :: cs) = _
        rw [if_pos hmc]
      have hlt : lt (v m) (v (largest lt v c (c' :: cs))) = true := by
        by_contra hno
        exact @not_lt_trans _ (lt · ·) _ _ _ _ hno (hge c List.mem_cons_self) hmc
      rw [hstep, if_pos hlt]
    · have hstep : largest lt v m (c :: c' :: cs) = largest lt v m (c' :: cs) := by
        show largest lt v (if lt (v m) (v c) then c else m) (c' :: cs) = _
        rw [if_neg hmc]
      rw [hstep, ih m c', ih c c']
      by_cases hc : lt (v c) (v (largest lt v c' cs)) = true
      · rw [if_pos hc]
      · have hm : ¬ lt (v m) (v (largest lt v c' cs)) = true :=
          @not_lt_trans _ (lt · ·) _ _ _ _ hmc hc
        rw [if_neg hc, if_neg hmc, if_neg hm]

/-- Among falling positions the last one of the greatest is found. -/
theorem largest_last {lt : T → T → Bool} [IsStrictWeakOrder T (lt · ·)] (v : Nat → T) (m : Nat)
    (cs : List Nat) (hcs : (m :: cs).Pairwise (· > ·)) :
    ∀ c ∈ m :: cs, largest lt v m cs < c → lt (v c) (v (largest lt v m cs)) := by
  induction cs generalizing m with
  | nil =>
    intro c hc hlt
    rw [List.mem_singleton.mp hc] at hlt
    exact absurd hlt (Nat.lt_irrefl m)
  | cons c₀ cs ih =>
    intro c hc
    obtain ⟨hfirst, htail⟩ := List.pairwise_cons.mp hcs
    rw [largest_cons]
    split
    · rename_i hm
      intro hlt
      rcases List.mem_cons.mp hc with rfl | hc
      · exact hm
      · exact ih c₀ htail c hc hlt
    · intro hlt
      rcases List.mem_cons.mp hc with rfl | hc
      · exact absurd hlt (Nat.lt_irrefl c)
      · exact absurd hlt (Nat.lt_asymm (hfirst c hc))

/-! ## The path of the greatest children -/

/-- The group of children of `h` is full, and `m` is the last one of the greatest of them. -/
structure LastGreatest (d : Nat) (lt : T → T → Prop) (n : Nat) (v : Nat → T) (h m : Nat) :
    Prop where
  full : h * d + d < n
  low : h * d + 1 ≤ m
  high : m ≤ h * d + d
  greatest : ∀ c, h * d + 1 ≤ c → c ≤ h * d + d → ¬ lt (v m) (v c)
  last : ∀ c, m < c → c ≤ h * d + d → lt (v c) (v m)

/-- From position to position, each time to the last one of the greatest children, as long
as there is a full group of children. -/
inductive Descends (d : Nat) (lt : T → T → Prop) (n : Nat) (v : Nat → T) : Nat → Nat → Prop
  | here (h : Nat) : Descends d lt n v h h
  | down {h m k : Nat} : LastGreatest d lt n v h m → Descends d lt n v m k →
      Descends d lt n v h k

/-- Where the path from `h` ends above a partial group, or above none, `x` is not less than
the children. -/
def NoneGreater (d : Nat) (lt : T → T → Prop) (n : Nat) (v : Nat → T) (h : Nat) (x : T) : Prop :=
  ∀ k, Descends d lt n v h k → n ≤ k * d + d → ∀ c, k * d + 1 ≤ c → c < n → ¬ lt x (v c)

variable {k : Nat} {v' : Nat → T}

theorem LastGreatest.arity_pos (hm : LastGreatest d lt n v h m) : 0 < d := by
  have hlow := hm.low
  have hhigh := hm.high
  exact Nat.pos_of_ne_zero fun hd => by omega

theorem LastGreatest.child (hm : LastGreatest d lt n v h m) :
    h < m ∧ m < n ∧ parent d m = h := by
  have hself : h ≤ h * d := Nat.le_mul_of_pos_right h hm.arity_pos
  have hlow := hm.low
  exact ⟨by omega, Nat.lt_of_le_of_lt hm.high hm.full,
    (parent_eq_iff hm.arity_pos (by omega)).mpr ⟨hlow, hm.high⟩⟩

theorem LastGreatest.unique (hm : LastGreatest d lt n v h m) (hk : LastGreatest d lt n v h k) :
    m = k := by
  rcases Nat.lt_trichotomy m k with hlt | rfl | hlt
  · exact absurd (hm.last k hlt hk.high) (hk.greatest m hm.low hm.high)
  · rfl
  · exact absurd (hk.last m hlt hm.high) (hm.greatest k hk.low hk.high)

theorem LastGreatest.congr (hm : LastGreatest d lt n v h m)
    (hv : ∀ i, h < i → i < n → v' i = v i) : LastGreatest d lt n v' h m := by
  have hself : h ≤ h * d := Nat.le_mul_of_pos_right h hm.arity_pos
  have hfull := hm.full
  have hlow := hm.low
  have hchild : ∀ c, h * d + 1 ≤ c → c ≤ h * d + d → v' c = v c :=
    fun c hc hc' => hv c (by omega) (by omega)
  refine ⟨hm.full, hm.low, hm.high, fun c hc hc' => ?_, fun c hc hc' => ?_⟩
  · rw [hchild m hm.low hm.high, hchild c hc hc']
    exact hm.greatest c hc hc'
  · rw [hchild m hm.low hm.high, hchild c (by omega) hc']
    exact hm.last c hc hc'

theorem Descends.le (hk : Descends d lt n v h k) : h ≤ k := by
  induction hk with
  | here => exact Nat.le_refl _
  | down hm _ ih => exact Nat.le_trans (Nat.le_of_lt hm.child.1) ih

/-- Only the values behind a position matter for the path from there. -/
theorem Descends.congr (hk : Descends d lt n v h k)
    (hv : ∀ i, h < i → i < n → v' i = v i) : Descends d lt n v' h k := by
  induction hk with
  | here => exact .here _
  | down hm _ ih =>
    exact .down (hm.congr hv) (ih fun i hi => hv i (Nat.lt_trans hm.child.1 hi))

/-- The path goes on from the last one of the greatest children, and from nowhere else. -/
theorem LastGreatest.descends_iff (hm : LastGreatest d lt n v h m) :
    Descends d lt n v h k ↔ k = h ∨ Descends d lt n v m k := by
  constructor
  · intro hk
    cases hk with
    | here => exact .inl rfl
    | down hm' hk => exact .inr (hm.unique hm' ▸ hk)
  · rintro (rfl | hk)
    · exact .here k
    · exact .down hm hk

/-- The path ends where there is no full group of children. -/
theorem descends_end (hlast : n ≤ h * d + d) : Descends d lt n v h k ↔ k = h := by
  constructor
  · intro hk
    cases hk with
    | here => rfl
    | down hm => exact absurd hm.full (Nat.not_lt.mpr hlast)
  · rintro rfl
    exact .here k

/-- There is one end of the path. -/
theorem Descends.end_unique {k' : Nat} (hk : Descends d lt n v h k) (hlast : n ≤ k * d + d)
    (hk' : Descends d lt n v h k') (hlast' : n ≤ k' * d + d) : k = k' := by
  induction hk with
  | here => exact ((descends_end hlast).mp hk').symm
  | down hm _ ih =>
    rcases hm.descends_iff.mp hk' with rfl | hk'
    · exact absurd hm.full (Nat.not_lt.mpr hlast')
    · exact ih hlast hk'

theorem LastGreatest.noneGreater_iff (hm : LastGreatest d lt n v h m) :
    NoneGreater d lt n v h x ↔ NoneGreater d lt n v m x := by
  refine ⟨fun hx k hk => hx k (.down hm hk), fun hx k hk hlast => ?_⟩
  rcases hm.descends_iff.mp hk with rfl | hk
  · exact absurd hm.full (Nat.not_lt.mpr hlast)
  · exact hx k hk hlast

theorem noneGreater_end (hd : 0 < d) (hlast : n ≤ h * d + d) :
    NoneGreater d lt n v h x ↔ Above d lt n h v x := by
  constructor
  · intro hx i hi hin hp
    exact hx h (.here h) hlast i ((parent_eq_iff hd hi).mp hp).1 hin
  · intro hx k hk _ c hc hcn
    obtain rfl := (descends_end hlast).mp hk
    exact hx c (by omega) hcn ((parent_eq_iff hd (by omega)).mpr ⟨hc, by omega⟩)

theorem NoneGreater.congr (hd : 0 < d) (hx : NoneGreater d lt n v h x)
    (hv : ∀ i, h < i → i < n → v' i = v i) : NoneGreater d lt n v' h x := by
  intro k hk hlast c hc hcn
  have hself : k ≤ k * d := Nat.le_mul_of_pos_right k hd
  have hle := hk.le
  rw [hv c (by omega) hcn]
  exact hx k (hk.congr fun i hi hin => (hv i hi hin).symm) hlast c hc hcn

/-- No value on a path is greater than the one where it begins. -/
theorem Descends.ge [IsStrictWeakOrder T lt] (hk : Descends d lt n v h k)
    (hord : ∀ i, 0 < i → i < n → h ≤ parent d i → ¬ lt (v (parent d i)) (v i)) :
    ¬ lt (v h) (v k) := by
  induction hk with
  | here => exact irrefl _
  | down hm _ ih =>
    obtain ⟨hlt, hmn, hp⟩ := hm.child
    have hstep := hord _ (Nat.lt_of_le_of_lt (Nat.zero_le _) hlt) hmn (Nat.le_of_eq hp.symm)
    rw [hp] at hstep
    exact not_lt_trans hstep (ih fun i hi hin hle => hord i hi hin (by omega))

/-- Nothing further down is greater than a value that is not less than a full group. -/
theorem noneGreater_of_group [IsStrictWeakOrder T lt] (hfull : h * d + d < n)
    (hgroup : ∀ c, h * d + 1 ≤ c → c ≤ h * d + d → ¬ lt x (v c))
    (hord : ∀ i, 0 < i → i < n → h < parent d i → ¬ lt (v (parent d i)) (v i)) :
    NoneGreater d lt n v h x := by
  intro k hk hlast c hc hcn
  cases hk with
  | here => exact absurd hfull (Nat.not_lt.mpr hlast)
  | down hm hk =>
    have hlt := hm.child.1
    have hle := hk.le
    have hpath := hk.ge fun i hi hin hle => hord i hi hin (Nat.lt_of_lt_of_le hlt hle)
    have hp : parent d c = k :=
      (parent_eq_iff hm.arity_pos (by omega)).mpr ⟨hc, by omega⟩
    have hchild := hord c (by omega) hcn (by omega)
    rw [hp] at hchild
    exact not_lt_trans (hgroup _ hm.low hm.high) (not_lt_trans hpath hchild)

end HeapOrder
