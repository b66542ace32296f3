import Kuhllib.Lib.HeapForest
import Mathlib.Data.List.ReduceOption

/-!
# Forests with vectors of children

A node has a vector of its children, and knows its parent and its index there. A child is
cut out by moving the last one to its place. Trees of different ranks are kept in a table
with one entry for each rank, and others wait outside of it.

* `Wired`: a forest whose parents and indices are right, and whose children are below
  their parents.
* `Ranked`: the tops are the entries of the table, each at its rank, and the loose trees.
* What joins, cuts and moves between the table and the loose trees do.
* `best`: the first maximum of the table.
-/

namespace RankForest

open HeapForest

structure Vectors (α : Type*) where
  children : α → List α
  parent : α → Option α
  index : α → Nat

variable {α T : Type*} [DecidableEq α]

def Vectors.join (v : Vectors α) (p c : α) : Vectors α where
  children := Function.update v.children p (v.children p ++ [c])
  parent := Function.update v.parent c (some p)
  index := Function.update v.index c (v.children p).length

/-- The last child takes the place of `c`, and there has to be one. -/
def Vectors.cut (v : Vectors α) (p c : α) : Option (Vectors α) := do
  let index := v.index c
  let v ←
    if index + 1 < (v.children p).length then do
      let last ← (v.children p).getLast?
      some { v with
        children := Function.update v.children p ((v.children p).set index last)
        index := Function.update v.index last index }
    else some v
  if v.children p = [] then none
  else some { v with children := Function.update v.children p (v.children p).dropLast }

def Vectors.clear (v : Vectors α) (n : α) : Vectors α :=
  { v with parent := Function.update v.parent n none }

/-- An entry of the table is written, and there has to be one. -/
def assign (roots : List (Option α)) (i : Nat) (o : Option α) : Option (List (Option α)) :=
  if i < roots.length then some (roots.set i o) else none

/-! ## Indices -/

/-- The elements of the vector know their places. -/
def Indexed (index : α → Nat) (l : List α) : Prop :=
  ∀ i c, l[i]? = some c → index c = i

section

variable {index index' : α → Nat} {l l₁ : List α} {c x : α}

omit [DecidableEq α] in
theorem Indexed.congr (h : Indexed index l) (he : ∀ z ∈ l, index' z = index z) :
    Indexed index' l := fun i z hz =>
  (he z (List.mem_of_getElem? hz)).trans (h i z hz)

theorem Indexed.append (h : Indexed index l) (hc : c ∉ l) :
    Indexed (Function.update index c l.length) (l ++ [c]) := by
  intro i z hz
  rcases Nat.lt_or_ge i l.length with hi | hi
  · rw [List.getElem?_append_left hi] at hz
    have hzc : z ≠ c := by
      rintro rfl
      exact hc (List.mem_of_getElem? hz)
    exact (Function.update_of_ne hzc ..).trans (h i z hz)
  · rw [List.getElem?_append_right hi] at hz
    obtain rfl := List.mem_singleton.mp (List.mem_of_getElem? hz)
    have hlt := (List.getElem?_eq_some_iff.mp hz).1
    rw [List.length_singleton] at hlt
    exact (Function.update_self ..).trans (by omega)

omit [DecidableEq α] in
theorem Indexed.place (h : Indexed index (l₁ ++ c :: l)) : index c = l₁.length := by
  refine h _ c ?_
  rw [List.getElem?_append_right (Nat.le_refl _), Nat.sub_self]
  rfl

omit [DecidableEq α] in
theorem Indexed.left (h : Indexed index (l₁ ++ l)) : Indexed index l₁ := fun i z hz =>
  h i z ((List.getElem?_append_left (List.getElem?_eq_some_iff.mp hz).1).trans hz)

/-- The last element takes the place of another one. -/
theorem Indexed.move (h : Indexed index (l₁ ++ c :: (l ++ [x])))
    (hnodup : (l₁ ++ c :: (l ++ [x])).Nodup) :
    Indexed (Function.update index x l₁.length) (l₁ ++ x :: l) := by
  have hx : x ∉ l₁ ++ c :: l := by
    have hsplit : l₁ ++ c :: (l ++ [x]) = (l₁ ++ c :: l) ++ [x] := by simp
    rw [hsplit] at hnodup
    exact fun hx => (List.nodup_append.mp hnodup).2.2 x hx x List.mem_cons_self rfl
  have hold : ∀ z ∈ l₁ ++ c :: l, Function.update index x l₁.length z = index z := by
    intro z hz
    refine Function.update_of_ne ?_ ..
    rintro rfl
    exact hx hz
  intro i z hz
  rcases lt_trichotomy i l₁.length with hi | rfl | hi
  · rw [List.getElem?_append_left hi] at hz
    rw [hold z (List.mem_append_left _ (List.mem_of_getElem? hz))]
    exact h i z ((List.getElem?_append_left hi).trans hz)
  · rw [List.getElem?_append_right (Nat.le_refl _), Nat.sub_self] at hz
    obtain rfl := Option.some.inj hz
    exact Function.update_self ..
  · obtain ⟨k, rfl⟩ := Nat.exists_eq_add_of_lt hi
    have hright : ∀ y : α, ∀ l' : List α, (l₁ ++ y :: l')[l₁.length + k + 1]? = l'[k]? := by
      intro y l'
      rw [List.getElem?_append_right (by omega), Nat.add_assoc, Nat.add_sub_cancel_left]
      rfl
    rw [hright] at hz
    rw [hold z (List.mem_append_right _ (List.mem_cons_of_mem c (List.mem_of_getElem? hz)))]
    refine h _ z ?_
    rw [hright, List.getElem?_append_left (List.getElem?_eq_some_iff.mp hz).1]
    exact hz

end

/-! ## Parents and indices -/

/-- `above p c`: the parent `p` may have the child `c`. -/
structure Wired (above : α → α → Prop) (v : Vectors α) (tops nodes : List α) : Prop where
  forest : Forest tops nodes v.children
  parent : ∀ p ∈ nodes, ∀ c ∈ v.children p, v.parent c = some p
  index : ∀ p ∈ nodes, Indexed v.index (v.children p)
  above : ∀ p ∈ nodes, ∀ c ∈ v.children p, above p c

section

variable {above above' : α → α → Prop} {v : Vectors α} {tops tops' nodes nodes' : List α}
  {p c n : α}

omit [DecidableEq α] in
theorem Wired.perm (h : Wired above v tops nodes) (hperm : tops'.Perm tops) :
    Wired above v tops' nodes :=
  ⟨h.forest.perm hperm, h.parent, h.index, h.above⟩

/-- A top may forget a parent. -/
theorem Wired.clear (h : Wired above v tops nodes) (hn : n ∈ tops) :
    Wired above (v.clear n) tops nodes := by
  refine ⟨h.forest, fun p hp c hc => ?_, h.index, h.above⟩
  have hcn : c ≠ n := by
    rintro rfl
    exact h.forest.top_not_child hn hp hc
  exact (Function.update_of_ne hcn ..).trans (h.parent p hp c hc)

omit [DecidableEq α] in
theorem join_perm {l : List α} : ((p :: tops) ++ (l ++ [c])).Perm ((p :: c :: tops) ++ l) := by
  refine List.Perm.cons p ?_
  show (tops ++ (l ++ [c])).Perm (c :: (tops ++ l))
  rw [← List.append_assoc]
  exact List.perm_append_singleton c (tops ++ l)

theorem mem_join {q z : α} (hz : z ∈ (v.join p c).children q) :
    z ∈ v.children q ∨ q = p ∧ z = c := by
  unfold Vectors.join at hz
  dsimp only at hz
  rcases eq_or_ne q p with rfl | hqp
  · rw [Function.update_self] at hz
    exact (List.mem_append.mp hz).imp_right fun hz => ⟨rfl, List.mem_singleton.mp hz⟩
  · rw [Function.update_of_ne hqp] at hz
    exact .inl hz

theorem Wired.join (h : Wired above v (p :: c :: tops) nodes) (hpc : above p c) :
    Wired above (v.join p c) (p :: tops) nodes := by
  have hold : ∀ q ∈ nodes, ∀ z ∈ v.children q, z ≠ c := by
    rintro q hq z hz rfl
    exact h.forest.top_not_child (List.mem_cons_of_mem p List.mem_cons_self) hq hz
  have hp := h.forest.mem_of_top List.mem_cons_self
  have hself : (v.join p c).children p = v.children p ++ [c] := Function.update_self ..
  have hother : ∀ q, q ≠ p → (v.join p c).children q = v.children q := fun q hq =>
    Function.update_of_ne hq ..
  refine ⟨h.forest.join List.mem_cons_self List.mem_cons_self join_perm, fun q hq z hz => ?_,
    fun q hq => ?_, fun q hq z hz => ?_⟩
  · rcases mem_join hz with hz | ⟨rfl, rfl⟩
    · exact (Function.update_of_ne (hold q hq z hz) ..).trans (h.parent q hq z hz)
    · exact Function.update_self ..
  · rcases eq_or_ne q p with rfl | hqp
    · rw [hself]
      exact (h.index q hq).append fun hc => hold q hq c hc rfl
    · rw [hother q hqp]
      exact (h.index q hq).congr fun z hz => Function.update_of_ne (hold q hq z hz) ..
  · rcases mem_join hz with hz | ⟨rfl, rfl⟩
    · exact h.above q hq z hz
    · exact hpc

theorem cut_children (hindex : Indexed v.index (v.children p)) (hnodup : (v.children p).Nodup)
    (hc : c ∈ v.children p) :
    ∃ l index, v.cut p c = some ⟨Function.update v.children p l, v.parent, index⟩ ∧
      (c :: l).Perm (v.children p) ∧ Indexed index l ∧
      ∀ z ∉ v.children p, index z = v.index z := by
  obtain ⟨l₁, l₂, hl⟩ := List.append_of_mem hc
  rw [hl] at hnodup hindex
  unfold Vectors.cut
  rw [hindex.place, hl]
  rcases List.eq_nil_or_concat l₂ with rfl | ⟨l₂, x, rfl⟩
  · refine ⟨l₁, v.index, ?_, (List.perm_append_singleton c l₁).symm, hindex.left, fun z _ => rfl⟩
    simp [hl]
  · rw [List.concat_eq_append] at hl hnodup hindex ⊢
    have hlast : (l₁ ++ c :: (l₂ ++ [x])).getLast? = some x := by
      rw [List.append_cons, ← List.append_assoc, List.getLast?_concat]
    have hset : (l₁ ++ c :: (l₂ ++ [x])).set l₁.length x = (l₁ ++ x :: l₂) ++ [x] := by
      simp [List.set_append_right]
    have hinner : l₁.length + 1 < (l₁ ++ c :: (l₂ ++ [x])).length := by simp
    have hne : (l₁ ++ x :: l₂) ++ [x] ≠ [] := List.append_ne_nil_of_right_ne_nil _ (by simp)
    refine ⟨l₁ ++ x :: l₂, Function.update v.index x l₁.length, ?_, ?_, hindex.move hnodup,
      fun z hz => ?_⟩
    · simp only [if_pos hinner, hlast, Option.bind_eq_bind, Option.bind_some, hset,
        Function.update_self, if_neg hne, List.dropLast_concat, Function.update_idem]
    · refine List.perm_middle.symm.trans (.append_left l₁ (.cons c ?_))
      exact (List.perm_append_singleton x l₂).symm
    · refine Function.update_of_ne ?_ ..
      rintro rfl
      exact hz (by simp)

/-- What of the children stays, and what of the other nodes. -/
structure Cut (v v' : Vectors α) (p c : α) : Prop where
  perm : (c :: v'.children p).Perm (v.children p)
  other : ∀ q, q ≠ p → v'.children q = v.children q
  parent : v'.parent = v.parent

omit [DecidableEq α] in
theorem Cut.subset {v' : Vectors α} (h : Cut v v' p c) (q : α) : v'.children q ⊆ v.children q := by
  intro z hz
  rcases eq_or_ne q p with rfl | hqp
  · exact h.perm.mem_iff.mp (List.mem_cons_of_mem c hz)
  · rwa [← h.other q hqp]

/-- The child may have been one that its parent may not have. -/
theorem Wired.cut (h : Wired above' v tops nodes) (hp : p ∈ nodes) (hc : c ∈ v.children p)
    (hmono : ∀ q z, z ≠ c → above' q z → above q z) :
    ∃ v', v.cut p c = some v' ∧ Wired above v' (c :: tops) nodes ∧ Cut v v' p c := by
  have hnodup := h.forest.children_nodup hp
  obtain ⟨l, index, hv, hperm, hplaces, hindex⟩ := cut_children (h.index p hp) hnodup hc
  have hsub : l ⊆ v.children p := fun z hz => hperm.mem_iff.mp (List.mem_cons_of_mem c hz)
  have hcl : c ∉ l := (List.nodup_cons.mp (hperm.nodup_iff.mpr hnodup)).1
  have hself : Function.update v.children p l p = l := Function.update_self ..
  have hother : ∀ q, q ≠ p → Function.update v.children p l q = v.children q := fun q hq =>
    Function.update_of_ne hq ..
  have hchild : ∀ q ∈ nodes, ∀ z ∈ Function.update v.children p l q,
      z ∈ v.children q ∧ z ≠ c := by
    intro q hq z hz
    rcases eq_or_ne q p with rfl | hqp
    · rw [hself] at hz
      exact ⟨hsub hz, fun he => hcl (he ▸ hz)⟩
    · rw [hother q hqp] at hz
      exact ⟨hz, fun he => hqp (h.forest.parent_unique hq hp hz (he ▸ hc))⟩
  have hplaces' : ∀ q ∈ nodes, Indexed index (Function.update v.children p l q) := by
    intro q hq
    rcases eq_or_ne q p with rfl | hqp
    · rwa [hself]
    · rw [hother q hqp]
      exact (h.index q hq).congr fun z hz => hindex z fun hzp =>
        hqp (h.forest.parent_unique hq hp hz hzp)
  refine ⟨_, hv, ⟨?_, fun q hq z hz => h.parent q hq z (hchild q hq z hz).1, hplaces',
    fun q hq z hz => ?_⟩, ⟨?_, hother, rfl⟩⟩
  · exact h.forest.cut hp (List.perm_middle.symm.trans (hperm.append_left tops)) hsub
  · exact hmono q z (hchild q hq z hz).2 (h.above q hq z (hchild q hq z hz).1)
  · exact (hself.symm ▸ hperm : (c :: Function.update v.children p l p).Perm _)

/-- A top goes. What its children were may have been forbidden. -/
theorem Wired.pop (h : Wired above' v (n :: tops) nodes)
    (hmono : ∀ q z, q ≠ n → above' q z → above q z) :
    Wired above v (v.children n ++ tops) (nodes.erase n) := by
  have hmem : ∀ q ∈ nodes.erase n, q ∈ nodes ∧ q ≠ n := fun q hq =>
    ⟨List.mem_of_mem_erase hq, fun he => h.forest.nodup.not_mem_erase (he ▸ hq)⟩
  exact ⟨h.forest.pop, fun q hq => h.parent q (hmem q hq).1, fun q hq => h.index q (hmem q hq).1,
    fun q hq z hz => hmono q z (hmem q hq).2 (h.above q (hmem q hq).1 z hz)⟩

/-- A node without children comes. -/
theorem Wired.push (h : Wired above v tops nodes) (hn : n ∉ nodes) (v' : Vectors α)
    (hchildren : v'.children = Function.update v.children n [])
    (hparent : ∀ q ∈ nodes, v'.parent q = v.parent q)
    (hindex : ∀ q ∈ nodes, v'.index q = v.index q) :
    Wired above v' (n :: tops) (nodes ++ [n]) := by
  have hself : v'.children n = [] := hchildren ▸ Function.update_self ..
  have hother : ∀ q, q ≠ n → v'.children q = v.children q := fun q hq =>
    hchildren ▸ Function.update_of_ne hq ..
  have hold : ∀ q ∈ nodes ++ [n], q ≠ n → q ∈ nodes := fun q hq hqn =>
    (List.mem_append.mp hq).resolve_right fun hq => hqn (List.mem_singleton.mp hq)
  refine ⟨hchildren ▸ h.forest.push hn, fun q hq z hz => ?_, fun q hq => ?_, fun q hq z hz => ?_⟩
  all_goals rcases eq_or_ne q n with rfl | hqn
  · rw [hself] at hz
    cases hz
  · rw [hother q hqn] at hz
    have hq := hold q hq hqn
    rw [hparent z (h.forest.mem_of_child hq hz)]
    exact h.parent q hq z hz
  · rw [hself]
    exact fun i z hz => by cases hz
  · rw [hother q hqn]
    have hq := hold q hq hqn
    exact (h.index q hq).congr fun z hz => hindex z (h.forest.mem_of_child hq hz)
  · rw [hself] at hz
    cases hz
  · rw [hother q hqn] at hz
    exact h.above q (hold q hq hqn) z hz

omit [DecidableEq α] in
theorem Wired.perm_nodes (h : Wired above v tops nodes) (hperm : nodes'.Perm nodes) :
    Wired above v tops nodes' := by
  have hmem : ∀ q ∈ nodes', q ∈ nodes := fun q hq => hperm.mem_iff.mp hq
  obtain ⟨height, hheight⟩ := h.forest.grounded
  refine ⟨⟨?_, hperm.nodup_iff.mpr h.forest.nodup, height, fun q hq => hheight q (hmem q hq)⟩,
    fun q hq => h.parent q (hmem q hq), fun q hq => h.index q (hmem q hq),
    fun q hq => h.above q (hmem q hq)⟩
  exact ((hperm.flatMap_right v.children).append_left tops).trans
    (h.forest.held.trans hperm.symm)

omit [DecidableEq α] in
theorem Wired.mono (h : Wired above' v tops nodes)
    (hmono : ∀ p ∈ nodes, ∀ c ∈ v.children p, above' p c → above p c) :
    Wired above v tops nodes :=
  ⟨h.forest, h.parent, h.index, fun p hp c hc => hmono p hp c hc (h.above p hp c hc)⟩

end

/-! ## The table -/

section

variable {roots : List (Option α)} {i j : Nat} {r n : α} {o : Option α}

omit [DecidableEq α] in
theorem mem_table : r ∈ roots.reduceOption ↔ ∃ i : Nat, roots[i]? = some (some r) := by
  rw [List.reduceOption_mem_iff, List.mem_iff_getElem?]

omit [DecidableEq α] in
theorem reduceOption_cons : (o :: roots).reduceOption = o.toList ++ roots.reduceOption := by
  cases o <;> rfl

omit [DecidableEq α] in
/-- What is written into the table, and what was there. -/
theorem set_perm (o' : Option α) (hi : roots[i]? = some o) :
    (o.toList ++ (roots.set i o').reduceOption).Perm (o'.toList ++ roots.reduceOption) := by
  obtain ⟨hlt, ho⟩ := List.getElem?_eq_some_iff.mp hi
  have hroots : roots = roots.take i ++ o :: roots.drop (i + 1) := by
    rw [← ho, List.getElem_cons_drop, List.take_append_drop]
  have hset : roots.set i o' = roots.take i ++ o' :: roots.drop (i + 1) :=
    List.set_eq_take_append_cons_drop.trans (if_pos hlt)
  have hmiddle : ∀ o : Option α, ∀ l₁ l₂ : List (Option α),
      (l₁ ++ o :: l₂).reduceOption.Perm (o.toList ++ (l₁ ++ l₂).reduceOption) := by
    intro o l₁ l₂
    rw [List.reduceOption_append, List.reduceOption_append, reduceOption_cons,
      ← List.append_assoc, ← List.append_assoc]
    exact List.perm_append_comm.append_right _
  calc (o.toList ++ (roots.set i o').reduceOption).Perm
        (o.toList ++ (o'.toList ++ (roots.take i ++ roots.drop (i + 1)).reduceOption)) := by
        rw [hset]
        exact (hmiddle o' _ _).append_left _
    List.Perm _ (o'.toList ++ (o.toList ++ (roots.take i ++ roots.drop (i + 1)).reduceOption)) := by
        rw [← List.append_assoc, ← List.append_assoc]
        exact List.perm_append_comm.append_right _
    List.Perm _ (o'.toList ++ roots.reduceOption) := by
        conv_rhs => rw [hroots]
        exact ((hmiddle o _ _).symm).append_left _

omit [DecidableEq α] in
theorem set_none_entry (h : (roots.set i none)[j]? = some (some r)) :
    roots[j]? = some (some r) := by
  rw [List.getElem?_set] at h
  split at h
  · split at h <;> cases h
  · exact h

omit [DecidableEq α] in
theorem set_some_entry (h : (roots.set i (some n))[j]? = some (some r)) :
    roots[j]? = some (some r) ∨ j = i ∧ r = n := by
  rw [List.getElem?_set] at h
  split at h
  · split at h
    · cases h
      exact .inr ⟨by omega, rfl⟩
    · cases h
  · exact .inl h

omit [DecidableEq α] in
theorem append_entry {k : Nat}
    (h : (roots ++ List.replicate k none ++ [some n])[j]? = some (some r)) :
    roots[j]? = some (some r) ∨ j = roots.length + k ∧ r = n := by
  rcases Nat.lt_or_ge j (roots ++ List.replicate k (none : Option α)).length with hj | hj
  · rw [List.getElem?_append_left hj] at h
    rcases Nat.lt_or_ge j roots.length with hj | hj
    · rw [List.getElem?_append_left hj] at h
      exact .inl h
    · rw [List.getElem?_append_right hj] at h
      have := List.eq_of_mem_replicate (List.mem_of_getElem? h)
      cases this
  · have hlt := (List.getElem?_eq_some_iff.mp h).1
    rw [List.getElem?_append_right hj] at h
    have := List.mem_singleton.mp (List.mem_of_getElem? h)
    cases this
    simp only [List.length_append, List.length_replicate, List.length_singleton] at hj hlt
    exact .inr ⟨Nat.le_antisymm (Nat.le_of_lt_succ hlt) hj, rfl⟩

end

/-- There are fewer nodes above the higher one of two. -/
theorem higher_lt {height : α → Nat} {nodes : List α} {n p : α} (hp : p ∈ nodes)
    (hlt : height n < height p) :
    nodes.countP (height p < height ·) < nodes.countP (height n < height ·) := by
  rw [(List.perm_cons_erase hp).countP_eq, (List.perm_cons_erase hp).countP_eq,
    List.countP_cons_of_neg (by simp), List.countP_cons_of_pos (by simpa using hlt)]
  refine Nat.lt_succ_of_le (List.countP_mono_left fun q _ hq => ?_)
  exact decide_eq_true (Nat.lt_trans hlt (of_decide_eq_true hq))

/-- The tops are the entries of the table and the loose trees. -/
structure Ranked (above : α → α → Prop) (v : Vectors α) (roots : List (Option α))
    (loose nodes : List α) : Prop where
  wired : Wired above v (loose ++ roots.reduceOption) nodes
  rank : ∀ (i : Nat) r, roots[i]? = some (some r) → (v.children r).length = i
  root : ∀ (i : Nat) r, roots[i]? = some (some r) → v.parent r = none

section

variable {above above' : α → α → Prop} {v : Vectors α} {roots : List (Option α)}
  {loose loose' nodes nodes' : List α} {p c r n : α} {i k : Nat}

omit [DecidableEq α] in
theorem Ranked.perm (h : Ranked above v roots loose nodes) (hperm : loose'.Perm loose) :
    Ranked above v roots loose' nodes :=
  ⟨h.wired.perm (hperm.append_right _), h.rank, h.root⟩

omit [DecidableEq α] in
theorem Ranked.perm_nodes (h : Ranked above v roots loose nodes) (hperm : nodes'.Perm nodes) :
    Ranked above v roots loose nodes' :=
  ⟨h.wired.perm_nodes hperm, h.rank, h.root⟩

omit [DecidableEq α] in
theorem Ranked.mono (h : Ranked above' v roots loose nodes)
    (hmono : ∀ p ∈ nodes, ∀ c ∈ v.children p, above' p c → above p c) :
    Ranked above v roots loose nodes :=
  ⟨h.wired.mono hmono, h.rank, h.root⟩

omit [DecidableEq α] in
theorem Ranked.mem_of_entry (h : Ranked above v roots loose nodes)
    (hi : roots[i]? = some (some r)) : r ∈ nodes :=
  h.wired.forest.mem_of_top (List.mem_append_right _ (mem_table.mpr ⟨i, hi⟩))

omit [DecidableEq α] in
theorem Ranked.not_loose (h : Ranked above v roots loose nodes)
    (hi : roots[i]? = some (some r)) : r ∉ loose := fun hr =>
  (List.nodup_append.mp h.wired.forest.tops_nodup).2.2 r hr r (mem_table.mpr ⟨i, hi⟩) rfl

omit [DecidableEq α] in
theorem Ranked.mem_of_loose (h : Ranked above v roots loose nodes) (hn : n ∈ loose) : n ∈ nodes :=
  h.wired.forest.mem_of_top (List.mem_append_left _ hn)

omit [DecidableEq α] in
theorem Ranked.not_child (h : Ranked above v roots loose nodes) (hn : n ∈ loose) (hp : p ∈ nodes) :
    n ∉ v.children p :=
  h.wired.forest.top_not_child (List.mem_append_left _ hn) hp

omit [DecidableEq α] in
theorem Ranked.loose_nodup (h : Ranked above v roots loose nodes) : loose.Nodup :=
  (List.nodup_append.mp h.wired.forest.tops_nodup).1

omit [DecidableEq α] in
/-- A node is loose, in the table, or a child. -/
theorem Ranked.cases (h : Ranked above v roots loose nodes) (hn : n ∈ nodes) :
    n ∈ loose ∨ (∃ i : Nat, roots[i]? = some (some n)) ∨ ∃ p ∈ nodes, n ∈ v.children p := by
  rcases h.wired.forest.held_by hn with ht | hc
  · exact (List.mem_append.mp ht).imp_right fun ht => .inl (mem_table.mp ht)
  · exact .inr (.inr hc)

omit [DecidableEq α] in
/-- An entry becomes a loose tree. -/
theorem Ranked.take (h : Ranked above v roots loose nodes) (hi : roots[i]? = some (some r)) :
    Ranked above v (roots.set i none) (r :: loose) nodes ∧
      (roots.set i none).reduceOption.length + 1 = roots.reduceOption.length := by
  have hperm := set_perm none hi
  refine ⟨⟨h.wired.perm ?_, fun j q hj => h.rank j q (set_none_entry hj),
    fun j q hj => h.root j q (set_none_entry hj)⟩, ?_⟩
  · exact List.perm_middle.symm.trans (hperm.append_left loose)
  · have := hperm.length_eq
    simpa [Nat.add_comm] using this

theorem Ranked.place {roots' : List (Option α)} (h : Ranked above v roots (n :: loose) nodes)
    (hperm : roots'.reduceOption.Perm (n :: roots.reduceOption))
    (hentry : ∀ (j : Nat) r, roots'[j]? = some (some r) →
      roots[j]? = some (some r) ∨ j = (v.children n).length ∧ r = n) :
    Ranked above (v.clear n) roots' loose nodes := by
  refine ⟨(h.wired.clear List.mem_cons_self).perm ?_, fun j r hj => ?_, fun j r hj => ?_⟩
  · exact (hperm.append_left loose).trans List.perm_middle
  · rcases hentry j r hj with hj | ⟨rfl, rfl⟩
    · exact h.rank j r hj
    · rfl
  · rcases eq_or_ne r n with rfl | hrn
    · exact Function.update_self ..
    · refine (Function.update_of_ne hrn ..).trans (h.root j r ?_)
      exact (hentry j r hj).resolve_right fun he => hrn he.2

/-- A loose tree goes to a free entry. -/
theorem Ranked.put (h : Ranked above v roots (n :: loose) nodes)
    (hi : roots[(v.children n).length]? = some none) :
    Ranked above (v.clear n) (roots.set (v.children n).length (some n)) loose nodes :=
  h.place (set_perm (some n) hi) fun _ _ hj => set_some_entry hj

/-- A loose tree goes to an entry behind the end. -/
theorem Ranked.extend (h : Ranked above v roots (n :: loose) nodes)
    (hk : roots.length + k = (v.children n).length) :
    Ranked above (v.clear n) (roots ++ List.replicate k none ++ [some n]) loose nodes := by
  refine h.place ?_ fun j r hj => hk ▸ append_entry hj
  rw [List.reduceOption_append, List.reduceOption_append, List.reduceOption_replicate_none,
    List.append_nil]
  exact List.perm_append_singleton n _

theorem Ranked.clear (h : Ranked above v roots (n :: loose) nodes) :
    Ranked above (v.clear n) roots (n :: loose) nodes := by
  refine ⟨h.wired.clear List.mem_cons_self, h.rank, fun i r hi => ?_⟩
  rcases eq_or_ne r n with rfl | hrn
  · exact Function.update_self ..
  · exact (Function.update_of_ne hrn ..).trans (h.root i r hi)

/-- A loose tree becomes a child of another one. -/
theorem Ranked.join (h : Ranked above v roots (p :: c :: loose) nodes) (hpc : above p c) :
    Ranked above (v.join p c) roots (p :: loose) nodes := by
  refine ⟨h.wired.join hpc, fun i r hi => ?_, fun i r hi => ?_⟩
  · have hrp : r ≠ p := fun he => h.not_loose hi (he ▸ List.mem_cons_self)
    exact (congrArg List.length (Function.update_of_ne hrp ..)).trans (h.rank i r hi)
  · have hrc : r ≠ c := fun he =>
      h.not_loose hi (he ▸ List.mem_cons_of_mem p List.mem_cons_self)
    exact (Function.update_of_ne hrc ..).trans (h.root i r hi)

/-- A child of a node that is not in the table becomes a loose tree. -/
theorem Ranked.cut (h : Ranked above' v roots loose nodes) (hp : p ∈ nodes)
    (hc : c ∈ v.children p) (hmono : ∀ q z, z ≠ c → above' q z → above q z)
    (hroot : ∀ i : Nat, roots[i]? ≠ some (some p)) :
    ∃ v', v.cut p c = some v' ∧ Ranked above v' roots (c :: loose) nodes ∧ Cut v v' p c := by
  obtain ⟨v', hv, hwired, hcut⟩ := h.wired.cut hp hc hmono
  refine ⟨v', hv, ⟨hwired, fun i r hi => ?_, fun i r hi => ?_⟩, hcut⟩
  · have hrp : r ≠ p := by
      rintro rfl
      exact hroot i hi
    rw [hcut.other r hrp]
    exact h.rank i r hi
  · rw [hcut.parent]
    exact h.root i r hi

/-- An entry that loses a child leaves the table. -/
theorem Ranked.cut_entry (h : Ranked above' v roots loose nodes)
    (hi : roots[i]? = some (some p)) (hc : c ∈ v.children p)
    (hmono : ∀ q z, z ≠ c → above' q z → above q z) :
    ∃ v', v.cut p c = some v' ∧ (v'.children p).length + 1 = i ∧
      Ranked above v' (roots.set i none) (p :: c :: loose) nodes ∧ Cut v v' p c := by
  obtain ⟨htake, -⟩ := h.take hi
  obtain ⟨v', hv, hranked, hcut⟩ := htake.cut (h.mem_of_entry hi) hc hmono
    fun j hj => htake.not_loose hj List.mem_cons_self
  refine ⟨v', hv, ?_, hranked.perm (List.Perm.swap ..), hcut⟩
  rw [← h.rank i p hi]
  exact hcut.perm.length_eq

/-- A loose tree goes, and its children become loose. -/
theorem Ranked.pop (h : Ranked above' v roots (n :: loose) nodes)
    (hmono : ∀ q z, q ≠ n → above' q z → above q z) :
    Ranked above v roots (v.children n ++ loose) (nodes.erase n) := by
  refine ⟨?_, h.rank, h.root⟩
  rw [List.append_assoc]
  exact h.wired.pop hmono

/-- A node without children comes. -/
theorem Ranked.push (h : Ranked above v roots loose nodes) (hn : n ∉ nodes) (v' : Vectors α)
    (hchildren : v'.children = Function.update v.children n [])
    (hparent : ∀ q ∈ nodes, v'.parent q = v.parent q)
    (hindex : ∀ q ∈ nodes, v'.index q = v.index q) :
    Ranked above v' roots (n :: loose) (nodes ++ [n]) := by
  refine ⟨h.wired.push hn v' hchildren hparent hindex, fun i r hi => ?_, fun i r hi => ?_⟩
  · have hrn : r ≠ n := fun he => hn (he ▸ h.mem_of_entry hi)
    rw [hchildren, Function.update_of_ne hrn]
    exact h.rank i r hi
  · rw [hparent r (h.mem_of_entry hi)]
    exact h.root i r hi

end

/-! ## The maximum of the table -/

/-- What is kept when an entry is compared with the greatest one so far. -/
def greater (less : α → α → Bool) (m : α) : Option α → α
  | some r => if less m r then r else m
  | none => m

omit [DecidableEq α] in
theorem greater_some (less : α → α → Bool) (m r : α) :
    greater less m (some r) = if less m r then r else m :=
  rfl

/-- Free entries are skipped, and there has to be another one. -/
def best (less : α → α → Bool) : List (Option α) → Option α
  | [] => none
  | none :: l => best less l
  | some r :: l => some (l.foldl (greater less) r)

omit [DecidableEq α] in
theorem greater_mem (less : α → α → Bool) (l : List (Option α)) (m : α) :
    l.foldl (greater less) m ∈ m :: l.reduceOption := by
  induction l generalizing m with
  | nil => exact List.mem_cons_self
  | cons o l ih =>
    cases o with
    | none => exact ih m
    | some q =>
      rw [List.foldl_cons, List.reduceOption_cons_of_some, greater_some]
      split
      · exact List.mem_cons_of_mem m (ih q)
      · exact (List.mem_cons.mp (ih m)).elim (fun he => List.mem_cons.mpr (.inl he))
          fun hr => List.mem_cons_of_mem m (List.mem_cons_of_mem q hr)

omit [DecidableEq α] in
/-- Whatever is compared, an entry is found. -/
theorem best_mem (less : α → α → Bool) {roots : List (Option α)}
    (hne : roots.reduceOption ≠ []) : ∃ r, best less roots = some r ∧ r ∈ roots.reduceOption := by
  induction roots with
  | nil => exact absurd rfl hne
  | cons o l ih =>
    cases o with
    | none => exact ih hne
    | some q => exact ⟨_, rfl, greater_mem less l q⟩

section

variable {lt : T → T → Bool} {value : α → T} [IsStrictWeakOrder T (lt · ·)]

omit [DecidableEq α] in
theorem greater_spec (l : List (Option α)) (m : α) :
    let r := l.foldl (greater fun a b => lt (value a) (value b)) m
    ∀ x ∈ m :: l.reduceOption, lt (value r) (value x) = false := by
  induction l generalizing m with
  | nil =>
    intro r x hx
    rw [List.mem_singleton.mp hx]
    exact lt_irrefl _
  | cons o l ih =>
    cases o with
    | none => exact ih m
    | some q =>
      rw [List.foldl_cons, List.reduceOption_cons_of_some, greater_some]
      split
      case isTrue hlt =>
        have hmax := ih q
        intro r x hx
        rcases List.mem_cons.mp hx with rfl | hx
        · refine not_lt_trans (hmax q List.mem_cons_self) ?_
          exact Bool.eq_false_iff.mpr (asymm_of (lt · ·) hlt)
        · exact hmax x hx
      case isFalse hlt =>
        have hmax := ih m
        intro r x hx
        rcases List.mem_cons.mp hx with rfl | hx
        · exact hmax _ List.mem_cons_self
        · rcases List.mem_cons.mp hx with rfl | hx
          · exact not_lt_trans (hmax m List.mem_cons_self) (Bool.eq_false_iff.mpr hlt)
          · exact hmax x (List.mem_cons_of_mem m hx)

omit [DecidableEq α] in
theorem best_spec (lt : T → T → Bool) (value : α → T)
    [IsStrictWeakOrder T (lt · ·)] {roots : List (Option α)} (hne : roots.reduceOption ≠ []) :
    ∃ r, best (fun a b => lt (value a) (value b)) roots = some r ∧ r ∈ roots.reduceOption ∧
      ∀ x ∈ roots.reduceOption, lt (value r) (value x) = false := by
  induction roots with
  | nil => exact absurd rfl hne
  | cons o l ih =>
    cases o with
    | none => exact ih hne
    | some q => exact ⟨_, rfl, greater_mem _ l q, greater_spec l q⟩

/-- Without loose trees no node is greater than the greatest entry. -/
theorem Ranked.best {v : Vectors α} {roots : List (Option α)} {nodes : List α}
    (h : Ranked (fun p c => lt (value p) (value c) = false) v roots [] nodes)
    (hne : nodes ≠ []) :
    ∃ r, best (fun a b => lt (value a) (value b)) roots = some r ∧
      (∃ i : Nat, roots[i]? = some (some r)) ∧ ∀ x ∈ nodes, lt (value r) (value x) = false := by
  have htops : roots.reduceOption ≠ [] := by
    intro hnil
    have hforest := h.wired.forest
    rw [hnil] at hforest
    exact hne hforest.nil_of_nil
  obtain ⟨r, hr, hmem, hmax⟩ := best_spec lt value htops
  refine ⟨r, hr, mem_table.mp hmem, fun x hx => ?_⟩
  obtain ⟨t, ht, hle⟩ := h.wired.forest.top_ge h.wired.above hx
  exact not_lt_trans (hmax t ht) hle

end

end RankForest
