import Mathlib.Data.List.Nodup

/-!
# Tables that are indexed by keys

A table is a list with holes that is made longer when an entry is put behind its
end. `Holds t es`: the entries of `t` are those of `es`, the list of what was put,
oldest first.

* `full_iff`: there are no holes if and only if all keys below the length are used.
* `dense_iff`: going through the table is going through the entries in the order in
  which they were put if and only if the keys are `0`, `1`, `2` and so on.
-/

namespace SlotTable

universe u

variable {α : Type u} {t : List (Option α)} {es : List (Nat × α)} {k : Nat} {x : α}

def lookup (t : List (Option α)) (k : Nat) : Option α := t[k]?.join

/-- The table has a place for `k`. -/
def reserve (t : List (Option α)) (k : Nat) : List (Option α) :=
  t ++ List.replicate (k + 1 - t.length) none

def put (t : List (Option α)) (k : Nat) (x : α) : List (Option α) := (reserve t k).set k (some x)

/-- The entries from the first one to the first hole, and whether there is no hole. -/
def visit : List (Option α) → List α × Bool
  | [] => ([], true)
  | none :: _ => ([], false)
  | some x :: t => (x :: (visit t).1, (visit t).2)

structure Holds (t : List (Option α)) (es : List (Nat × α)) : Prop where
  lookup : ∀ k x, lookup t k = some x ↔ (k, x) ∈ es
  keys : (es.map Prod.fst).Nodup

theorem lookup_eq_some : lookup t k = some x ↔ t[k]? = some (some x) := by
  rw [lookup, Option.join_eq_some_iff]

theorem lookup_reserve (t : List (Option α)) (k i : Nat) : lookup (reserve t k) i = lookup t i := by
  unfold lookup reserve
  rw [List.getElem?_append]
  split
  · rfl
  · rename_i h
    rw [List.getElem?_replicate, List.getElem?_eq_none (Nat.le_of_not_lt h)]
    split <;> rfl

theorem lookup_put (t : List (Option α)) (k i : Nat) (x : α) :
    lookup (put t k x) i = if i = k then some x else lookup t i := by
  have hlength : k < (reserve t k).length := by
    rw [reserve, List.length_append, List.length_replicate]
    omega
  rw [lookup, put, List.getElem?_set]
  split
  · rename_i h
    rw [if_pos h.symm]
    rfl
  · rename_i h
    rw [if_neg (Ne.symm h)]
    exact lookup_reserve t k i

theorem Holds.nil : Holds ([] : List (Option α)) [] :=
  ⟨fun k x => by simp [SlotTable.lookup], .nil⟩

theorem Holds.reserve (h : Holds t es) (k : Nat) : Holds (reserve t k) es :=
  ⟨fun i x => by rw [lookup_reserve]; exact h.lookup i x, h.keys⟩

/-- A key without an entry gets one. -/
theorem Holds.put (h : Holds t es) (hk : SlotTable.lookup t k = none) (x : α) :
    Holds (put t k x) (es ++ [(k, x)]) := by
  have hnew : k ∉ es.map Prod.fst := by
    intro hmem
    obtain ⟨⟨k', y⟩, he, rfl⟩ := List.mem_map.mp hmem
    have hy := (h.lookup k' y).mpr he
    rw [hk] at hy
    cases hy
  refine ⟨fun i y => ?_, ?_⟩
  · rw [lookup_put, List.mem_append, List.mem_singleton]
    split
    · rename_i he
      subst he
      constructor
      · rintro hxy
        cases hxy
        exact .inr rfl
      · rintro (hmem | he)
        · exact absurd (List.mem_map_of_mem (f := Prod.fst) hmem) hnew
        · cases he
          rfl
    · rename_i hne
      rw [h.lookup i y]
      refine ⟨.inl, fun hmem => hmem.resolve_right fun he => ?_⟩
      cases he
      exact hne rfl
  · rw [List.map_append]
    exact h.keys.append (List.nodup_singleton k) (List.disjoint_singleton.mpr hnew)

theorem visit_eq_iff {xs : List α} : visit t = (xs, true) ↔ t = xs.map some := by
  induction t generalizing xs with
  | nil => cases xs <;> simp [visit]
  | cons o t ih =>
    cases o with
    | none => cases xs <;> simp [visit]
    | some y =>
      cases xs with
      | nil => simp [visit]
      | cons x xs =>
        have hi := @ih xs
        rw [Prod.ext_iff] at hi ⊢
        simp only [visit, List.cons.injEq, List.map_cons, Option.some.injEq, and_assoc]
        exact and_congr_right fun _ => hi

/-- Different entries stand in the table in the order in which they were put exactly
if their keys count up. -/
theorem Holds.dense_iff (h : Holds t es) (hx : (es.map Prod.snd).Nodup) :
    t = (es.map Prod.snd).map some ↔ es.map Prod.fst = List.range t.length := by
  constructor
  · intro he
    have hlength : t.length = es.length := by rw [he]; simp
    refine List.ext_getElem (by simp [hlength]) fun i hi hi' => ?_
    have hlt : i < es.length := by simpa using hi
    have hentry : SlotTable.lookup t i = some es[i].2 := by
      rw [lookup_eq_some, he]
      simp [hlt]
    obtain ⟨j, hj, hej⟩ := List.getElem_of_mem ((h.lookup i es[i].2).mp hentry)
    -- the entry with the key `i` is the one at `i`
    have hij : j = i := by
      refine (List.getElem?_inj (by simpa using hj) hx).mp ?_
      simp [hj, hlt, hej]
    subst hij
    rw [List.getElem_map, List.getElem_range, hej]
  · intro he
    have hlength : es.length = t.length := by
      have := congrArg List.length he
      simpa using this
    refine List.ext_getElem (by simp [hlength]) fun i hi hi' => ?_
    have hlt : i < es.length := hlength ▸ hi
    have hkey : es[i].1 = i := by
      have hget := congrArg (fun ks => ks[i]?) he
      simpa [hlt, hi] using hget
    have hentry := (h.lookup es[i].1 es[i].2).mpr (List.getElem_mem hlt)
    rw [hkey, lookup_eq_some, List.getElem?_eq_getElem hi] at hentry
    rw [Option.some.inj hentry]
    simp

theorem visit_defined : (visit t).2 = true ↔ none ∉ t := by
  induction t with
  | nil => simp [visit]
  | cons o t ih => cases o <;> simp [visit, ih]

/-- There is no hole exactly if all keys below the length are used. -/
theorem Holds.full_iff (h : Holds t es) :
    (visit t).2 = true ↔ (es.map Prod.fst).Perm (List.range t.length) := by
  have hmem : ∀ i, i ∈ es.map Prod.fst ↔ ∃ x, t[i]? = some (some x) := by
    intro i
    rw [List.mem_map]
    constructor
    · rintro ⟨⟨i, x⟩, he, rfl⟩
      exact ⟨x, lookup_eq_some.mp ((h.lookup i x).mpr he)⟩
    · rintro ⟨x, hx⟩
      exact ⟨(i, x), (h.lookup i x).mp (lookup_eq_some.mpr hx), rfl⟩
  rw [visit_defined, List.perm_ext_iff_of_nodup h.keys List.nodup_range]
  constructor
  · intro hnone i
    rw [hmem, List.mem_range]
    constructor
    · rintro ⟨x, hx⟩
      exact (List.getElem?_eq_some_iff.mp hx).1
    · intro hi
      cases ho : t[i] with
      | none => exact absurd (ho ▸ List.getElem_mem hi) hnone
      | some x => exact ⟨x, List.getElem?_eq_some_iff.mpr ⟨hi, ho⟩⟩
  · intro hall hnone
    obtain ⟨i, hi, ho⟩ := List.getElem_of_mem hnone
    obtain ⟨x, hx⟩ := (hmem i).mp ((hall i).mpr (List.mem_range.mpr hi))
    rw [List.getElem?_eq_getElem hi, ho] at hx
    cases hx

theorem visit_sublist (t : List (Option α)) : (visit t).1.Sublist (t.filterMap id) := by
  induction t with
  | nil => exact .slnil
  | cons o t ih =>
    cases o with
    | none => exact List.nil_sublist _
    | some x => exact ih.cons_cons x

/-- The entries that stand in the table are those that were put. -/
theorem Holds.entries_perm (h : Holds t es) (hx : (es.map Prod.snd).Nodup) :
    (t.filterMap id).Perm (es.map Prod.snd) := by
  have hmem : ∀ i x, t[i]? = some (some x) ↔ (i, x) ∈ es := fun i x => by
    rw [← lookup_eq_some]
    exact h.lookup i x
  have hnodup : (t.filterMap id).Nodup := by
    refine List.pairwise_filterMap.mpr (List.pairwise_iff_getElem.mpr ?_)
    rintro i j hi hj hij x hix y hjy rfl
    obtain ⟨a, ha, hae⟩ := List.getElem_of_mem
      ((hmem i x).mp (List.getElem?_eq_some_iff.mpr ⟨hi, hix⟩))
    obtain ⟨b, hb, hbe⟩ := List.getElem_of_mem
      ((hmem j x).mp (List.getElem?_eq_some_iff.mpr ⟨hj, hjy⟩))
    -- one entry cannot stand at two places
    have hab : a = b := by
      refine (List.getElem?_inj (by simpa using ha) hx).mp ?_
      simp [ha, hb, hae, hbe]
    subst hab
    rw [hae, Prod.mk.injEq] at hbe
    exact Nat.ne_of_lt hij hbe.1
  refine (List.perm_ext_iff_of_nodup hnodup hx).mpr fun x => ?_
  rw [List.mem_filterMap, List.mem_map]
  constructor
  · rintro ⟨o, ho, rfl⟩
    obtain ⟨i, hi⟩ := List.mem_iff_getElem?.mp ho
    exact ⟨(i, x), (hmem i x).mp hi, rfl⟩
  · rintro ⟨⟨i, y⟩, he, rfl⟩
    exact ⟨some y, List.mem_iff_getElem?.mpr ⟨i, (hmem i y).mpr he⟩, rfl⟩

end SlotTable
