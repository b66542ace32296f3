import Kuhllib.Cxxrt.LocaleLookup

/-!
# The reference counts of locales and facets

Results:
1. `run_referenced`: the counts of representations are exact in every run.
2. `run_wrong`: once a representation exists, some facet has a wrong count.
3. `exact_iff`: in every run the counts are exact if and only if no representation exists yet.
4. `not_exact`: with a locale, the cache of another one is deleted.

The caches that `_CS_init` puts into an array are not counted, and the facets of an array that
grows are counted once more.
-/

namespace Kuhllib.Cxxrt

open Transition Locales LocaleLemmas

variable {κ : Type}

/-- How often a representation that exists holds a facet. -/
def Intern.holds (x : Intern) (f : Nat) : Nat := if x.deleted then 0 else x.m_array.count (some f)

/-- How often the arrays hold a facet. -/
def holders (w : Locales κ) (f : Nat) : Nat := (w.interns.map fun x => x.holds f).sum

/-- The objects and static variables that refer to a representation. The variable `rc` and the
classic locale are counted when the classic one is created, and the object of `classic()` once
more. -/
def references (w : Locales κ) (r : Nat) : Nat :=
  w.objects.count (some r) + (if w.global = some r then 1 else 0) +
    if w.classic_rep = some r then if w.classic_object then 3 else 2 else 0

/-- The counts say how often something is referred to, and it is deleted with the last
reference. -/
structure Exact (w : Locales κ) : Prop where
  interns : ∀ r < w.interns.length, (w.intern r).m_refcount = references w r
  facets : ∀ f x, w.facets[f]? = some x → w.ref_count f = x.refs + holders w f
  interns_deleted : ∀ r < w.interns.length, (w.intern r).deleted → references w r = 0
  facets_deleted : ∀ f x, w.facets[f]? = some x → w.deleted f → x.refs + holders w f = 0

/-- More is counted than there is. -/
def Surplus (w : Locales κ) (f : Nat) : Prop :=
  ∃ x, w.facets[f]? = some x ∧ (∀ c, x.body.kind ≠ .cache c) ∧ x.refs + holders w f < w.ref_count f

/-- Less is counted than there is. -/
def Deficit (w : Locales κ) (f : Nat) : Prop :=
  ∃ x, w.facets[f]? = some x ∧ w.ref_count f < x.refs + holders w f

/-- A facet other than a cache is counted at least as often as it is held. -/
def Counted (w : Locales κ) : Prop :=
  ∀ f x, w.facets[f]? = some x → (∀ c, x.body.kind ≠ .cache c) →
    x.refs + holders w f ≤ w.ref_count f

/-- Some count is wrong. -/
def Wrong (w : Locales κ) : Prop := ∃ f, Surplus w f ∨ Deficit w f

/-- The facets stay with their class and their first count. -/
def SameFacets (w w' : Locales κ) : Prop :=
  ∀ (f : Nat) (x : Facet κ), w.facets[f]? = some x →
    ∃ x' : Facet κ, w'.facets[f]? = some x' ∧ x'.refs = x.refs ∧ x'.body.kind = x.body.kind

/-- Each facet is counted more often than before by `d` beyond what holds it. -/
structure Shift (d : Nat → Nat) (w w' : Locales κ) : Prop where
  facets : SameFacets w w'
  balance : ∀ f < w.facets.length,
    w'.ref_count f + holders w f = w.ref_count f + holders w' f + d f

/-! ## Single changes -/

namespace LocaleLemmas

variable {w w' : Locales κ} {r f g : Nat}

/-- What a list holds after its entry `i` has been written. -/
theorem count_set_slot {a : List (Option Nat)} {i : Nat} (hi : i < a.length) (s : Option Nat)
    (g : Nat) : ((a.set i s).count (some g) : Int) + (if a[i]?.join = some g then 1 else 0) =
      a.count (some g) + if s = some g then 1 else 0 := by
  rw [List.count_set hi, List.getElem?_eq_getElem hi]
  have hmem : (if (a[i] == some g) = true then 1 else 0) ≤ a.count (some g) := by
    split
    next h => exact List.count_pos_iff.mpr (eq_of_beq h ▸ List.getElem_mem hi)
    next => exact Nat.zero_le _
  have hslot : (some a[i]).join = some g ↔ (a[i] == some g) = true := by
    rw [beq_iff_eq]
    rfl
  simp only [hslot, beq_iff_eq] at hmem ⊢
  rcases eq_or_ne a[i] (some g) with h | h
  · simp only [h, if_true] at hmem ⊢
    split <;> omega
  · simp only [h, if_false] at hmem ⊢
    split <;> omega

theorem count_set_some {a : List (Option Nat)} {i : Nat} (hi : i < a.length) (f g : Nat) :
    ((a.set i (some f)).count (some g) : Int) + (if a[i]?.join = some g then 1 else 0) =
      a.count (some g) + if g = f then 1 else 0 := by
  rw [count_set_slot hi]
  simp only [Option.some.injEq, eq_comm]

theorem sum_map_set (h : Intern → Nat) (l : List Intern) (hr : r < l.length) (x : Intern) :
    ((l.set r x).map h).sum + h l[r] = (l.map h).sum + h x := by
  induction l generalizing r with
  | nil => cases hr
  | cons y l ih =>
    cases r with
    | zero =>
      simp only [List.set_cons_zero, List.map_cons, List.sum_cons, List.getElem_cons_zero]
      omega
    | succ r =>
      have hrest := ih (Nat.lt_of_succ_lt_succ hr)
      simp only [List.set_cons_succ, List.map_cons, List.sum_cons, List.getElem_cons_succ]
      omega

theorem holders_with_intern (hr : r < w.interns.length) (x : Intern) (f : Nat) :
    holders (w.with_intern r x) f + (w.intern r).holds f = holders w f + x.holds f := by
  have hget : w.intern r = w.interns[r] := by
    unfold Locales.intern
    rw [List.getD_eq_getElem?_getD, List.getElem?_eq_getElem hr]
    rfl
  rw [hget]
  exact sum_map_set (fun x => x.holds f) w.interns hr x

theorem holders_congr (h : w'.interns = w.interns) (f : Nat) : holders w' f = holders w f := by
  unfold holders
  rw [h]

theorem ref_count_reference (g f : Nat) :
    (w.reference g).ref_count f = w.ref_count f + if f = g then 1 else 0 := by
  show Function.update w.ref_count g (w.ref_count g + 1) f = _
  rcases eq_or_ne f g with rfl | hne
  · rw [Function.update_self, if_pos rfl]
  · rw [Function.update_of_ne hne, if_neg hne, Int.add_zero]

theorem ref_count_release (g f : Nat) :
    (w.release g).ref_count f = w.ref_count f - if f = g then 1 else 0 := by
  show Function.update w.ref_count g (w.ref_count g - 1) f = _
  rcases eq_or_ne f g with rfl | hne
  · rw [Function.update_self, if_pos rfl]
  · rw [Function.update_of_ne hne, if_neg hne, Int.sub_zero]

theorem count_cons_some (g f : Nat) (a : List (Option Nat)) :
    ((some g :: a).count (some f) : Int) = a.count (some f) + if f = g then 1 else 0 := by
  rw [List.count_cons]
  rcases eq_or_ne f g with rfl | hne
  · simp
  · simp [hne, hne.symm]

theorem ref_count_reference_all (a : List (Option Nat)) (f : Nat) :
    (w.reference_all a).ref_count f = w.ref_count f + a.count (some f) := by
  induction a generalizing w with
  | nil => exact (Int.add_zero _).symm
  | cons s a ih =>
    cases s with
    | none => exact ih
    | some g =>
      refine (ih (w := w.reference g)).trans ?_
      rw [ref_count_reference, count_cons_some]
      omega

theorem ref_count_release_all (a : List (Option Nat)) (f : Nat) :
    (w.release_all a).ref_count f = w.ref_count f - a.count (some f) := by
  induction a generalizing w with
  | nil => exact (Int.sub_zero _).symm
  | cons s a ih =>
    cases s with
    | none => exact ih
    | some g =>
      refine (ih (w := w.release g)).trans ?_
      rw [ref_count_release, count_cons_some]
      omega

/-- The count is the one of the array of a representation that exists. -/
theorem holds_alive {x : Intern} (h : x.deleted = false) (f : Nat) :
    x.holds f = x.m_array.count (some f) := by
  rw [Intern.holds, h]
  rfl

theorem holds_put {x : Intern} (h : x.deleted = false) (a : List (Option Nat)) (f : Nat) :
    ({ x with m_array := a } : Intern).holds f = a.count (some f) := by
  rw [Intern.holds, h]
  rfl

theorem sameFacets_trans {w'' : Locales κ} (h : SameFacets w w') (h' : SameFacets w' w'') :
    SameFacets w w'' := by
  intro f x hx
  obtain ⟨x', hx', hrefs, hkind⟩ := h f x hx
  obtain ⟨x'', hx'', hrefs', hkind'⟩ := h' f x' hx'
  exact ⟨x'', hx'', hrefs'.trans hrefs, hkind'.trans hkind⟩

theorem sameFacets_of_eq (h : w'.facets = w.facets) : SameFacets w w' :=
  fun _ x hx => ⟨x, h ▸ hx, rfl, rfl⟩

theorem shift_new_facet (body : FacetBody κ) (refs : Nat) :
    Shift (fun _ => 0) w (w.new_facet body refs).1 := by
  refine ⟨fun f x hx => ⟨x, ?_, rfl, rfl⟩, fun f hf => ?_⟩
  · obtain ⟨hlt, -⟩ := List.getElem?_eq_some_iff.mp hx
    exact (List.getElem?_append_left hlt).trans hx
  · show Function.update w.ref_count w.facets.length (refs : Int) f + _ = w.ref_count f + _ + 0
    rw [Function.update_of_ne (Nat.ne_of_lt hf), Int.add_zero]
    rfl

theorem shift_copy_intern (ip : Nat) : Shift (fun _ => 0) w (w.copy_intern ip).1 := by
  refine ⟨sameFacets_of_eq reference_all_facets, fun f _ => ?_⟩
  have hcount : (w.copy_intern ip).1.ref_count f =
      w.ref_count f + (w.intern ip).m_array.count (some f) := ref_count_reference_all _ f
  have hholders : holders (w.copy_intern ip).1 f =
      holders w f + (w.intern ip).m_array.count (some f) := by
    have hinterns : (w.copy_intern ip).1.interns =
        w.interns ++ [⟨0, (w.intern ip).m_array, false⟩] := reference_all_interns
    unfold holders
    rw [hinterns, List.map_append, List.sum_append]
    rfl
  rw [hcount, hholders]
  push_cast
  omega

/-- A representation is written, and some counts have changed before. -/
theorem shift_put {d : Nat → Nat} {w₁ : Locales κ} {x : Intern} (hr : r < w.interns.length)
    (hinterns : w₁.interns = w.interns) (hfacets : SameFacets w w₁)
    (hcount : ∀ f < w.facets.length,
      w₁.ref_count f + (w.intern r).holds f = w.ref_count f + x.holds f + d f) :
    Shift d w (w₁.with_intern r x) := by
  refine ⟨hfacets, fun f hf => ?_⟩
  have hholders := holders_with_intern (w := w₁) (hinterns ▸ hr) x f
  rw [holders_congr hinterns, intern_congr hinterns] at hholders
  have hcount := hcount f hf
  show w₁.ref_count f + _ = _
  omega

theorem shift_with_intern {x : Intern} (hr : r < w.interns.length)
    (hx : x.m_array = (w.intern r).m_array) (hdeleted : x.deleted = (w.intern r).deleted) :
    Shift (fun _ => 0) w (w.with_intern r x) := by
  refine shift_put hr rfl (sameFacets_of_eq rfl) fun f _ => ?_
  rw [Intern.holds, Intern.holds, hx, hdeleted]
  exact (Int.add_zero _).symm

theorem shift_drop (hr : r < w.interns.length) (halive : (w.intern r).deleted = false) :
    Shift (fun _ => 0) w (w.drop r) := by
  unfold drop
  dsimp only
  split
  · refine shift_put hr release_all_interns (sameFacets_of_eq release_all_facets) fun f _ => ?_
    rw [ref_count_release_all, holds_alive halive, Int.sub_add_cancel]
    exact (Int.add_zero _).symm.trans (Int.add_zero _).symm
  · exact shift_with_intern hr rfl rfl

section

variable [DecidableEq κ] {ids : Ids κ} {k : Kind κ}

theorem sameFacets_init_facet : SameFacets w (w.init_facet ids r f).1 := by
  unfold init_facet
  split
  next c t refs hf =>
    split
    · exact sameFacets_of_eq rfl
    next widen p _ =>
      intro g x hx
      show ∃ x', (w.facets.set f _)[g]? = some x' ∧ _
      rw [List.getElem?_set]
      split
      next heq =>
        subst heq
        obtain ⟨hlt, -⟩ := List.getElem?_eq_some_iff.mp hf
        rw [if_pos hlt]
        cases hf.symm.trans hx
        exact ⟨_, rfl, rfl, rfl⟩
      next => exact ⟨x, hx, rfl, rfl⟩
  next => exact sameFacets_of_eq rfl

theorem ref_count_init_facet : (w.init_facet ids r f).1.ref_count = w.ref_count := by
  unfold init_facet
  split
  · split <;> rfl
  · rfl

/-- A facet that replaces another one. -/
theorem shift_add_within (hu : (w.add ids r k (some f)).undefined = false)
    (hlength : ids.identifier k < (w.intern r).m_array.length) :
    Shift (fun _ => 0) w (w.add ids r k (some f)) := by
  have hinterns : (w.init_facet ids r f).1.interns = w.interns := init_facet_interns
  have hfacets : SameFacets w (w.init_facet ids r f).1 := sameFacets_init_facet
  have hcount : (w.init_facet ids r f).1.ref_count = w.ref_count := ref_count_init_facet
  have hintern : ((w.init_facet ids r f).1.reference f).intern r = w.intern r :=
    intern_congr hinterns r
  cases hok : (w.init_facet ids r f).2 with
  | false =>
    rw [add_refused hok]
    exact ⟨sameFacets_of_eq rfl, fun g _ => (Int.add_zero _).symm⟩
  | true =>
    unfold add at hu ⊢
    dsimp only at hu ⊢
    rw [if_pos hok, hintern, if_neg (Nat.not_le.mpr hlength)] at hu ⊢
    have hreference (g : Nat) : ((w.init_facet ids r f).1.reference f).ref_count g =
        w.ref_count g + if g = f then 1 else 0 := by
      rw [ref_count_reference, hcount]
    generalize hs : (w.intern r).m_array[ids.identifier k]?.join = s at hu ⊢
    have hput := count_set_some (a := (w.intern r).m_array) hlength f
    rw [hs] at hput
    cases s with
    | none =>
      have halive : (w.intern r).deleted = false :=
        (congrArg Intern.deleted (intern_congr hinterns r)).symm.trans (alive_of_with_intern hu :)
      refine shift_put (lt_of_alive halive) hinterns hfacets fun g _ => ?_
      have hput := hput g
      rw [hreference, holds_alive halive, holds_put halive]
      simp only [reduceCtorEq, if_false] at hput
      omega
    | some g₀ =>
      have halive : (w.intern r).deleted = false :=
        (congrArg Intern.deleted (intern_congr hinterns r)).symm.trans (alive_of_with_intern hu :)
      refine shift_put (lt_of_alive halive) hinterns hfacets fun g _ => ?_
      have hput := hput g
      rw [ref_count_release, hreference, holds_alive halive, holds_put halive]
      simp only [Option.some.injEq, eq_comm] at hput ⊢
      omega

/-- If the array grows, its facets are counted once more. -/
theorem shift_add_beyond (hu : (w.add ids r k (some f)).undefined = false)
    (hok : (w.init_facet ids r f).2 = true)
    (hlength : (w.intern r).m_array.length ≤ ids.identifier k) :
    Shift (fun g => (w.intern r).m_array.count (some g)) w (w.add ids r k (some f)) := by
  have hinterns : (w.init_facet ids r f).1.interns = w.interns := init_facet_interns
  have hfacets : SameFacets w (w.init_facet ids r f).1 := sameFacets_init_facet
  have hcount : (w.init_facet ids r f).1.ref_count = w.ref_count := ref_count_init_facet
  have hintern : ((w.init_facet ids r f).1.reference f).intern r = w.intern r :=
    intern_congr hinterns r
  unfold add at hu ⊢
  dsimp only at hu ⊢
  rw [if_pos hok, hintern, if_pos hlength] at hu ⊢
  have hsame : (((w.init_facet ids r f).1.reference f).reference_all
      (w.intern r).m_array).interns = w.interns := reference_all_interns.trans hinterns
  have halive : (w.intern r).deleted = false := intern_congr hsame r ▸ alive_of_with_intern hu
  refine shift_put (lt_of_alive halive) hsame (fun g x hx => ?_) fun g _ => ?_
  · obtain ⟨x', hx', hkeep⟩ := hfacets g x hx
    refine ⟨x', ?_, hkeep⟩
    rw [reference_all_facets]
    exact hx'
  · rw [ref_count_reference_all, ref_count_reference, hcount, holds_alive halive,
      holds_put halive, List.count_append, List.count_append]
    have hnone : (List.replicate (ids.identifier k - (w.intern r).m_array.length)
        (none : Option Nat)).count (some g) = 0 :=
      List.count_eq_zero.mpr fun h => Option.some_ne_none g (List.eq_of_mem_replicate h)
    have hlast := count_cons_some f g []
    rw [hnone]
    simp only [List.count_nil] at hlast
    push_cast
    omega

theorem alive_install_cache {c : CharT} (hu : (w.install_cache ids r c).undefined = false) :
    (w.intern r).deleted = false := by
  rw [install_cache_eq] at hu
  have hu₁ : (empty_cache w ids r c).undefined = false := frame_init_facet.undefined hu
  unfold empty_cache at hu₁
  exact (alive_of_with_intern hu₁ :)

/-- The cache that is replaced is not released. -/
theorem shift_install_cache {c : CharT} (hu : (w.install_cache ids r c).undefined = false) :
    Shift (fun g => if (w.intern r).m_array[ids.identifier (.cache c)]?.join = some g then 1 else 0)
      w (w.install_cache ids r c) := by
  obtain ⟨hr, hlength, -⟩ := intern_install_cache r hu
  have halive := alive_install_cache hu
  rw [install_cache_eq]
  have hput : Shift (fun g => if (w.intern r).m_array[ids.identifier (.cache c)]?.join = some g
      then 1 else 0) w (empty_cache w ids r c) := by
    refine shift_put hr rfl (shift_new_facet _ _).facets fun g hg => ?_
    have hcount := count_set_some hlength w.facets.length g
    rw [if_neg (Nat.ne_of_lt hg)] at hcount
    rw [holds_alive halive, holds_put halive]
    show Function.update w.ref_count w.facets.length _ g + _ = _
    rw [Function.update_of_ne (Nat.ne_of_lt hg)]
    push_cast
    omega
  refine ⟨sameFacets_trans hput.facets sameFacets_init_facet, fun g hg => ?_⟩
  rw [ref_count_init_facet, holders_congr init_facet_interns]
  exact hput.balance g hg

end

/-! What the counts keep -/

/-- No new facet has been created, or it is counted. -/
theorem counted_of_shift {d : Nat → Nat} (h : Counted w) (hshift : Shift d w w')
    (hnew : ∀ f x, w.facets.length ≤ f → w'.facets[f]? = some x →
      (∀ c, x.body.kind ≠ .cache c) → x.refs + holders w' f ≤ w'.ref_count f) : Counted w' := by
  intro f x' hx' hcache
  rcases Nat.lt_or_ge f w.facets.length with hlt | hge
  · have hx := List.getElem?_eq_getElem hlt
    obtain ⟨x'', hx'', hrefs, hkind⟩ := hshift.facets f _ hx
    cases hx'.symm.trans hx''
    have hcounted := h f _ hx fun c hc => hcache c (hkind.trans hc)
    have hbalance := hshift.balance f hlt
    omega
  · exact hnew f x' hge hx' hcache

theorem counted_of_length {d : Nat → Nat} (h : Counted w) (hshift : Shift d w w')
    (hlength : w'.facets.length = w.facets.length) : Counted w' :=
  counted_of_shift h hshift fun _ _ hf hx _ =>
    absurd (List.getElem?_eq_some_iff.mp hx).1 (Nat.not_lt.mpr (hlength ▸ hf))

theorem surplus_of_shift {d : Nat → Nat} (h : Surplus w f) (hshift : Shift d w w') :
    Surplus w' f := by
  obtain ⟨x, hx, hcache, hmore⟩ := h
  obtain ⟨x', hx', hrefs, hkind⟩ := hshift.facets f x hx
  have hbalance := hshift.balance f (List.getElem?_eq_some_iff.mp hx).1
  refine ⟨x', hx', fun c hc => hcache c (hkind.symm.trans hc), ?_⟩
  omega

theorem wrong_of_shift (h : Wrong w) (hshift : Shift (fun _ => 0) w w') : Wrong w' := by
  obtain ⟨f, hf | hf⟩ := h
  · exact ⟨f, .inl (surplus_of_shift hf hshift)⟩
  · obtain ⟨x, hx, hless⟩ := hf
    obtain ⟨x', hx', hrefs, -⟩ := hshift.facets f x hx
    have hbalance := hshift.balance f (List.getElem?_eq_some_iff.mp hx).1
    refine ⟨f, .inr ⟨x', hx', ?_⟩⟩
    simp only [Nat.cast_zero, Int.add_zero] at hbalance
    omega

theorem mem_interns (hr : r < w.interns.length) : w.intern r ∈ w.interns := by
  unfold Locales.intern
  rw [List.getD_eq_getElem?_getD, List.getElem?_eq_getElem hr]
  exact List.getElem_mem hr

theorem holds_of_holders (hr : r < w.interns.length) (hf : holders w f = 0) :
    (w.intern r).holds f = 0 :=
  List.sum_eq_zero_iff_forall_eq_nat.mp hf _ (List.mem_map_of_mem (mem_interns hr))

theorem holders_eq_zero (h : ∀ r, some f ∉ (w.intern r).m_array) : holders w f = 0 := by
  refine List.sum_eq_zero_iff_forall_eq_nat.mpr fun n hn => ?_
  obtain ⟨x, hx, rfl⟩ := List.mem_map.mp hn
  obtain ⟨r, hr⟩ := List.getElem?_of_mem hx
  have hintern : w.intern r = x := by
    unfold Locales.intern
    rw [List.getD_eq_getElem?_getD, hr]
    rfl
  unfold Intern.holds
  split
  · rfl
  · exact List.count_eq_zero.mpr fun hmem => h r (hintern ▸ hmem)

/-- The new facet is not held. -/
theorem counted_new_facet (h : Counted w) (body : FacetBody κ) (refs : Nat)
    (hnew : holders w w.facets.length = 0) : Counted (w.new_facet body refs).1 := by
  refine counted_of_shift h (shift_new_facet body refs) fun f x hf hx _ => ?_
  have hx : (w.facets ++ [⟨body, refs⟩])[f]? = some x := hx
  have hlt := (List.getElem?_eq_some_iff.mp hx).1
  rw [List.length_append] at hlt
  obtain rfl : f = w.facets.length := Nat.le_antisymm (Nat.le_of_lt_succ hlt) hf
  rw [List.getElem?_concat_length] at hx
  cases hx
  show ((refs + holders w w.facets.length : Nat) : Int) ≤ _
  rw [hnew]
  show _ ≤ Function.update w.ref_count w.facets.length (refs : Int) w.facets.length
  rw [Function.update_self]
  exact Int.le_refl _

theorem counted_new_intern (hw : Fresh w) : Counted w.new_intern.1 := by
  intro f x hx _
  have hnone : some f ∉ List.replicate 20 (none : Option Nat) :=
    fun h => Option.some_ne_none f (List.eq_of_mem_replicate h)
  have hinterns : w.new_intern.1.interns = [⟨0, List.replicate 20 none, false⟩] :=
    congrArg (fun l => l ++ [(⟨0, List.replicate 20 none, false⟩ : Intern)]) hw.interns
  have hholders : holders w.new_intern.1 f = 0 := by
    unfold holders
    rw [hinterns]
    exact (Nat.add_zero _).trans (List.count_eq_zero.mpr hnone)
  have hcount : w.new_intern.1.ref_count f = x.refs := hw.ref_count f x hx
  rw [hholders, hcount]
  exact Int.le_refl _

theorem counted_with_intern {x : Intern} (h : Counted w)
    (hu : (w.with_intern r x).undefined = false) (hx : x.m_array = (w.intern r).m_array)
    (hdeleted : x.deleted = (w.intern r).deleted) : Counted (w.with_intern r x) :=
  counted_of_length h (shift_with_intern (lt_of_alive (alive_of_with_intern hu)) hx hdeleted) rfl

theorem alive_of_drop (hu : (w.drop r).undefined = false) : (w.intern r).deleted = false := by
  unfold drop at hu
  dsimp only at hu
  split at hu
  · have halive := alive_of_with_intern hu
    rw [intern_congr release_all_interns] at halive
    exact halive
  · exact alive_of_with_intern hu

section

variable [DecidableEq κ] {ids : Ids κ} {k : Kind κ}

theorem shift_add (hu : (w.add ids r k (some f)).undefined = false) :
    ∃ d, Shift d w (w.add ids r k (some f)) := by
  cases hok : (w.init_facet ids r f).2 with
  | false =>
    rw [add_refused hok]
    exact ⟨fun _ => 0, sameFacets_of_eq rfl, fun g _ => (Int.add_zero _).symm⟩
  | true =>
    rcases Nat.lt_or_ge (ids.identifier k) (w.intern r).m_array.length with hlt | hge
    · exact ⟨_, shift_add_within hu hlt⟩
    · exact ⟨_, shift_add_beyond hu hok hge⟩

theorem counted_add (h : Counted w) (hu : (w.add ids r k (some f)).undefined = false) :
    Counted (w.add ids r k (some f)) := by
  obtain ⟨d, hshift⟩ := shift_add hu
  exact counted_of_length h hshift facets_length_add

/-- A `numpunct` that is counted once more has a wrong count. -/
theorem wrong_add (hw : Complete ids IsClassic w) (h : Counted w) (hwrong : Wrong w)
    (hu : (w.add ids r k (some f)).undefined = false) : Wrong (w.add ids r k (some f)) := by
  cases hok : (w.init_facet ids r f).2 with
  | false =>
    rw [add_refused hok]
    exact hwrong
  | true =>
    rcases Nat.lt_or_ge (ids.identifier k) (w.intern r).m_array.length with hlt | hge
    · exact wrong_of_shift hwrong (shift_add_within hu hlt)
    · obtain ⟨p, hp⟩ := Option.ne_none_iff_exists'.mp
        (hw.full r (alive_of_add hok hu) _ (isClassic_numpunct .char))
      have hcount := List.count_pos_iff.mpr (mem_of_find hp)
      have hlt := hw.exists_of_mem (mem_of_find hp)
      have hx := List.getElem?_eq_getElem hlt
      have hkind : (w.facets[p]).body.kind = .numpunct .char := by
        have hkind := hw.kinded hp
        rw [kind_of, hx] at hkind
        exact Option.some.inj hkind
      have hcache (c : CharT) : (w.facets[p]).body.kind ≠ .cache c := by
        rw [hkind]
        exact fun hc => by cases hc
      have hshift := shift_add_beyond hu hok hge
      obtain ⟨x, hx', hrefs, hkind'⟩ := hshift.facets p _ hx
      have hbalance := hshift.balance p hlt
      have hcounted := h p _ hx hcache
      exact ⟨p, .inl ⟨x, hx', fun c hc => hcache c (hkind'.symm.trans hc), by omega⟩⟩

/-- The new cache is not counted. -/
theorem new_cache (ids : Ids κ) (w : Locales κ) (r : Nat) (c : CharT) :
    ∃ x, (w.install_cache ids r c).facets[w.facets.length]? = some x ∧
    x.refs = 0 ∧ x.body.kind = .cache c := by
  have hnew : (empty_cache w ids r c).facets[w.facets.length]? = some ⟨.cache c none, 0⟩ :=
    List.getElem?_concat_length
  exact sameFacets_init_facet _ _ hnew

theorem ref_count_new_cache {c : CharT} :
    (w.install_cache ids r c).ref_count w.facets.length = 0 := by
  rw [install_cache_eq, ref_count_init_facet]
  exact Function.update_self ..

/-- The new cache is held. -/
theorem wrong_install_cache {c : CharT} (hu : (w.install_cache ids r c).undefined = false) :
    Wrong (w.install_cache ids r c) := by
  obtain ⟨x, hx, hrefs, -⟩ := new_cache ids w r c
  refine ⟨w.facets.length, .inr ⟨x, hx, ?_⟩⟩
  rw [ref_count_new_cache, hrefs]
  obtain ⟨hr, hlength, hintern⟩ := intern_install_cache r hu
  rw [if_pos rfl] at hintern
  have hheld : holders (w.install_cache ids r c) w.facets.length ≠ 0 := by
    intro h
    have hr' : r < (w.install_cache ids r c).interns.length := by
      rw [length_install_cache]
      exact hr
    have hnone := holds_of_holders hr' h
    rw [hintern, holds_put (alive_install_cache hu)] at hnone
    exact List.count_eq_zero.mp hnone (List.mem_set hlength _)
  omega

theorem counted_install_cache {c : CharT} (h : Counted w)
    (hu : (w.install_cache ids r c).undefined = false) : Counted (w.install_cache ids r c) := by
  refine counted_of_shift h (shift_install_cache hu) fun g x hg hx hcache => ?_
  have hlt := (List.getElem?_eq_some_iff.mp hx).1
  rw [facets_length_install_cache] at hlt
  obtain rfl : g = w.facets.length := Nat.le_antisymm (Nat.le_of_lt_succ hlt) hg
  obtain ⟨x', hx', -, hkind⟩ := new_cache ids w r c
  cases hx.symm.trans hx'
  exact absurd hkind (hcache c)

theorem counted_prim {K : Kind κ → Prop} (hw : Complete ids K w) (h : Counted w)
    (hp : Prim ids w w') (hu : w'.undefined = false) : Counted w' := by
  cases hp with
  | change hc =>
    cases hc with
    | new_facet body refs =>
      exact counted_new_facet h body refs
        (holders_eq_zero fun r hr => Nat.lt_irrefl _ (hw.exists_of_mem hr))
    | copy_intern ip =>
      exact counted_of_length h (shift_copy_intern ip) (congrArg List.length (facets_copy_intern ip))
    | add => exact counted_add h hu
    | add_found => exact counted_add h hu
    | install_cache => exact counted_install_cache h hu
  | retain r => exact counted_with_intern h hu rfl rfl
  | lower r => exact counted_with_intern h hu rfl rfl
  | drop r =>
    have halive := alive_of_drop hu
    exact counted_of_length h (shift_drop (lt_of_alive halive) halive)
      (congrArg List.length facets_drop)
  | object r =>
    have hretain : Counted (w.retain r) := counted_with_intern h hu rfl rfl
    exact hretain
  | set_object l s hs => exact h
  | static g r b => exact h

theorem wrong_prim (hw : Complete ids IsClassic w) (h : Counted w) (hwrong : Wrong w)
    (hp : Prim ids w w') (hu : w'.undefined = false) : Wrong w' := by
  have hintern {r : Nat} {x : Intern} (hu : (w.with_intern r x).undefined = false)
      (hx : x.m_array = (w.intern r).m_array) (hdeleted : x.deleted = (w.intern r).deleted) :
      Wrong (w.with_intern r x) :=
    wrong_of_shift hwrong (shift_with_intern (lt_of_alive (alive_of_with_intern hu)) hx hdeleted)
  cases hp with
  | change hc =>
    cases hc with
    | new_facet body refs => exact wrong_of_shift hwrong (shift_new_facet body refs)
    | copy_intern ip => exact wrong_of_shift hwrong (shift_copy_intern ip)
    | add => exact wrong_add hw h hwrong hu
    | add_found => exact wrong_add hw h hwrong hu
    | install_cache => exact wrong_install_cache hu
  | retain r => exact hintern hu rfl rfl
  | lower r => exact hintern hu rfl rfl
  | drop r =>
    have halive := alive_of_drop hu
    exact wrong_of_shift hwrong (shift_drop (lt_of_alive halive) halive)
  | object r =>
    have hretain : Wrong (w.retain r) := hintern hu rfl rfl
    exact hretain
  | set_object l s hs => exact hwrong
  | static g r b => exact hwrong

/-- The caches of the classic representation are not counted. -/
theorem counted_classic (hw : Fresh w) (hu : (w.get_classic_rep ids).1.undefined = false) :
    Counted (w.get_classic_rep ids).1 ∧ Wrong (w.get_classic_rep ids).1 := by
  rw [get_classic_rep_fresh hw] at hu ⊢
  have hframe (w₁ : Locales κ) (h : Counted w₁ ∧ Wrong w₁) :
      Counted { w₁ with classic_rep := some 0 } ∧ Wrong { w₁ with classic_rep := some 0 } :=
    h
  dsimp only at hu
  let w₀ := (w.new_intern.1.retain 0).retain 0
  have hprims : Prims ids w.new_intern.1 ((add_new ids 0 w₀ classic_facets).init_intern ids 0) :=
    (((Prims.single (.retain _ 0)).trans (.single (.retain _ 0))).trans
      (prims_add_new 0 classic_facets)).trans (prims_init_intern 0)
  have hcounted := hprims.invariant hu
    (P := fun w => Complete ids (fun _ => False) w ∧ Counted w)
    (fun _ _ hp hu h => ⟨complete_prim h.1 hp hu, counted_prim h.1 h.2 hp hu⟩)
    ⟨complete_new_intern hw, counted_new_intern hw⟩
  exact hframe _ ⟨hcounted.2, wrong_install_cache hu⟩

end

end LocaleLemmas

/-! ## The counts of representations -/

/-- The counts of the representations are those of their references and `d`. -/
def Referenced (d : Nat → Int) (w : Locales κ) : Prop :=
  ∀ r, (w.intern r).m_refcount = references w r + d r

/-- One additional reference. -/
def once (r s : Nat) : Int := if s = r then 1 else 0

namespace LocaleLemmas

variable {w w' : Locales κ} {r f : Nat} {d : Nat → Int}

theorem references_frame (h : Frame w w') (r : Nat) : references w' r = references w r := by
  unfold references
  rw [h.objects, h.global, h.classic_rep, h.classic_object]

theorem refcount_with_intern {x : Intern} {m : Int}
    (hu : (w.with_intern r x).undefined = false)
    (hx : x.m_refcount = (w.intern r).m_refcount + m) (s : Nat) :
    ((w.with_intern r x).intern s).m_refcount =
      (w.intern s).m_refcount + if s = r then m else 0 := by
  rw [intern_with_intern x (lt_of_alive (alive_of_with_intern hu))]
  split
  next hs => rw [hs, hx]
  next => exact (Int.add_zero _).symm

theorem refcount_drop (hu : (w.drop r).undefined = false) (s : Nat) :
    ((w.drop r).intern s).m_refcount = (w.intern s).m_refcount + if s = r then -1 else 0 := by
  unfold drop at hu ⊢
  dsimp only at hu ⊢
  split at hu
  next h1 =>
    have hsame (i : Nat) : (w.release_all (w.intern r).m_array).intern i = w.intern i :=
      intern_congr release_all_interns i
    rw [if_pos h1, refcount_with_intern (m := -1) hu _ s, hsame]
    rw [hsame]
    exact h1.symm
  next h1 =>
    rw [if_neg h1]
    exact refcount_with_intern hu rfl s

theorem referenced_retain (h : Referenced d w) (hu : (w.retain r).undefined = false) :
    Referenced (fun s => d s + once r s) (w.retain r) := by
  intro s
  have hcount : ((w.retain r).intern s).m_refcount = (w.intern s).m_refcount + once r s :=
    refcount_with_intern hu rfl s
  have hsame : references (w.retain r) s = references w s := rfl
  have hs := h s
  dsimp only
  omega

theorem referenced_drop (h : Referenced d w) (hu : (w.drop r).undefined = false) :
    Referenced (fun s => d s - once r s) (w.drop r) := by
  intro s
  have hcount := refcount_drop hu s
  have hsame := references_frame (frame_drop (w := w) r) s
  have hs := h s
  dsimp only [once]
  split at hcount <;> omega

/-- A new object is counted. -/
theorem referenced_object (h : Referenced d w) (hu : (w.retain r).undefined = false) :
    Referenced d (object (w, r)) := by
  intro s
  have hobjects : references (object (w, r)) s = references w s + [some r].count (some s) := by
    unfold references
    show (w.objects ++ [some r]).count (some s) + (if w.global = some s then 1 else 0) +
      (if w.classic_rep = some s then if w.classic_object then 3 else 2 else 0) = _
    rw [List.count_append]
    omega
  have hone := count_cons_some r s []
  have hretain := referenced_retain h hu s
  have hsame : references (w.retain r) s = references w s := rfl
  show ((w.retain r).intern s).m_refcount = _
  rw [List.count_nil] at hone
  dsimp only [once] at hretain
  omega

theorem referenced_of_refcount (h : Referenced d w) (hframe : Frame w w')
    (hcount : ∀ r, (w'.intern r).m_refcount = (w.intern r).m_refcount) : Referenced d w' := by
  intro r
  rw [hcount, references_frame hframe]
  exact h r

theorem referenced_congr {d' : Nat → Int} (h : Referenced d w) (hd : ∀ s, d s = d' s) :
    Referenced d' w := fun s => hd s ▸ h s

theorem referenced_fresh (hw : Fresh w) : Referenced (fun _ => 0) w := by
  intro r
  have hintern : w.intern r = ⟨0, [], true⟩ := by
    unfold Locales.intern
    rw [hw.interns]
    rfl
  have hreferences : references w r = 0 := by
    unfold references
    rw [hw.objects, hw.global, hw.classic_rep]
    rfl
  rw [hintern, hreferences]
  rfl

theorem referenced_classic_object (h : Referenced (once r) w) (hr : w.classic_rep = some r)
    (hobject : w.classic_object = false) :
    Referenced (fun _ => 0) { w with classic_object := true } := by
  intro s
  have hs := h s
  unfold references at hs ⊢
  dsimp only [once] at hs ⊢
  show (w.intern s).m_refcount = _
  rw [hr, hobject] at hs
  rw [hr, hs]
  simp only [Option.some.injEq, Bool.false_eq_true, if_true, if_false, eq_comm]
  split <;> push_cast <;> omega

theorem referenced_global (h : Referenced (once r) w) (hglobal : w.global = none) :
    Referenced (fun _ => 0) { w with global := some r } := by
  intro s
  have hs := h s
  unfold references at hs ⊢
  dsimp only [once] at hs ⊢
  show (w.intern s).m_refcount = _
  rw [hglobal] at hs
  rw [hs]
  simp only [reduceCtorEq, Option.some.injEq, if_false, eq_comm]
  split <;> push_cast <;> omega

theorem rep_eq_some {l r : Nat} (h : w.rep l = some r) : w.objects[l]? = some (some r) :=
  Option.join_eq_some_iff.mp h

/-- An object refers to something else. -/
theorem referenced_set {l old : Nat} {s : Option Nat} (hl : w.objects[l]? = some (some old))
    (h : Referenced (fun x => d x + (if s = some x then 1 else 0) - once old x) w) :
    Referenced d { w with objects := w.objects.set l s } := by
  intro x
  have hx := h x
  have hlt := (List.getElem?_eq_some_iff.mp hl).1
  have hset := count_set_slot hlt s x
  rw [hl] at hset
  unfold references at hx ⊢
  dsimp only [once] at hx ⊢
  show (w.intern x).m_refcount = _
  rw [hx]
  have hold : (some (some old) : Option (Option Nat)).join = some x ↔ x = old := by
    rw [eq_comm]
    exact Option.some_inj
  simp only [hold] at hset
  push_cast at hset ⊢
  omega

/-- The static variable refers to something else. -/
theorem referenced_set_global {old : Nat} (hglobal : w.global = some old)
    (h : Referenced (fun s => 0 + once r s) w)
    (hu : (w.with_intern old
      { w.intern old with m_refcount := (w.intern old).m_refcount - 1 }).undefined = false) :
    Referenced (fun _ => 0) { w.with_intern old
      { w.intern old with m_refcount := (w.intern old).m_refcount - 1 } with global := some r } := by
  intro s
  have hs := h s
  have hcount := refcount_with_intern (m := -1) hu rfl s
  unfold references at hs ⊢
  dsimp only [once] at hs ⊢
  show ((w.with_intern old _).intern s).m_refcount = ((w.objects.count (some s) +
    (if some r = some s then 1 else 0) +
    (if w.classic_rep = some s then if w.classic_object then 3 else 2 else 0) : Nat) : Int) + 0
  rw [hcount, hs, hglobal]
  simp only [Option.some.injEq, eq_comm]
  push_cast
  split <;> split <;> omega

/-- A new representation has no reference. -/
theorem refcount_append {a : List (Option Nat)} {b : Bool}
    (hinterns : w'.interns = w.interns ++ [⟨0, a, b⟩]) (s : Nat) :
    (w'.intern s).m_refcount = (w.intern s).m_refcount := by
  unfold Locales.intern
  rw [hinterns, List.getD_eq_getElem?_getD, List.getD_eq_getElem?_getD]
  rcases Nat.lt_trichotomy s w.interns.length with hlt | rfl | hgt
  · rw [List.getElem?_append_left hlt]
  · rw [List.getElem?_concat_length, List.getElem?_eq_none (Nat.le_refl _)]
    rfl
  · rw [List.getElem?_eq_none (Nat.le_of_lt hgt), List.getElem?_eq_none]
    rw [List.length_append]
    exact hgt

theorem referenced_new_intern (h : Referenced d w) : Referenced d w.new_intern.1 :=
  referenced_of_refcount h ⟨rfl, rfl, rfl, rfl, id⟩ (refcount_append rfl)

section

variable [DecidableEq κ] {ids : Ids κ} {k : Kind κ} {n : Nat} {K : Kind κ → Prop}

theorem refcount_add (s : Nat) :
    ((w.add ids r k (some f)).intern s).m_refcount = (w.intern s).m_refcount := by
  have hinterns : (w.init_facet ids r f).1.interns = w.interns := init_facet_interns
  have hkeep {w₁ : Locales κ} {a : List (Option Nat)} (h : w₁.interns = w.interns) :
      ((w₁.with_intern r { w.intern r with m_array := a }).intern s).m_refcount =
        (w.intern s).m_refcount := by
    refine (same_with_intern Intern.m_refcount ?_).trans
      (congrArg Intern.m_refcount (intern_congr h s))
    show (w.intern r).m_refcount = _
    rw [intern_congr h]
  have hintern : ((w.init_facet ids r f).1.reference f).intern r = w.intern r :=
    intern_congr hinterns r
  unfold add
  dsimp only
  split
  · rw [hintern]
    split
    · exact hkeep (reference_all_interns.trans hinterns)
    · refine hkeep ?_
      split
      · exact hinterns
      · exact hinterns
  · exact congrArg Intern.m_refcount (intern_congr hinterns s)

theorem refcount_change (h : Change ids n K w w') (s : Nat) :
    (w'.intern s).m_refcount = (w.intern s).m_refcount := by
  cases h with
  | new_facet => rfl
  | copy_intern ip => exact refcount_append reference_all_interns s
  | add => exact refcount_add s
  | add_found => exact refcount_add s
  | @install_cache r c =>
    rw [install_cache_eq, intern_congr init_facet_interns]
    exact same_with_intern (w := (w.new_facet _ 0).1.fail_if _) (r := r) Intern.m_refcount rfl

theorem referenced_changes (h : Referenced d w) (hc : Changes ids n K w w') :
    Referenced d w' := by
  induction hc with
  | refl => exact h
  | tail _ hs ih => exact referenced_of_refcount ih hs.frame (refcount_change hs)

end

section

variable [DecidableEq κ] {ids : Ids κ}

/-- The two references of the classic representation. -/
theorem referenced_get_classic_rep (hw : Fresh w ∨ w.classic_rep ≠ none)
    (h : Referenced (fun _ => 0) w) (hu : (w.get_classic_rep ids).1.undefined = false) :
    Referenced (fun _ => 0) (w.get_classic_rep ids).1 := by
  rcases hw with hw | hw
  · rw [get_classic_rep_fresh hw] at hu ⊢
    have hframe (w₁ : Locales κ) (hc : w₁.classic_rep = none) (ho : w₁.classic_object = false)
        (h : Referenced (fun s => 0 + once 0 s + once 0 s) w₁) :
        Referenced (fun _ => 0) { w₁ with classic_rep := some 0 } := by
      intro s
      have hs := h s
      have hold : references w₁ s =
          w₁.objects.count (some s) + (if w₁.global = some s then 1 else 0) := by
        unfold references
        rw [hc]
        rfl
      have hnew : references { w₁ with classic_rep := some 0 } s =
          w₁.objects.count (some s) + (if w₁.global = some s then 1 else 0) +
            if s = 0 then 2 else 0 := by
        unfold references
        dsimp only
        rw [ho]
        simp only [Option.some.injEq, Bool.false_eq_true, if_false, eq_comm]
      dsimp only [once] at hs
      show (w₁.intern s).m_refcount = _
      rw [hs, hold, hnew]
      dsimp only
      rcases eq_or_ne s 0 with rfl | hne
      · rw [if_pos rfl, if_pos rfl]
        omega
      · rw [if_neg hne, if_neg hne]
        omega
    dsimp only at hu
    let w₀ := (w.new_intern.1.retain 0).retain 0
    have hinit : Changes ids 0 (fun _ => True) w₀
        ((add_new ids 0 w₀ classic_facets).init_intern ids 0) :=
      (changes_add_new (Nat.zero_le 0) fun _ _ => trivial).trans (changes_init_intern (Nat.zero_le 0))
    have hu₀ : w₀.undefined = false := hinit.frame.undefined hu
    have hu₁ : (w.new_intern.1.retain 0).undefined = false :=
      (frame_with_intern 0 _).undefined hu₀
    have hnew := referenced_retain (referenced_retain (referenced_new_intern h) hu₁) hu₀
    have hclassic := hinit.frame.classic_rep.trans hw.classic_rep
    have hobject := hinit.frame.classic_object.trans hw.classic_object
    exact hframe _ hclassic hobject (referenced_changes hnew hinit)
  · obtain ⟨r, hr⟩ := Option.ne_none_iff_exists'.mp hw
    rw [get_classic_rep_some hr]
    have hinit : Changes ids 0 (fun _ => True) w (w.init_intern ids r) :=
      changes_init_intern (Nat.zero_le r)
    have hsame : (w.init_intern ids r).classic_rep = some r := hinit.frame.classic_rep.trans hr
    rw [← hsame]
    exact referenced_changes h hinit

/-- The creation of the classic representation leaves the static variables as they are. -/
theorem static_get_classic_rep (hw : Fresh w ∨ w.classic_rep ≠ none) :
    (w.get_classic_rep ids).1.classic_object = w.classic_object ∧
      (w.get_classic_rep ids).1.global = w.global := by
  rcases hw with hw | hw
  · rw [get_classic_rep_fresh hw]
    let w₀ := (w.new_intern.1.retain 0).retain 0
    have hinit : Changes ids 0 (fun _ => True) w₀
        ((add_new ids 0 w₀ classic_facets).init_intern ids 0) :=
      (changes_add_new (Nat.zero_le 0) fun _ _ => trivial).trans (changes_init_intern (Nat.zero_le 0))
    have hobject : w₀.classic_object = w.classic_object := rfl
    have hglobal : w₀.global = w.global := rfl
    dsimp only
    exact ⟨hinit.frame.classic_object.trans hobject, hinit.frame.global.trans hglobal⟩
  · obtain ⟨r, hr⟩ := Option.ne_none_iff_exists'.mp hw
    rw [get_classic_rep_some hr]
    have hinit : Changes ids 0 (fun _ => True) w (w.init_intern ids r) :=
      changes_init_intern (Nat.zero_le r)
    exact ⟨hinit.frame.classic_object, hinit.frame.global⟩

/-- Who gets the classic representation holds one reference more. -/
theorem referenced_retained (hw : Fresh w ∨ w.classic_rep ≠ none)
    (h : Referenced (fun _ => 0) w) (hrep : w.get_classic_rep ids = (w', r))
    (hu : (w'.retain r).undefined = false) : Referenced (once r) (w'.retain r) := by
  have hu' : w'.undefined = false := (frame_with_intern _ _).undefined hu
  have hw' : Referenced (fun _ => 0) w' := by
    have hclassic : (w.get_classic_rep ids).1.undefined = false →
        Referenced (fun _ => 0) (w.get_classic_rep ids).1 := referenced_get_classic_rep hw h
    rw [hrep] at hclassic
    exact hclassic hu'
  exact referenced_congr (referenced_retain hw' hu) fun s => Int.zero_add _

theorem referenced_get_classic (hw : Fresh w ∨ w.classic_rep ≠ none)
    (h : Referenced (fun _ => 0) w) (hu : (w.get_classic ids).1.undefined = false) :
    Referenced (fun _ => 0) (w.get_classic ids).1 := by
  unfold get_classic at hu ⊢
  split at hu
  next r _ hr => exact h
  next hnone =>
    have hobject : w.classic_object = false := by
      rcases hw with hw | hw
      · exact hw.classic_object
      · obtain ⟨r, hr⟩ := Option.ne_none_iff_exists'.mp hw
        exact Bool.eq_false_iff.mpr fun ho => hnone r ho hr
    have hstatic : (w.get_classic_rep ids).1.classic_object = false :=
      (static_get_classic_rep hw).1.trans hobject
    have hclassic : (w.get_classic_rep ids).1.classic_rep = some (w.get_classic_rep ids).2 := rfl
    generalize hrep : w.get_classic_rep ids = p at hu hstatic hclassic ⊢
    obtain ⟨w₁, r⟩ := p
    have hretain := referenced_retained hw h hrep hu
    exact referenced_classic_object hretain hclassic hstatic

theorem referenced_get_global_rep (hw : Fresh w ∨ w.classic_rep ≠ none)
    (h : Referenced (fun _ => 0) w) (hu : (w.get_global_rep ids).1.undefined = false) :
    Referenced (fun _ => 0) (w.get_global_rep ids).1 ∧
      (w.get_global_rep ids).1.global = some (w.get_global_rep ids).2 := by
  unfold get_global_rep at hu ⊢
  split at hu
  next r hr => exact ⟨h, hr⟩
  next hnone =>
    have hstatic : (w.get_classic_rep ids).1.global = none :=
      (static_get_classic_rep hw).2.trans hnone
    generalize hrep : w.get_classic_rep ids = p at hu hstatic ⊢
    obtain ⟨w₁, r⟩ := p
    have hretain := referenced_retained hw h hrep hu
    exact ⟨referenced_global hretain hstatic, rfl⟩

/-- What `locale(n)` refers to is counted once more. -/
theorem referenced_named (hw : Fresh w ∨ w.classic_rep ≠ none) (h : Referenced (fun _ => 0) w)
    (n : Option Named) (hu : (w.named ids n).1.undefined = false) :
    ∃ w₁, Referenced (fun _ => 0) w₁ ∧
      (w.named ids n = (w₁, none) ∨ ∃ r, w.named ids n = (w₁.retain r, some r)) := by
  unfold named at hu ⊢
  cases n with
  | none =>
    have hu₁ : ((w.get_classic ids).1.retain (w.get_classic ids).2).undefined = false := hu
    exact ⟨_, referenced_get_classic hw h ((frame_with_intern _ _).undefined hu₁), .inr ⟨_, rfl⟩⟩
  | some n =>
    dsimp only at hu ⊢
    have hparts : Changes ids 0 (fun _ => True) (w.get_classic ids).1
        (add_parts ids ((w.get_classic ids).1.copy_intern (w.get_classic ids).2).2
          ((w.get_classic ids).1.copy_intern (w.get_classic ids).2).1 (Named.parts n)).1 :=
      (Changes.single (.copy_intern _ _)).trans
        (changes_add_parts (Nat.zero_le _) fun _ _ _ _ => trivial)
    split at hu
    next hthrew =>
      rw [if_pos hthrew]
      have hclassic := referenced_get_classic hw h (hparts.frame.undefined hu)
      exact ⟨_, referenced_changes hclassic hparts, .inl rfl⟩
    next hthrew =>
      rw [if_neg hthrew]
      have hu₁ := (frame_with_intern _ _).undefined hu
      have hclassic := referenced_get_classic hw h (hparts.frame.undefined hu₁)
      exact ⟨_, referenced_changes hclassic hparts, .inr ⟨_, rfl⟩⟩

end

end LocaleLemmas

open LocaleLemmas in
theorem referenced_next [DecidableEq κ] {ids : Ids κ} {w w' : Locales κ} {op : LocaleOp κ}
    (hw : Fresh w ∨ w.classic_rep ≠ none) (h : Referenced (fun _ => 0) w)
    (hnext : w.next ids op = some w') (hu : w'.undefined = false) :
    Referenced (fun _ => 0) w' := by
  have hobject {w₁ : Locales κ} {r : Nat} (h : Referenced (fun _ => 0) w₁)
      (hu : (object (w₁, r)).undefined = false) : Referenced (fun _ => 0) (object (w₁, r)) :=
    referenced_object h hu
  cases op with
  | new_facet body refs =>
    cases hnext
    exact referenced_of_refcount h ⟨rfl, rfl, rfl, rfl, id⟩ fun _ => rfl
  | default =>
    cases hnext
    exact hobject (referenced_get_global_rep hw h ((frame_with_intern _ _).undefined hu)).1 hu
  | copy l =>
    obtain ⟨r, hr, rfl⟩ := Option.map_eq_some_iff.mp hnext
    exact hobject h hu
  | named n =>
    simp only [next] at hnext
    split at hnext
    next w₁ heq =>
      cases hnext
      have hu₁ : (w.named ids n).1.undefined = false := heq ▸ hu
      obtain ⟨w₂, h₂, hcase | ⟨r, hcase⟩⟩ := referenced_named hw h n hu₁
      · cases heq.symm.trans hcase
        exact h₂
      · cases heq.symm.trans hcase
    next w₁ r heq =>
      cases hnext
      have hu₁ : (w.named ids n).1.undefined = false := heq ▸ hu
      obtain ⟨w₂, h₂, hcase | ⟨r', hcase⟩⟩ := referenced_named hw h n hu₁
      · cases heq.symm.trans hcase
      · cases heq.symm.trans hcase
        exact hobject h₂ hu
  | add_facet l f =>
    cases f with
    | none =>
      obtain ⟨r, hr, rfl⟩ := Option.map_eq_some_iff.mp hnext
      exact hobject h hu
    | some f =>
      obtain ⟨r, hr, hnext⟩ := Option.bind_eq_some_iff.mp hnext
      obtain ⟨k, hk, hnext⟩ := Option.bind_eq_some_iff.mp hnext
      obtain rfl := Option.some.inj hnext
      have hadd : Changes ids 0 (fun _ => True) w (w.combine_facet ids r (some f) k).1 :=
        changes_combine_facet (Nat.zero_le _) trivial hk
      generalize w.combine_facet ids r (some f) k = p at hadd hu ⊢
      obtain ⟨w₁, s⟩ := p
      exact hobject (referenced_changes h hadd) hu
  | combine l1 l2 cat =>
    obtain ⟨r1, hr1, hnext⟩ := Option.bind_eq_some_iff.mp hnext
    obtain ⟨r2, -, hnext⟩ := Option.bind_eq_some_iff.mp hnext
    cases hnext
    have hcombine : Changes ids 0 (fun _ => True) w (w.combine ids r1 r2 cat).1 :=
      changes_combine (Nat.zero_le _) fun _ _ _ _ => trivial
    exact hobject (referenced_changes h hcombine) hu
  | combine_named l n cat =>
    obtain ⟨r, hr, hnext⟩ := Option.bind_eq_some_iff.mp hnext
    split at hnext
    next w₁ heq =>
      cases hnext
      have hu₁ : (w.named ids n).1.undefined = false := heq ▸ hu
      obtain ⟨w₂, h₂, hcase | ⟨r, hcase⟩⟩ := referenced_named hw h n hu₁
      · cases heq.symm.trans hcase
        exact h₂
      · cases heq.symm.trans hcase
    next w₁ t heq =>
      cases hnext
      have hu₁ := (frame_drop t).undefined hu
      have hcombine : Changes ids 0 (fun _ => True) w₁ (w₁.combine ids r t cat).1 :=
        changes_combine (Nat.zero_le _) fun _ _ _ _ => trivial
      have hu₂ : w₁.undefined = false :=
        hcombine.frame.undefined ((frame_with_intern _ _).undefined hu₁)
      have hu₃ : (w.named ids n).1.undefined = false := heq ▸ hu₂
      obtain ⟨w₂, h₂, hcase | ⟨r', hcase⟩⟩ := referenced_named hw h n hu₃
      · cases heq.symm.trans hcase
      · cases heq.symm.trans hcase
        have htemp := referenced_changes (referenced_retain h₂ hu₂) hcombine
        exact referenced_congr (referenced_drop (referenced_object htemp hu₁) hu) fun s => by omega
  | assign l other =>
    obtain ⟨r, hr, hnext⟩ := Option.bind_eq_some_iff.mp hnext
    obtain ⟨old, hold, hnext⟩ := Option.bind_eq_some_iff.mp hnext
    cases hnext
    have hu₁ : ((w.retain r).drop old).undefined = false := hu
    have hretain := referenced_retain h ((frame_drop old).undefined hu₁)
    have hobjects : ((w.retain r).drop old).objects[l]? = some (some old) := by
      rw [(frame_drop old).objects]
      exact rep_eq_some hold
    refine referenced_set hobjects fun s => ?_
    have hs := referenced_drop hretain hu₁ s
    dsimp only [once] at hs ⊢
    rw [hs]
    simp only [Option.some.injEq, eq_comm]
  | destroy l =>
    obtain ⟨r, hr, hnext⟩ := Option.bind_eq_some_iff.mp hnext
    cases hnext
    have hu₁ : (w.drop r).undefined = false := hu
    have hobjects : (w.drop r).objects[l]? = some (some r) := by
      rw [(frame_drop r).objects]
      exact rep_eq_some hr
    refine referenced_set hobjects fun s => ?_
    have hs := referenced_drop h hu₁ s
    dsimp only [once] at hs ⊢
    rw [hs]
    simp only [reduceCtorEq, if_false]
    omega
  | global l =>
    obtain ⟨r, hr, hnext⟩ := Option.bind_eq_some_iff.mp hnext
    cases hnext
    have hu₁ := (frame_with_intern (w.get_global_rep ids).2 _).undefined hu
    have hu₂ := (frame_with_intern r _).undefined hu₁
    have hglobal := referenced_get_global_rep hw h ((frame_with_intern _ _).undefined hu₂)
    have hretain := referenced_retain (hobject hglobal.1 hu₂) hu₁
    exact referenced_set_global hglobal.2 hretain hu
  | classic =>
    cases hnext
    exact referenced_get_classic hw h hu
  | intern_add l f =>
    cases f with
    | none =>
      cases hnext
      exact h
    | some f =>
      obtain ⟨r, hr, hnext⟩ := Option.bind_eq_some_iff.mp hnext
      obtain ⟨k, hk, hnext⟩ := Option.bind_eq_some_iff.mp hnext
      cases hnext
      have hadd : Change ids 0 (fun _ => True) w (w.add ids r k (some f)) :=
        .add w (Nat.zero_le r) trivial hk
      exact referenced_of_refcount h hadd.frame (refcount_change hadd)

/-- The counts of the representations are exact in every run. -/
theorem run_referenced [DecidableEq κ] {ids : Ids κ} {tr : List (LocaleOp κ)} {w : Locales κ}
    (h : Run (system ids) start tr w) (r : Nat) : (w.intern r).m_refcount = references w r := by
  have hrun : (Fresh w ∨ w.classic_rep ≠ none) ∧ Referenced (fun _ => 0) w := by
    refine h.invariant_state (I := fun w => (Fresh w ∨ w.classic_rep ≠ none) ∧
      Referenced (fun _ => 0) w) ⟨.inl fresh_start, referenced_fresh fresh_start⟩
      fun w op w' ih hs => ⟨?_, referenced_next ih.1 ih.2 hs.1 hs.2⟩
    exact (next_settles ih.1 hs.1).imp id Settles.classic_rep
  exact (hrun.2 r).trans (Int.add_zero _)

/-- Once a locale exists, some facet has a wrong count. -/
theorem run_wrong [DecidableEq κ] {ids : Ids κ} {tr : List (LocaleOp κ)} {w : Locales κ}
    (h : Run (system ids) start tr w) : Fresh w ∨ w.classic_rep ≠ none ∧ Wrong w := by
  have hrun := run_settled
    (P := fun w => Complete ids IsClassic w ∧ Counted w ∧ Wrong w)
    (fun w hw hu => ⟨complete_classic hw hu, counted_classic hw hu⟩)
    (fun w w' hp hu h => ⟨complete_prim h.1 hp hu, counted_prim h.1 h.2.1 hp hu,
      wrong_prim h.1 h.2.1 h.2.2 hp hu⟩) h
  exact hrun.imp id fun h => ⟨h.1, h.2.2.2⟩

/-- The counts of a run are exact if and only if no representation has been created. -/
theorem exact_iff [DecidableEq κ] {ids : Ids κ} {tr : List (LocaleOp κ)} {w : Locales κ}
    (h : Run (system ids) start tr w) : Exact w ↔ w.classic_rep = none := by
  constructor
  · intro hexact
    refine (run_wrong h).elim Fresh.classic_rep fun hwrong => ?_
    obtain ⟨f, ⟨x, hx, -, hless⟩ | ⟨x, hx, hless⟩⟩ := hwrong.2
    · exact absurd (hexact.facets f x hx) (by omega)
    · exact absurd (hexact.facets f x hx) (by omega)
  · intro hnone
    have hfresh := (run_wrong h).resolve_right fun h => h.1 hnone
    have hlength (r : Nat) : ¬ r < w.interns.length := by
      rw [hfresh.interns]
      exact Nat.not_lt_zero r
    have hholders (f : Nat) : holders w f = 0 := by
      unfold holders
      rw [hfresh.interns]
      rfl
    refine ⟨fun r hr => absurd hr (hlength r), fun f x hx => ?_, fun r hr => absurd hr (hlength r),
      fun f x _ hf => ?_⟩
    · rw [hholders]
      exact hfresh.ref_count f x hx
    · rw [hfresh.deleted] at hf
      cases hf

/-- A locale with the facets of the global one is destroyed. -/
def exShared : List (LocaleOp Empty) := [.default, .combine 0 0 0, .destroy 1]

theorem exShared_runs : (replay exNext start exShared).isSome := by decide +kernel

/-- The state after `exShared`. -/
def exFreed : Locales Empty := (replay exNext start exShared).get exShared_runs

theorem exact_iff_example : Exact exFreed ↔ exFreed.classic_rep = none :=
  exact_iff (run_replay step_exNext exShared_runs)

/-- The cache of the global locale has been deleted with the other one. -/
theorem not_exact : Run (system exIds) start exShared exFreed ∧ ¬ Exact exFreed ∧
    found exIds exFreed 0 (.cache .char) = some 26 ∧ exFreed.deleted 26 = true := by
  have hfound : found exIds exFreed 0 (.cache .char) = some 26 := by decide +kernel
  have hdeleted : exFreed.deleted 26 = true := by decide +kernel
  have hheld : holders exFreed 26 = 1 := by decide +kernel
  have hlength : 26 < exFreed.facets.length := by decide +kernel
  refine ⟨run_replay step_exNext exShared_runs, fun h => ?_, hfound, hdeleted⟩
  have hzero := h.facets_deleted 26 _ (List.getElem?_eq_getElem hlength) hdeleted
  rw [hheld] at hzero
  omega

end Kuhllib.Cxxrt
