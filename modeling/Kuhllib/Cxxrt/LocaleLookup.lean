import Kuhllib.Cxxrt.LocaleSteps

/-!
# Which facets a combined locale has

Results:
1. `find_combine`: where `locale(l1, l2, cat)` has its facets from.
2. `takesRight_iff`: for any two locales of any run, they are from the side that `cat` asks for
   if and only if `cat` has `collate` with the category or the two locales agree.
-/

namespace Kuhllib.Cxxrt

open Transition Locales LocaleLemmas

variable {κ : Type}

/-- The category of a facet that the constructor handles. -/
def category : Kind κ → Option Category
  | .plain (.collate _) => some collate
  | .ctype _ | .plain (.codecvt _) => some ctype
  | .plain (.moneypunct _ _) | .plain (.money_get _) | .plain (.money_put _) => some monetary
  | .numpunct _ | .plain (.num_get _) | .plain (.num_put _) => some numeric
  | .plain (.messages _) => some messages
  | _ => none

/-- The facets of the sections are those with a category. -/
theorem mem_sections {k : Kind κ} : k ∈ (sections : List (Category × List (Kind κ))).flatMap Prod.snd ↔ category k ≠ none := by
  rcases k with c | c | c | p
  · cases c <;> simp [sections, category]
  · cases c <;> simp [sections, category]
  · simp [sections, category]
  · rcases p with c | c | ⟨c, intl⟩ | c | c | c | c | c | c | c | u
    · cases c <;> simp [sections, category]
    · cases c <;> simp [sections, category]
    · cases c <;> cases intl <;> simp [sections, category]
    · cases c <;> simp [sections, category]
    · cases c <;> simp [sections, category]
    · cases c <;> simp [sections, category]
    · cases c <;> simp [sections, category]
    · simp [sections, category]
    · simp [sections, category]
    · cases c <;> simp [sections, category]
    · simp [sections, category]

/-- `cat` has one of the categories of `sec`. -/
def Has (cat sec : Category) : Prop := cat &&& sec ≠ 0

instance (cat sec : Category) : Decidable (Has cat sec) := inferInstanceAs (Decidable (_ ≠ _))

/-- The facets of the classic locale other than the caches. -/
def IsClassic (k : Kind κ) : Prop := (∀ c, k ≠ .cache c) ∧ ∃ b ∈ classic_facets, b.kind = k

theorem nodup_classic : ((classic_facets : List (FacetBody κ)).map FacetBody.kind).Nodup := by
  simp [classic_facets, FacetBody.kind]

theorem isClassic_numpunct (c : CharT) : IsClassic (.numpunct c : Kind κ) := by
  refine ⟨fun _ hc => (by cases hc), .numpunct c classic_numpunct, ?_, rfl⟩
  cases c <;> simp only [classic_facets, List.mem_cons, true_or, or_true]

theorem isClassic_ctype (c : CharT) : IsClassic (.ctype c : Kind κ) := by
  refine ⟨fun _ hc => (by cases hc), .ctype c widen, ?_, rfl⟩
  cases c <;> simp only [classic_facets, List.mem_cons, true_or, or_true]

variable [DecidableEq κ]

/-- The facet of a locale object. -/
def found (ids : Ids κ) (w : Locales κ) (l : Nat) (k : Kind κ) : Option Nat :=
  (w.rep l).bind fun r => w.find ids r k

/-- The new object has each facet from the side that `cat` asks for. -/
def TakesRight (ids : Ids κ) (w w' : Locales κ) (l1 l2 : Nat) (cat : Category) : Prop :=
  ∀ k, found ids w' w.objects.length k =
    if ∃ c ∈ category k, Has cat c then found ids w l2 k else found ids w l1 k

/-- Each facet is in the slot of its own `id`, those of `K` are there, the locale objects have
representations, and only facets that exist have been deleted. -/
structure Complete (ids : Ids κ) (K : Kind κ → Prop) (w : Locales κ) : Prop where
  slots : ∀ r i f, (w.intern r).m_array[i]? = some (some f) →
    ∃ k, w.kind_of f = some k ∧ i = ids.identifier k
  full : ∀ r < w.interns.length, ∀ k, K k → w.find ids r k ≠ none
  known : ∀ r, some r ∈ w.objects → r < w.interns.length
  deleted : ∀ f, w.deleted f = true → f < w.facets.length

namespace Complete

variable {ids : Ids κ} {K : Kind κ → Prop} {w w' : Locales κ} {r f : Nat} {k : Kind κ}

theorem kinded (h : Complete ids K w) (hf : w.find ids r k = some f) : w.kind_of f = some k := by
  obtain ⟨k', hk', hid⟩ := h.slots r _ f (Option.join_eq_some_iff.mp hf)
  rw [hk', identifier_inj hid]

/-- The arrays hold facets that exist. -/
theorem exists_of_mem (h : Complete ids K w) (hf : some f ∈ (w.intern r).m_array) :
    f < w.facets.length := by
  obtain ⟨i, hi⟩ := List.getElem?_of_mem hf
  obtain ⟨k, hk, -⟩ := h.slots r i f hi
  exact lt_of_kind_of hk

/-- The arrays stay. -/
theorem of_arrays (h : Complete ids K w) (hfacets : w'.facets = w.facets)
    (hlength : w'.interns.length = w.interns.length)
    (harray : ∀ r, (w'.intern r).m_array = (w.intern r).m_array)
    (hobjects : ∀ r, some r ∈ w'.objects → some r ∈ w.objects ∨ r < w.interns.length)
    (hdeleted : ∀ f, w'.deleted f = true → f < w.facets.length) : Complete ids K w' where
  slots r i f hf := by
    rw [harray] at hf
    rw [kind_of, hfacets]
    exact h.slots r i f hf
  full r hr k hk := by
    rw [find_congr (harray r)]
    exact h.full r (hlength ▸ hr) k hk
  known r hr := by
    rw [hlength]
    exact (hobjects r hr).elim (h.known r) id
  deleted f hf := by
    rw [hfacets]
    exact hdeleted f hf

/-- A facet is put into the slot of its own `id`. -/
theorem of_put {i : Nat} (h : Complete ids K w)
    (hkind : ∀ g k, w.kind_of g = some k → w'.kind_of g = some k)
    (hlength : w'.interns.length = w.interns.length) (hf : w'.kind_of f = some k)
    (harray : ∀ r j g, (w'.intern r).m_array[j]? = some (some g) →
      j = ids.identifier k ∧ g = f ∨ (w.intern r).m_array[j]? = some (some g))
    (hfind : ∀ r' k', w'.find ids r' k' = if r' = i ∧ k' = k then some f else w.find ids r' k')
    (hobjects : w'.objects = w.objects)
    (hdeleted : ∀ f, w'.deleted f = true → f < w'.facets.length) : Complete ids K w' where
  slots r j g hg := by
    rcases harray r j g hg with ⟨rfl, rfl⟩ | hg
    · exact ⟨k, hf, rfl⟩
    · obtain ⟨k', hk', hid⟩ := h.slots r j g hg
      exact ⟨k', hkind g k' hk', hid⟩
  full r' hr' k' hk' := by
    rw [hfind]
    split
    · exact Option.some_ne_none f
    · exact h.full r' (hlength ▸ hr') k' hk'
  known r' hr' := by
    rw [hlength]
    exact h.known r' (hobjects ▸ hr')
  deleted := hdeleted

theorem mono {K' : Kind κ → Prop} (h : Complete ids K w) (hK : ∀ k, K' k → K k) :
    Complete ids K' w :=
  ⟨h.slots, fun r hr k hk => h.full r hr k (hK k hk), h.known, h.deleted⟩

end Complete

namespace LocaleLemmas

variable {ids : Ids κ} {K : Kind κ → Prop} {w w' : Locales κ} {r f : Nat} {k : Kind κ}

theorem complete_add (h : Complete ids K w) (hk : w.kind_of f = some k)
    (hu : (w.add ids r k (some f)).undefined = false) :
    Complete ids K (w.add ids r k (some f)) := by
  have hdeleted (g : Nat) (hg : (w.add ids r k (some f)).deleted g = true) :
      g < w.facets.length := by
    rcases deleted_add hg with hg | hg
    · exact h.deleted g hg
    · exact h.exists_of_mem (mem_of_find hg)
  cases hok : (w.init_facet ids r f).2 with
  | true =>
    have hr := alive_of_add hok hu
    exact h.of_put (fun g k hg => (add_kind g).trans hg) length_add ((add_kind f).trans hk)
      (fun s j g hg => slot_add hr hok hg) (fun _ _ => find_add hr hok) frame_add.objects
      fun g hg => (hdeleted g hg).trans_eq facets_length_add.symm
  | false =>
    rw [add_refused hok]
    exact h.of_arrays rfl rfl (fun _ => rfl) (fun _ => .inl) h.deleted

theorem complete_copy_intern {ip : Nat} (h : Complete ids K w)
    (hu : (w.copy_intern ip).1.undefined = false) : Complete ids K (w.copy_intern ip).1 := by
  have hip : ip < w.interns.length :=
    lt_of_alive (Bool.or_eq_false_iff.mp ((frame_reference_all _).undefined hu)).2
  refine ⟨fun r i f hf => ?_, fun r hr k hk => ?_, fun r hr => ?_, fun f hf => ?_⟩
  · rw [kind_of_copy_intern]
    rw [intern_copy_intern] at hf
    split at hf
    · exact h.slots ip i f hf
    · exact h.slots r i f hf
  · rw [find_copy_intern]
    split
    · exact h.full ip hip k hk
    next hne =>
      rw [length_copy_intern] at hr
      exact h.full r (Nat.lt_of_le_of_ne (Nat.le_of_lt_succ hr) hne) k hk
  · rw [length_copy_intern]
    rw [(frame_copy_intern ip).objects] at hr
    exact Nat.lt_succ_of_lt (h.known r hr)
  · rw [deleted_copy_intern] at hf
    rw [facets_copy_intern]
    exact h.deleted f hf

theorem complete_new_facet (h : Complete ids K w) (body : FacetBody κ) (refs : Nat) :
    Complete ids K (w.new_facet body refs).1 := by
  refine ⟨fun r i f hf => ?_, h.full, h.known, fun f hf => ?_⟩
  · obtain ⟨k, hk, hid⟩ := h.slots r i f hf
    exact ⟨k, kind_of_new_facet body refs hk, hid⟩
  · show f < (w.facets ++ [_]).length
    rw [List.length_append]
    exact Nat.lt_succ_of_lt (h.deleted f hf)

theorem complete_with_intern (h : Complete ids K w) (r : Nat) (x : Intern)
    (hx : x.m_array = (w.intern r).m_array) : Complete ids K (w.with_intern r x) :=
  h.of_arrays rfl (length_with_intern x) (fun _ => array_with_intern hx) (fun _ => .inl) h.deleted

theorem complete_install_cache {c : CharT} (h : Complete ids K w)
    (hu : (w.install_cache ids r c).undefined = false) :
    Complete ids K (w.install_cache ids r c) := by
  refine h.of_put (i := r) (f := w.facets.length) (k := .cache c) (fun g k hg => ?_)
    (length_install_cache c) ?_ (fun s j g hg => slot_install_cache hu hg)
    (fun _ _ => find_install_cache hu) (frame_install_cache c).objects fun g hg => ?_
  · rw [kind_of_install_cache]
    exact kind_of_new_facet _ 0 hg
  · rw [kind_of_install_cache]
    exact kind_of_new _ 0
  · rw [facets_length_install_cache]
    rw [deleted_install_cache] at hg
    exact Nat.lt_succ_of_lt (h.deleted g hg)

theorem complete_change {n : Nat} {K' : Kind κ → Prop} (h : Complete ids K w)
    (hc : Change ids n K' w w') (hu : w'.undefined = false) : Complete ids K w' := by
  cases hc with
  | new_facet body refs => exact complete_new_facet h body refs
  | copy_intern => exact complete_copy_intern h hu
  | add _ _ hk => exact complete_add h hk hu
  | add_found _ _ hf => exact complete_add h (h.kinded hf) hu
  | install_cache => exact complete_install_cache h hu

theorem complete_prim (h : Complete ids K w) (hp : Prim ids w w') (hu : w'.undefined = false) :
    Complete ids K w' := by
  cases hp with
  | change hc => exact complete_change h hc hu
  | retain => exact complete_with_intern h _ _ rfl
  | lower => exact complete_with_intern h _ _ rfl
  | drop r =>
    refine h.of_arrays facets_drop length_drop (fun _ => array_drop)
      (fun _ hr => .inl ((frame_drop _).objects ▸ hr)) fun f hf => ?_
    rcases deleted_drop hf with hf | hf
    · exact h.deleted f hf
    · exact h.exists_of_mem hf
  | object r =>
    have hr : r < w.interns.length := lt_of_alive (alive_of_with_intern hu)
    refine h.of_arrays rfl (length_with_intern _) (fun _ => array_with_intern rfl)
      (fun i hi => ?_) h.deleted
    rcases List.mem_append.mp hi with hi | hi
    · exact .inl hi
    · cases List.mem_singleton.mp hi
      exact .inr hr
  | set_object l s hs =>
    refine h.of_arrays rfl rfl (fun _ => rfl) (fun i hi => ?_) h.deleted
    rcases List.mem_or_eq_of_mem_set hi with hi | hi
    · exact .inl hi
    · exact .inl (hs i hi.symm)
  | static => exact h.of_arrays rfl rfl (fun _ => rfl) (fun _ => .inl) h.deleted

/-- The facets that are added to the only representation are there. -/
theorem complete_add_new {bs : List (FacetBody κ)} (h : Complete ids K w)
    (hlength : w.interns.length = 1) (hu : (add_new ids 0 w bs).undefined = false) :
    Complete ids (fun k => K k ∨ (∀ c, k ≠ .cache c) ∧ ∃ b ∈ bs, b.kind = k)
      (add_new ids 0 w bs) := by
  induction bs generalizing w K with
  | nil =>
    refine h.mono fun k hk => hk.resolve_right ?_
    rintro ⟨-, b, hb, -⟩
    cases hb
  | cons b bs ih =>
    let w₀ := (w.new_facet b 0).1
    have hkind : w₀.kind_of w.facets.length = some b.kind := by
      show ((w.facets ++ [_])[w.facets.length]?).map _ = _
      rw [List.getElem?_concat_length]
      rfl
    have hu₁ : (w₀.add ids 0 b.kind (some w.facets.length)).undefined = false :=
      (prims_add_new 0 bs).undefined hu
    have h₁ := complete_add (complete_new_facet h b 0) hkind hu₁
    have hput : Complete ids (fun k => K k ∨ (∀ c, k ≠ .cache c) ∧ b.kind = k)
        (w₀.add ids 0 b.kind (some w.facets.length)) := by
      refine ⟨h₁.slots, fun r hr k hk => ?_, h₁.known, h₁.deleted⟩
      rcases hk with hk | ⟨hcache, rfl⟩
      · exact h₁.full r hr k hk
      · have hother : w₀.init_facet ids 0 w.facets.length = (w₀, true) :=
          init_facet_other fun c hc => hcache c (Option.some.inj (hkind.symm.trans hc))
        rw [length_add, show w₀.interns.length = 1 from hlength] at hr
        rw [find_add (hlength ▸ Nat.zero_lt_one) (hother ▸ rfl), if_pos ⟨Nat.lt_one_iff.mp hr, rfl⟩]
        exact Option.some_ne_none _
    refine (ih hput (length_add.trans hlength) hu).mono fun k hk => ?_
    rcases hk with hk | ⟨hcache, b', hb, hb'⟩
    · exact .inl (.inl hk)
    · rcases List.mem_cons.mp hb with rfl | hb
      · exact .inl (.inr ⟨hcache, hb'⟩)
      · exact .inr ⟨hcache, b', hb, hb'⟩

/-- The only representation after the first operation that needs one. -/
theorem get_classic_rep_fresh (hw : Fresh w) :
    w.get_classic_rep ids =
      ({ (add_new ids 0 ((w.new_intern.1.retain 0).retain 0) classic_facets).init_intern ids 0 with
        classic_rep := some 0 }, 0) := by
  have hr : w.new_intern.2 = 0 := congrArg List.length hw.interns
  unfold get_classic_rep
  rw [hw.classic_rep]
  dsimp only
  rw [hr]

theorem complete_new_intern (hw : Fresh w) : Complete ids (fun _ => False) w.new_intern.1 where
  slots r i f hf := by
    have hnone : (w.new_intern.1.intern r).m_array[i]? ≠ some (some f) := by
      show ((w.interns ++ [_]).getD r _).m_array[i]? ≠ _
      rw [hw.interns]
      cases r with
      | zero =>
        show (List.replicate 20 none)[i]? ≠ _
        rw [List.getElem?_replicate]
        split
        · exact fun h => Option.some_ne_none f (Option.some.inj h).symm
        · exact (Option.some_ne_none _).symm
      | succ r => exact (Option.some_ne_none _).symm
    exact absurd hf hnone
  full r _ k hk := hk.elim
  known r hr := by
    have hr : some r ∈ w.objects := hr
    rw [hw.objects] at hr
    cases hr
  deleted f hf := by
    have hf : w.deleted f = true := hf
    rw [hw.deleted] at hf
    cases hf

omit [DecidableEq κ] in
theorem length_first (hw : Fresh w) : ((w.new_intern.1.retain 0).retain 0).interns.length = 1 := by
  show (((w.interns ++ [_]).set 0 _).set 0 _).length = 1
  rw [hw.interns]
  rfl

/-- The classic representation before its caches are made. -/
theorem complete_classic_facets (hw : Fresh w)
    (hu : (add_new ids 0 ((w.new_intern.1.retain 0).retain 0) classic_facets).undefined = false) :
    Complete ids IsClassic
      (add_new ids 0 ((w.new_intern.1.retain 0).retain 0) classic_facets) := by
  have hnew : Complete ids (fun _ => False) (w.new_intern.1.retain 0) :=
    complete_with_intern (complete_new_intern hw) 0 _ rfl
  have hnew : Complete ids (fun _ => False) ((w.new_intern.1.retain 0).retain 0) :=
    complete_with_intern hnew 0 _ rfl
  exact (complete_add_new hnew (length_first hw) hu).mono fun k hk => .inr hk

theorem complete_classic (hw : Fresh w) (hu : (w.get_classic_rep ids).1.undefined = false) :
    Complete ids IsClassic (w.get_classic_rep ids).1 := by
  rw [get_classic_rep_fresh hw] at hu ⊢
  have hframe (w₁ : Locales κ) (hu : w₁.undefined = false) (h : Complete ids IsClassic w₁) :
      Complete ids IsClassic { w₁ with classic_rep := some 0 } :=
    complete_prim h (.static w₁ w₁.global 0 w₁.classic_object) hu
  dsimp only at hu
  let w₀ := (w.new_intern.1.retain 0).retain 0
  have hinit : Prims ids (add_new ids 0 w₀ classic_facets)
      ((add_new ids 0 w₀ classic_facets).init_intern ids 0) := prims_init_intern 0
  have hadd := complete_classic_facets hw (hinit.undefined hu)
  exact hframe _ hu (hinit.invariant hu (fun _ _ hp hu h => complete_prim h hp hu) hadd)

end LocaleLemmas

/-- The locales of every run are complete. -/
theorem run_complete {ids : Ids κ} {tr : List (LocaleOp κ)} {w : Locales κ}
    (h : Run (system ids) start tr w) :
    Fresh w ∨ Complete ids IsClassic w :=
  (run_settled (fun _ => complete_classic) (fun _ _ hp hu h => complete_prim h hp hu) h).imp id
    And.right

/-! ## Combined locales -/

namespace LocaleLemmas

variable {ids : Ids κ} {w : Locales κ} {rc l2 : Nat} {k : Kind κ} {cat : Category}

/-- A facet of `l2` that is no cache replaces that of `rc`. -/
theorem find_add_found {k₀ : Kind κ} (hrc : rc < w.interns.length)
    (hkind : ∀ f, w.find ids l2 k₀ = some f → w.kind_of f = some k₀) (hk : ∀ c, k₀ ≠ .cache c)
    (r : Nat) (k : Kind κ) :
    (w.add ids rc k₀ (w.find ids l2 k₀)).find ids r k =
      if r = rc ∧ k = k₀ then (w.find ids l2 k₀).or (w.find ids rc k₀) else w.find ids r k := by
  cases hf : w.find ids l2 k₀ with
  | none =>
    split
    next h =>
      rw [h.1, h.2]
      rfl
    next => rfl
  | some f =>
    have hother : w.init_facet ids rc f = (w, true) :=
      init_facet_other fun c hc => hk c (Option.some.inj ((hkind f hf).symm.trans hc))
    rw [find_add hrc (hother ▸ rfl)]
    rfl

theorem kind_of_add_found {k₀ : Kind κ} (s : Option Nat) (g : Nat) :
    (w.add ids rc k₀ s).kind_of g = w.kind_of g := by
  cases s with
  | none => rfl
  | some f => exact add_kind g

theorem length_add_found {k₀ : Kind κ} (s : Option Nat) :
    (w.add ids rc k₀ s).interns.length = w.interns.length := by
  cases s with
  | none => rfl
  | some f => exact length_add

/-- The facets of `l2` that are no caches replace those of `rc`. -/
theorem find_add_from {ks : List (Kind κ)} (hne : l2 ≠ rc) (hrc : rc < w.interns.length)
    (hkind : ∀ k f, w.find ids l2 k = some f → w.kind_of f = some k)
    (hks : ∀ k ∈ ks, ∀ c, k ≠ .cache c) (r : Nat) (k : Kind κ) :
    (add_from ids rc l2 w ks).find ids r k =
      if r = rc ∧ k ∈ ks then (w.find ids l2 k).or (w.find ids rc k) else w.find ids r k := by
  induction ks generalizing w with
  | nil =>
    rw [if_neg fun h => List.not_mem_nil h.2]
    rfl
  | cons k₀ ks ih =>
    have hstep (r : Nat) (k : Kind κ) : (w.add ids rc k₀ (w.find ids l2 k₀)).find ids r k =
        if r = rc ∧ k = k₀ then (w.find ids l2 k₀).or (w.find ids rc k₀) else w.find ids r k :=
      find_add_found hrc (hkind k₀) (hks k₀ List.mem_cons_self) r k
    have hl2 (k : Kind κ) : (w.add ids rc k₀ (w.find ids l2 k₀)).find ids l2 k = w.find ids l2 k := by
      rw [hstep, if_neg fun h => hne h.1]
    have hlength : rc < (w.add ids rc k₀ (w.find ids l2 k₀)).interns.length := by
      rw [length_add_found]
      exact hrc
    have hrest := ih hlength
      (fun k f hf => (kind_of_add_found _ f).trans (hkind k f (hl2 k ▸ hf)))
      fun k hk => hks k (List.mem_cons_of_mem _ hk)
    refine hrest.trans ?_
    rw [hl2, hstep, hstep]
    rcases eq_or_ne r rc with rfl | hr
    · rcases eq_or_ne k k₀ with rfl | hk
      · simp only [true_and, if_true, List.mem_cons, true_or, and_self]
        cases w.find ids l2 k with
        | none => simp only [Option.none_or, ite_self]
        | some f => simp only [Option.some_or, ite_self]
      · simp only [hk, and_false, if_false, List.mem_cons, false_or, true_and]
    · simp only [hr, false_and, if_false]

theorem add_from_append (ks ks' : List (Kind κ)) :
    add_from ids rc l2 w (ks ++ ks') = add_from ids rc l2 (add_from ids rc l2 w ks) ks' := by
  induction ks generalizing w with
  | nil => rfl
  | cons k ks ih => exact ih

/-- For every section, only whether `cat` has `collate` is tested. -/
theorem selects_eq {sec : Category} (hsec : sec ≠ 0) : selects cat sec = decide (Has cat collate) := by
  unfold selects
  rw [if_pos hsec]
  rfl

theorem add_sections_eq {secs : List (Category × List (Kind κ))} (hsecs : ∀ s ∈ secs, s.1 ≠ 0) :
    add_sections ids rc l2 cat w secs =
      if Has cat collate then add_from ids rc l2 w (secs.flatMap Prod.snd) else w := by
  induction secs generalizing w with
  | nil => exact (ite_self w).symm
  | cons sec secs ih =>
    have hrest := fun w' : Locales κ => ih (w := w') fun s hs => hsecs s (List.mem_cons_of_mem _ hs)
    show add_sections ids rc l2 cat (if selects cat sec.1 then _ else w) secs = _
    rw [selects_eq (hsecs sec List.mem_cons_self), hrest, List.flatMap_cons, add_from_append]
    split
    · rw [if_pos (decide_eq_true ‹_›)]
    · rw [if_neg (by simp only [decide_eq_true_eq]; assumption)]

end LocaleLemmas

/-- Where the combined representation has its facets from. -/
theorem find_combine {ids : Ids κ} {K : Kind κ → Prop} {w : Locales κ} (r1 : Nat) {r2 : Nat}
    (hw : Complete ids K w) (hr2 : r2 < w.interns.length) (cat : Category) (k : Kind κ) :
    (w.combine ids r1 r2 cat).1.find ids (w.combine ids r1 r2 cat).2 k =
      if Has cat collate ∧ category k ≠ none then (w.find ids r2 k).or (w.find ids r1 k)
      else w.find ids r1 k := by
  let w₁ := (w.copy_intern r1).1
  have hne : r2 ≠ w.interns.length := Nat.ne_of_lt hr2
  have hl2 (k : Kind κ) : w₁.find ids r2 k = w.find ids r2 k := by
    rw [find_copy_intern, if_neg hne]
  have hrc (k : Kind κ) : w₁.find ids w.interns.length k = w.find ids r1 k := by
    rw [find_copy_intern, if_pos rfl]
  have hlength : w.interns.length < w₁.interns.length := by
    rw [length_copy_intern]
    exact Nat.lt_succ_self _
  have hkind (k : Kind κ) (f : Nat) (hf : w₁.find ids r2 k = some f) : w₁.kind_of f = some k := by
    rw [kind_of_copy_intern]
    exact hw.kinded (hl2 k ▸ hf)
  have hcache (k : Kind κ) (hk : k ∈ (sections : List (Category × List (Kind κ))).flatMap Prod.snd) (c : CharT) :
      k ≠ .cache c := by
    rintro rfl
    exact mem_sections.mp hk rfl
  have hsecs (s : Category × List (Kind κ)) (hs : s ∈ sections) : s.1 ≠ 0 := by
    have hall : ∀ c ∈ [collate, ctype, monetary, numeric, time, time], c ≠ 0 := by decide
    exact hall s.1 (List.mem_map_of_mem hs)
  show (add_sections ids w.interns.length r2 cat w₁ sections).find ids w.interns.length k = _
  rw [add_sections_eq hsecs]
  split
  next hcat =>
    rw [find_add_from hne hlength hkind hcache, hl2, hrc]
    simp only [true_and, mem_sections, hcat]
  next hcat => rw [hrc, if_neg fun h => hcat h.1]

namespace LocaleLemmas

variable {ids : Ids κ} {w w' : Locales κ} {l1 l2 rc : Nat} {cat : Category}

theorem frame_combine (ids : Ids κ) (cat : Category) (r1 r2 : Nat) : Frame w (w.combine ids r1 r2 cat).1 :=
  (changes_combine (n := 0) (K := fun _ => True) (Nat.zero_le _) fun _ _ _ _ => trivial).frame

/-- A new object has the facets of its representation. -/
theorem found_object (w : Locales κ) (r : Nat) (k : Kind κ) :
    found ids (object (w, r)) w.objects.length k = w.find ids r k := by
  have hrep : (object (w, r)).rep w.objects.length = some r := by
    show (w.objects ++ [some r])[w.objects.length]?.join = some r
    rw [List.getElem?_concat_length]
    rfl
  have harray : ((w.retain r).intern r).m_array = (w.intern r).m_array := array_with_intern rfl
  unfold found
  rw [hrep]
  exact find_congr harray k

/-- What is taken with the test `p` is what is asked for with the test `q`. -/
theorem takes_iff {p q : Prop} [Decidable p] [Decidable q] (a b : Option Nat) :
    (if p then b.or a else a) = (if q then b else a) ↔
      a = b ∨ (q ↔ p) ∧ (p → b ≠ none) ∨ ¬ q ∧ b = none := by
  rcases Decidable.em p with hp | hp
  · rcases Decidable.em q with hq | hq
    · cases b <;> simp [hp, hq]
    · cases b <;> simp [hp, hq, eq_comm]
  · rcases Decidable.em q with hq | hq
    · simp [hp, hq]
    · simp [hp, hq]

end LocaleLemmas

/-- The facet is the one that `cat` asks for where the two locales agree, where `cat` has
`collate` with its category and `l2` has the facet, and where `cat` has not its category and
`collate` has no effect. -/
theorem takesRight_iff {ids : Ids κ} {tr : List (LocaleOp κ)} {w w' : Locales κ} {l1 l2 : Nat}
    {cat : Category} (h : Run (system ids) start tr w)
    (hs : (system ids).step w (.combine l1 l2 cat) w') :
    TakesRight ids w w' l1 l2 cat ↔
      ∀ k, ∀ c ∈ category k, found ids w l1 k = found ids w l2 k ∨
        (Has cat c ↔ Has cat collate) ∧ (Has cat collate → found ids w l2 k ≠ none) ∨
        ¬ Has cat c ∧ found ids w l2 k = none := by
  obtain ⟨hnext, -⟩ := hs
  obtain ⟨r1, hr1, hnext⟩ := Option.bind_eq_some_iff.mp hnext
  obtain ⟨r2, hr2, hnext⟩ := Option.bind_eq_some_iff.mp hnext
  cases hnext
  have hw : Complete ids IsClassic w := by
    refine (run_complete h).resolve_left fun hfresh => ?_
    exact absurd hfresh.classic_rep (classic_rep_of_rep (.inl hfresh) hr1 )
  have hfound (k : Kind κ) : found ids (object (w.combine ids r1 r2 cat)) w.objects.length k =
      if Has cat collate ∧ category k ≠ none then (w.find ids r2 k).or (w.find ids r1 k)
      else w.find ids r1 k := by
    rw [← find_combine r1 hw (hw.known r2 (mem_objects hr2)) cat k,
      ← (frame_combine ids cat r1 r2).objects]
    exact found_object _ _ k
  have hl1 (k : Kind κ) : found ids w l1 k = w.find ids r1 k := by
    rw [found, hr1]
    rfl
  have hl2 (k : Kind κ) : found ids w l2 k = w.find ids r2 k := by
    rw [found, hr2]
    rfl
  refine forall_congr' fun k => ?_
  rw [hfound, hl1, hl2]
  cases hk : category k with
  | none =>
    rw [if_neg fun h => h.2 rfl, if_neg fun h => Option.not_mem_none _ h.choose_spec.1]
    exact iff_of_true rfl fun c hc => absurd hc (Option.not_mem_none c)
  | some c =>
    have hcat : (∃ c' ∈ some c, Has cat c') ↔ Has cat c := by
      simp only [Option.mem_def, Option.some.injEq, exists_eq_left']
    simp only [hcat, ne_eq, reduceCtorEq, not_false_eq_true, and_true]
    rw [takes_iff]
    simp only [Option.mem_def, Option.some.injEq, forall_eq', ne_eq]

/-- The global locale and one with an additional `numpunct`. -/
def exNumeric : List (LocaleOp Empty) :=
  [.default, .new_facet (.numpunct .char ⟨[3], 46, 44⟩) 0, .add_facet 0 (some 28)]

theorem exNumeric_runs : (replay exNext start exNumeric).isSome := by decide +kernel

/-- The state after `exNumeric`. -/
def exTwo : Locales Empty := (replay exNext start exNumeric).get exNumeric_runs

theorem run_exTwo : Run (system exIds) start exNumeric exTwo :=
  run_replay step_exNext exNumeric_runs

theorem exTwo_combines : (exNext exTwo (.combine 0 1 numeric)).isSome := by decide +kernel

/-- With the numeric facets of the second locale. -/
def exCombined : Locales Empty := (exNext exTwo (.combine 0 1 numeric)).get exTwo_combines

theorem step_exCombined : (system exIds).step exTwo (.combine 0 1 numeric) exCombined :=
  step_exNext _ _ _ (Option.some_get exTwo_combines).symm

theorem takesRight_iff_example : TakesRight exIds exTwo exCombined 0 1 numeric ↔
    ∀ k, ∀ c ∈ category k, found exIds exTwo 0 k = found exIds exTwo 1 k ∨
      (Has numeric c ↔ Has numeric collate) ∧ (Has numeric collate → found exIds exTwo 1 k ≠ none) ∨
      ¬ Has numeric c ∧ found exIds exTwo 1 k = none :=
  takesRight_iff run_exTwo step_exCombined

/-- The combined locale has the `numpunct` of the first one. -/
theorem not_takesRight : Run (system exIds) start exNumeric exTwo ∧
    (system exIds).step exTwo (.combine 0 1 numeric) exCombined ∧
    ¬ TakesRight exIds exTwo exCombined 0 1 numeric := by
  refine ⟨run_exTwo, step_exCombined, fun h => ?_⟩
  have hleft : found exIds exCombined exTwo.objects.length (.numpunct .char) = some 0 := by
    decide +kernel
  have hright : found exIds exTwo 1 (.numpunct .char) = some 28 := by decide +kernel
  have hasked := h (.numpunct .char)
  rw [if_pos ⟨numeric, rfl, by decide⟩, hleft, hright] at hasked
  exact absurd hasked (by decide)

end Kuhllib.Cxxrt
