import Kuhllib.Cxxrt.LocaleCounts

/-!
# The numeric cache of a locale

Results:
1. `run_coherent`: in every run whose steps meet `Locales.Keeps`, the cache that a locale has
   holds the tables of the locale's own `numpunct` and `ctype`.
2. `not_coherent_named`: a locale by name has the cache of the classic one.
-/

namespace Kuhllib.Cxxrt

open Transition Locales LocaleLemmas

variable {κ : Type}

/-- The name has all parts. -/
def Named.whole (n : Named) : Bool :=
  n.has_ctype && n.has_numeric && n.has_time && n.has_collate && n.has_monetary && n.has_messages

/-- An object or a static variable is this locale. -/
def Live (w : Locales κ) (r : Nat) : Prop :=
  some r ∈ w.objects ∨ w.global = some r ∨ w.classic_rep = some r

namespace LocaleLemmas

theorem ref_count_copy_intern {w : Locales κ} (ip g : Nat) :
    (w.copy_intern ip).1.ref_count g = w.ref_count g + (w.intern ip).m_array.count (some g) :=
  ref_count_reference_all _ g

/-- A facet in one slot is deleted with its last reference. -/
theorem deleted_release_all_once {w : Locales κ} {a : List (Option Nat)} {g : Nat}
    (hcount : a.count (some g) ≤ 1) (hdeleted : (w.release_all a).deleted g = true) :
    w.deleted g = true ∨ some g ∈ a ∧ w.ref_count g = 1 := by
  induction a generalizing w with
  | nil => exact .inl hdeleted
  | cons s a ih =>
    cases s with
    | none =>
      refine (ih ?_ hdeleted).imp id fun h => ⟨List.mem_cons_of_mem _ h.1, h.2⟩
      rwa [List.count_cons_of_ne (by simp)] at hcount
    | some f =>
      have hdeleted : ((w.release f).release_all a).deleted g = true := hdeleted
      rcases eq_or_ne g f with rfl | hne
      · have hmem : some g ∉ a := by
          rw [List.count_cons_self] at hcount
          exact List.count_eq_zero.mp (Nat.le_zero.mp (Nat.le_of_succ_le_succ hcount))
        have hrelease := (deleted_release_all hdeleted).resolve_right hmem
        have hrelease : (if w.ref_count g - 1 = 0 then Function.update w.deleted g true
            else w.deleted) g = true := hrelease
        split at hrelease
        next hzero => exact .inr ⟨List.mem_cons_self, by omega⟩
        next => exact .inl hrelease
      · have hcount' : a.count (some g) ≤ 1 := by
          rwa [List.count_cons_of_ne fun h => hne (Option.some.inj h).symm] at hcount
        have hcount_f : (w.release f).ref_count g = w.ref_count g := by
          rw [ref_count_release, if_neg hne, Int.sub_zero]
        rcases ih hcount' hdeleted with h | ⟨hmem, h⟩
        · exact .inl ((deleted_release h).resolve_right hne)
        · exact .inr ⟨List.mem_cons_of_mem _ hmem, hcount_f ▸ h⟩

/-- A live representation is counted. -/
theorem references_pos {w : Locales κ} {r : Nat} (hr : Live w r) : 0 < references w r := by
  unfold references
  rcases hr with hr | hr | hr
  · have hcount := List.count_pos_iff.mpr hr
    omega
  · rw [if_pos hr]
    omega
  · rw [if_pos hr]
    refine Nat.lt_add_left _ ?_
    split
    · exact Nat.zero_lt_succ 2
    · exact Nat.zero_lt_succ 1

/-- With the last reference to it, a representation is not live any more. -/
theorem not_live_of_drop {w : Locales κ} {r : Nat} {objects : List (Option Nat)} (hu : (w.drop r).undefined = false)
    (h : Referenced (fun _ => 0) { w.drop r with objects := objects })
    (hone : (w.intern r).m_refcount = 1) : ¬ Live { w.drop r with objects := objects } r := by
  intro hlive
  have hpos := references_pos hlive
  have hcount : ((w.drop r).intern r).m_refcount =
      references { w.drop r with objects := objects } r + 0 := h r
  rw [refcount_drop hu, if_pos rfl, hone] at hcount
  omega

theorem cache_ne_of_category (k : Kind κ) (hk : category k ≠ none) (c : CharT) : k ≠ .cache c := by
  rintro rfl
  exact hk rfl

theorem category_parts (n : Named) :
    ∀ b ∈ (Named.parts n : List (Bool × List (FacetBody κ))).flatMap Prod.snd,
      category b.kind ≠ none := by
  simp [Named.parts, FacetBody.kind, category]

theorem nodup_parts (n : Named) :
    (((Named.parts n : List (Bool × List (FacetBody κ))).flatMap Prod.snd).map
      FacetBody.kind).Nodup := by
  simp [Named.parts, FacetBody.kind]

theorem whole_of_parts {n : Named}
    (h : ∀ p ∈ (Named.parts n : List (Bool × List (FacetBody κ))), p.1 = true) : n.whole := by
  simp [Named.parts] at h
  simp [Named.whole, h]

end LocaleLemmas

variable [DecidableEq κ]

/-- The cache for `c` exists and holds the tables of the facets beside it. -/
def CoherentAt (ids : Ids κ) (w : Locales κ) (r : Nat) (c : CharT) : Prop :=
  ∃ f refs x, w.find ids r (.cache c) = some f ∧ w.deleted f = false ∧
    w.cached ids r c = some x ∧ w.facets[f]? = some ⟨.cache c (tables x.1 x.2), refs⟩

/-- The tables that `numpunct` and `ctype` of a representation ask for. -/
def own (ids : Ids κ) (w : Locales κ) (r : Nat) (c : CharT) : Option (Option Cache) :=
  (w.cached ids r c).map fun x => tables x.1 x.2

def Coherent (ids : Ids κ) (w : Locales κ) : Prop := ∀ r, Live w r → ∀ c, CoherentAt ids w r c

/-- The kinds that a cache is about. -/
inductive Numeric : Kind κ → Prop
  | numpunct (c : CharT) : Numeric (.numpunct c)
  | ctype (c : CharT) : Numeric (.ctype c)
  | cache (c : CharT) : Numeric (.cache c)

/-- The slots of `R` and their facets stay. -/
structure Same (ids : Ids κ) (R : Nat → Kind κ → Prop) (w w' : Locales κ) : Prop where
  find : ∀ r k, R r k → w'.find ids r k = w.find ids r k
  facets : ∀ (f : Nat) (x : Facet κ), w.facets[f]? = some x → w'.facets[f]? = some x
  deleted : ∀ r c f, R r (.cache c) → w.find ids r (.cache c) = some f → w.deleted f = false →
    w'.deleted f = false

namespace LocaleLemmas

variable {ids : Ids κ} {K : Kind κ → Prop} {R R' : Nat → Kind κ → Prop} {w w' w'' : Locales κ}
variable {r f n : Nat} {k : Kind κ} {c : CharT}

theorem same_refl (w : Locales κ) : Same ids R w w :=
  ⟨fun _ _ _ => rfl, fun _ _ h => h, fun _ _ _ _ _ h => h⟩

theorem same_trans (h : Same ids R w w') (h' : Same ids R w' w'') : Same ids R w w'' :=
  ⟨fun r k hr => (h'.find r k hr).trans (h.find r k hr),
    fun f x hx => h'.facets f x (h.facets f x hx),
    fun r c f hr hf hd =>
      h'.deleted r c f hr ((h.find r _ hr).trans hf) (h.deleted r c f hr hf hd)⟩

theorem same_mono (h : Same ids R w w') (hR : ∀ r k, R' r k → R r k) : Same ids R' w w' :=
  ⟨fun r k hr => h.find r k (hR r k hr), h.facets, fun r c f hr => h.deleted r c f (hR r _ hr)⟩

/-- Only counts and variables change. -/
theorem same_of_arrays (harray : ∀ r, (w'.intern r).m_array = (w.intern r).m_array)
    (hfacets : w'.facets = w.facets) (hdeleted : w'.deleted = w.deleted) : Same ids R w w' := by
  refine ⟨fun r k _ => find_congr (harray r) k, ?_, fun _ _ f _ _ hd => ?_⟩
  · rw [hfacets]
    exact fun _ _ hx => hx
  · rwa [hdeleted]

theorem same_retain (w : Locales κ) (r : Nat) : Same ids R w (w.retain r) :=
  same_of_arrays (fun _ => array_with_intern rfl) rfl rfl

/-- The classic locale gets its object. -/
theorem same_object (w : Locales κ) (r : Nat) (rep : Option Nat) (object : Bool) :
    Same ids R w { ({ w with classic_rep := rep } : Locales κ).retain r with
      classic_object := object } :=
  same_of_arrays (fun _ => array_with_intern rfl) rfl rfl

theorem facet_of_find {b : FacetBody κ} (hfind : w'.find ids r k = w.find ids n k)
    (hfacets : ∀ (f : Nat) (x : Facet κ), w.facets[f]? = some x → w'.facets[f]? = some x)
    (hb : w.facet ids n k = some b) : w'.facet ids r k = some b := by
  obtain ⟨f, hf, hx⟩ := Option.bind_eq_some_iff.mp hb
  obtain ⟨y, hy, rfl⟩ := Option.map_eq_some_iff.mp hx
  unfold Locales.facet
  rw [hfind, hf]
  show w'.facets[f]?.map _ = _
  rw [hfacets f y hy]
  rfl

theorem cached_eq_some {x : (Char → Int) × Numpunct} : w.cached ids r c = some x ↔
    ∃ c₁ c₂, w.facet ids r (.numpunct c) = some (.numpunct c₁ x.2) ∧
      w.facet ids r (.ctype c) = some (.ctype c₂ x.1) := by
  unfold cached
  constructor
  · intro h
    split at h
    next c₁ p c₂ widen hn hc =>
      cases h
      exact ⟨c₁, c₂, hn, hc⟩
    next => cases h
  · rintro ⟨c₁, c₂, hn, hc⟩
    rw [hn, hc]

/-- The facets for the tables come from another representation. -/
theorem cached_of_find {x : (Char → Int) × Numpunct}
    (hn : w'.find ids r (.numpunct c) = w.find ids n (.numpunct c))
    (hc : w'.find ids r (.ctype c) = w.find ids n (.ctype c))
    (hfacets : ∀ (f : Nat) (x : Facet κ), w.facets[f]? = some x → w'.facets[f]? = some x)
    (hx : w.cached ids n c = some x) : w'.cached ids r c = some x := by
  obtain ⟨c₁, c₂, hx₁, hx₂⟩ := cached_eq_some.mp hx
  exact cached_eq_some.mpr ⟨c₁, c₂, facet_of_find hn hfacets hx₁, facet_of_find hc hfacets hx₂⟩

/-- A locale of which nothing changes stays coherent. -/
theorem coherentAt_same (h : Same ids R w w') (hcache : R r (.cache c)) (hn : R r (.numpunct c))
    (hc : R r (.ctype c)) (hw : CoherentAt ids w r c) : CoherentAt ids w' r c := by
  obtain ⟨f, refs, x, hf, hd, hx, hbody⟩ := hw
  exact ⟨f, refs, x, (h.find r _ hcache).trans hf, h.deleted r c f hcache hf hd,
    cached_of_find (h.find r _ hn) (h.find r _ hc) h.facets hx, h.facets f _ hbody⟩

theorem facet_kind {b : FacetBody κ} (hw : Complete ids K w) (hb : w.facet ids r k = some b) :
    b.kind = k := by
  obtain ⟨f, hf, hx⟩ := Option.bind_eq_some_iff.mp hb
  have hkind := hw.kinded hf
  unfold kind_of at hkind
  obtain ⟨y, hy, rfl⟩ := Option.map_eq_some_iff.mp hx
  rw [hy] at hkind
  exact Option.some.inj hkind

theorem exists_facet (hw : Complete ids K w) (hr : r < w.interns.length) (hk : K k) :
    ∃ b, w.facet ids r k = some b ∧ b.kind = k := by
  obtain ⟨f, hf⟩ := Option.ne_none_iff_exists'.mp (hw.full r hr k hk)
  have hlt := lt_of_kind_of (hw.kinded hf)
  have hb : w.facet ids r k = some w.facets[f].body := by
    unfold Locales.facet
    rw [hf]
    show w.facets[f]?.map _ = _
    rw [List.getElem?_eq_getElem hlt]
    rfl
  exact ⟨_, hb, facet_kind hw hb⟩

/-- The facets for the tables exist. -/
theorem exists_cached (hw : Complete ids IsClassic w) (hr : r < w.interns.length) (c : CharT) :
    ∃ x, w.cached ids r c = some x := by
  obtain ⟨b₁, hb₁, hk₁⟩ := exists_facet hw hr (isClassic_numpunct c)
  obtain ⟨b₂, hb₂, hk₂⟩ := exists_facet hw hr (isClassic_ctype c)
  cases b₁ with
  | numpunct c₁ p =>
    cases b₂ with
    | ctype c₂ widen => exact ⟨(widen, p), cached_eq_some.mpr ⟨c₁, c₂, hb₁, hb₂⟩⟩
    | numpunct => cases hk₂
    | cache => cases hk₂
    | plain => cases hk₂
  | ctype => cases hk₁
  | cache => cases hk₁
  | plain => cases hk₁

/-! Changes of facets and arrays -/

theorem facets_add : (w.add ids r k (some f)).facets = (w.init_facet ids r f).1.facets := by
  unfold add
  dsimp only
  split
  · split
    · exact reference_all_facets
    · split <;> rfl
  · rfl

/-- Another facet is put into the slot of one that is no cache. -/
theorem same_add (hw : Complete ids K w) (hf : w.kind_of f = some k)
    (hk : ∀ c, k ≠ .cache c) (hu : (w.add ids r k (some f)).undefined = false) :
    Same ids (fun r' k' => ¬ (r' = r ∧ k' = k)) w (w.add ids r k (some f)) := by
  have hother : w.init_facet ids r f = (w, true) :=
    init_facet_other fun c hc => hk c (Option.some.inj (hf.symm.trans hc))
  have hok : (w.init_facet ids r f).2 = true := hother ▸ rfl
  have hr := alive_of_add hok hu
  refine ⟨fun r' k' hne => ?_, fun g x hx => ?_, fun r' c g _ hg hd => ?_⟩
  · rw [find_add hr hok, if_neg hne]
  · rw [facets_add, hother]
    exact hx
  · refine Bool.eq_false_iff.mpr fun hdel => ?_
    rcases deleted_add hdel with h | h
    · exact Bool.false_ne_true (hd.symm.trans h)
    · exact hk c (Option.some.inj ((hw.kinded h).symm.trans (hw.kinded hg)))

theorem facets_init_facet {g : Nat} (hne : g ≠ f) :
    (w.init_facet ids r f).1.facets[g]? = w.facets[g]? := by
  unfold init_facet
  split
  · split
    · rfl
    · exact List.getElem?_set_ne hne.symm
  · rfl

/-- A new cache is put into its slot. -/
theorem same_install_cache (hu : (w.install_cache ids r c).undefined = false) :
    Same ids (fun r' k' => ¬ (r' = r ∧ k' = .cache c)) w (w.install_cache ids r c) := by
  refine ⟨fun r' k' hne => ?_, fun g x hx => ?_, fun r' c g _ _ hd => ?_⟩
  · rw [find_install_cache hu, if_neg hne]
  · have hlt := (List.getElem?_eq_some_iff.mp hx).1
    rw [install_cache_eq, facets_init_facet (Nat.ne_of_lt hlt)]
    exact (List.getElem?_append_left hlt).trans hx
  · rwa [deleted_install_cache]

/-- The tables of the new cache are made from the facets beside it. -/
theorem coherentAt_install_cache {x : (Char → Int) × Numpunct} (hw : Complete ids K w)
    (hx : w.cached ids r c = some x) (hu : (w.install_cache ids r c).undefined = false) :
    CoherentAt ids (w.install_cache ids r c) r c := by
  have hsame := same_install_cache hu
  have hfind : (w.install_cache ids r c).find ids r (.cache c) = some w.facets.length := by
    rw [find_install_cache hu, if_pos ⟨rfl, rfl⟩]
  refine ⟨w.facets.length, 0, x, hfind, ?_, ?_, ?_⟩
  · rw [deleted_install_cache]
    exact Bool.eq_false_iff.mpr fun hd => Nat.lt_irrefl _ (hw.deleted _ hd)
  · exact cached_of_find (hsame.find r _ fun h => (by cases h.2))
      (hsame.find r _ fun h => (by cases h.2)) hsame.facets hx
  · have hnew : (empty_cache w ids r c).facets[w.facets.length]? = some ⟨.cache c none, 0⟩ :=
      List.getElem?_concat_length
    have hfind (k : Kind κ) (hk : k ≠ .cache c) :
        (empty_cache w ids r c).find ids r k = w.find ids r k := by
      refine Eq.trans ?_ (hsame.find r k fun h => hk h.2)
      exact (find_congr (congrArg Intern.m_array (intern_congr init_facet_interns r)) k).symm
    have hcached : (empty_cache w ids r c).cached ids r c = some x := by
      refine cached_of_find (hfind _ fun h => (by cases h)) (hfind _ fun h => (by cases h))
        (fun f y hy => ?_) hx
      exact (List.getElem?_append_left (List.getElem?_eq_some_iff.mp hy).1).trans hy
    rw [install_cache_eq]
    unfold init_facet
    rw [hnew]
    dsimp only
    rw [hcached]
    show ((empty_cache w ids r c).facets.set _ _)[w.facets.length]? = _
    rw [List.getElem?_set_self (List.getElem?_eq_some_iff.mp hnew).1]

/-- New caches for both character types, made from the facets beside them. -/
theorem init_intern_spec (hw : Complete ids IsClassic w) (hr : r < w.interns.length)
    (hu : (w.init_intern ids r).undefined = false) :
    Same ids (fun r' k => r' ≠ r ∨ ∀ c, k ≠ .cache c) w (w.init_intern ids r) ∧
      ∀ c, CoherentAt ids (w.init_intern ids r) r c := by
  have hu₁ : (w.install_cache ids r .char).undefined = false :=
    (frame_install_cache .wchar_t).undefined hu
  have hw₁ : Complete ids IsClassic (w.install_cache ids r .char) := complete_install_cache hw hu₁
  have hsame₁ := same_install_cache hu₁
  have hsame₂ := same_install_cache (w := w.install_cache ids r .char) (c := .wchar_t) hu
  have hR (c : CharT) (r' : Nat) (k : Kind κ) (h : r' ≠ r ∨ ∀ c, k ≠ .cache c) :
      ¬ (r' = r ∧ k = .cache c) := fun h' => h.elim (fun hne => hne h'.1) fun hk => hk c h'.2
  refine ⟨same_trans (same_mono hsame₁ (hR .char)) (same_mono hsame₂ (hR .wchar_t)), fun c => ?_⟩
  cases c with
  | char =>
    obtain ⟨x, hx⟩ := exists_cached hw hr .char
    exact coherentAt_same hsame₂ (fun h => (by cases h.2)) (fun h => (by cases h.2))
      (fun h => (by cases h.2)) (coherentAt_install_cache hw hx hu₁)
  | wchar_t =>
    have hr₁ : r < (w.install_cache ids r .char).interns.length := by
      rw [length_install_cache]
      exact hr
    obtain ⟨x, hx⟩ := exists_cached hw₁ hr₁ .wchar_t
    exact coherentAt_install_cache hw₁ hx hu

/-- Changes of other arrays, where no cache is added. -/
theorem same_change {K₀ : Kind κ → Prop} (hw : Complete ids K₀ w) (hc : Change ids n K w w')
    (hK : ∀ k, K k → ∀ c, k ≠ .cache c) (hn : n ≤ w.interns.length) (hu : w'.undefined = false) :
    Same ids (fun r _ => r < n) w w' := by
  have hadd {r : Nat} (hr : n ≤ r) (k : Kind κ) (r' : Nat) (k' : Kind κ) (hlt : r' < n) :
      ¬ (r' = r ∧ k' = k) := fun h => Nat.not_lt.mpr hr (h.1 ▸ hlt)
  cases hc with
  | new_facet body refs =>
    refine ⟨fun _ _ _ => rfl, fun f x hx => ?_, fun _ _ _ _ _ hd => hd⟩
    exact (List.getElem?_append_left (List.getElem?_eq_some_iff.mp hx).1).trans hx
  | copy_intern ip =>
    refine ⟨fun r k hr => ?_, fun f x hx => ?_, fun r c f _ _ hd => ?_⟩
    · rw [find_copy_intern, if_neg (Nat.ne_of_lt (Nat.lt_of_lt_of_le hr hn))]
    · rw [facets_copy_intern]
      exact hx
    · rwa [deleted_copy_intern]
  | @add r k f hr hk hf => exact same_mono (same_add hw hf (hK k hk) hu) (hadd hr k)
  | @add_found r k l f hr hk hf =>
    exact same_mono (same_add hw (hw.kinded hf) (hK k hk) hu) (hadd hr k)
  | @install_cache r c hr => exact same_mono (same_install_cache hu) (hadd hr (.cache c))

theorem length_change (hc : Change ids n K w w') : w.interns.length ≤ w'.interns.length := by
  cases hc with
  | new_facet => exact Nat.le_refl _
  | copy_intern ip =>
    rw [length_copy_intern]
    exact Nat.le_succ _
  | add => exact Nat.le_of_eq length_add.symm
  | add_found => exact Nat.le_of_eq length_add.symm
  | install_cache c => exact Nat.le_of_eq (length_install_cache c).symm

theorem length_changes (hc : Changes ids n K w w') (hr : r < w.interns.length) :
    r < w'.interns.length := by
  induction hc with
  | refl => exact hr
  | tail _ hs ih => exact Nat.lt_of_lt_of_le ih (length_change hs)

theorem same_changes {K₀ : Kind κ → Prop} (hw : Complete ids K₀ w) (hc : Changes ids n K w w')
    (hK : ∀ k, K k → ∀ c, k ≠ .cache c) (hn : n ≤ w.interns.length) (hu : w'.undefined = false) :
    Same ids (fun r _ => r < n) w w' ∧ Complete ids K₀ w' ∧
      w.interns.length ≤ w'.interns.length := by
  induction hc with
  | refl => exact ⟨same_refl w, hw, Nat.le_refl _⟩
  | tail _ hs ih =>
    obtain ⟨hsame, hw₁, hlength⟩ := ih (hs.frame.undefined hu)
    exact ⟨same_trans hsame (same_change hw₁ hs hK (Nat.le_trans hn hlength) hu),
      complete_change hw₁ hs hu, Nat.le_trans hlength (length_change hs)⟩

/-! New facets -/

/-- The facets that are no caches stay as they are. -/
theorem facets_add_of_other {g : Nat} {x : Facet κ} (hx : w.facets[g]? = some x)
    (hcache : ∀ c, x.body.kind ≠ .cache c) :
    (w.add ids r k (some f)).facets[g]? = some x := by
  rw [facets_add]
  rcases eq_or_ne g f with rfl | hne
  · have hother : w.init_facet ids r g = (w, true) := by
      refine init_facet_other fun c hc => hcache c ?_
      rw [kind_of, hx] at hc
      exact Option.some.inj hc
    rw [hother]
    exact hx
  · rw [facets_init_facet hne]
    exact hx

theorem facet_add_other {k' : Kind κ} {b : FacetBody κ} (hr : r < w.interns.length)
    (hb : w.facet ids r k = some b) (hcache : ∀ c, b.kind ≠ .cache c) (hne : k ≠ k') :
    (w.add ids r k' (some f)).facet ids r k = some b := by
  obtain ⟨g, hg, hx⟩ := Option.bind_eq_some_iff.mp hb
  obtain ⟨y, hy, rfl⟩ := Option.map_eq_some_iff.mp hx
  have hfind : (w.add ids r k' (some f)).find ids r k = some g := by
    cases hok : (w.init_facet ids r f).2 with
    | true =>
      rw [find_add hr hok, if_neg fun h => hne h.2]
      exact hg
    | false =>
      rw [add_refused hok]
      exact hg
  unfold Locales.facet
  rw [hfind]
  show (w.add ids r k' (some f)).facets[g]?.map _ = _
  rw [facets_add_of_other hy hcache]
  rfl

theorem facet_add_self {b : FacetBody κ} {refs : Nat} (hr : r < w.interns.length)
    (hf : w.facets[f]? = some ⟨b, refs⟩) (hcache : ∀ c, b.kind ≠ .cache c) :
    (w.add ids r b.kind (some f)).facet ids r b.kind = some b := by
  have hother : w.init_facet ids r f = (w, true) := by
    refine init_facet_other fun c hc => hcache c ?_
    rw [kind_of, hf] at hc
    exact Option.some.inj hc
  unfold Locales.facet
  rw [find_add hr (hother ▸ rfl), if_pos ⟨rfl, rfl⟩]
  show (w.add ids r b.kind (some f)).facets[f]?.map _ = _
  rw [facets_add_of_other hf hcache]
  rfl

/-- What a representation has after new facets with different classes have been added. -/
theorem facet_add_new (ids : Ids κ) {bs : List (FacetBody κ)} (hr : r < w.interns.length)
    (hnodup : (bs.map FacetBody.kind).Nodup) :
    (∀ b ∈ bs, (∀ c, b.kind ≠ .cache c) → (add_new ids r w bs).facet ids r b.kind = some b) ∧
      ∀ k b, w.facet ids r k = some b → (∀ c, b.kind ≠ .cache c) → k ∉ bs.map FacetBody.kind →
        (add_new ids r w bs).facet ids r k = some b := by
  induction bs generalizing w with
  | nil => exact ⟨fun b hb => absurd hb List.not_mem_nil, fun _ _ hb _ _ => hb⟩
  | cons b bs ih =>
    let w₁ := (w.new_facet b 0).1
    obtain ⟨hb, hnodup⟩ := List.nodup_cons.mp hnodup
    have hr₂ : r < (w₁.add ids r b.kind (some w.facets.length)).interns.length := by
      rw [length_add]
      exact hr
    obtain ⟨hnew, hkeep⟩ := ih hr₂ hnodup
    have hlast : w₁.facets[w.facets.length]? = some ⟨b, 0⟩ := List.getElem?_concat_length
    refine ⟨fun b' hb' hcache => ?_, fun k b' hk hcache hmem => ?_⟩
    · rcases List.mem_cons.mp hb' with rfl | hb'
      · exact hkeep _ _ (facet_add_self (w := w₁) hr hlast hcache) hcache hb
      · exact hnew b' hb' hcache
    · refine hkeep k b' (facet_add_other (w := w₁) hr ?_ hcache fun h => ?_) hcache fun h => ?_
      · refine facet_of_find (w := w) (n := r) rfl (fun f x hx => ?_) hk
        exact (List.getElem?_append_left (List.getElem?_eq_some_iff.mp hx).1).trans hx
      · exact hmem (h ▸ List.mem_cons_self)
      · exact hmem (List.mem_cons_of_mem _ h)

theorem find_add_new {bs : List (FacetBody κ)} (hr : r < w.interns.length)
    (hk : k ∉ bs.map FacetBody.kind) : (add_new ids r w bs).find ids r k = w.find ids r k := by
  induction bs generalizing w with
  | nil => rfl
  | cons b bs ih =>
    let w₁ := (w.new_facet b 0).1
    have hne : k ≠ b.kind := fun h => hk (h ▸ List.mem_cons_self)
    have hr₂ : r < (w₁.add ids r b.kind (some w.facets.length)).interns.length := by
      rw [length_add]
      exact hr
    refine (ih hr₂ fun h => hk (List.mem_cons_of_mem _ h)).trans ?_
    cases hok : (w₁.init_facet ids r w.facets.length).2 with
    | true =>
      rw [find_add (w := w₁) hr hok, if_neg fun h => hne h.2]
      rfl
    | false =>
      rw [add_refused hok]
      rfl

theorem add_new_append (bs bs' : List (FacetBody κ)) :
    add_new ids r w (bs ++ bs') = add_new ids r (add_new ids r w bs) bs' := by
  induction bs generalizing w with
  | nil => rfl
  | cons b bs ih => exact ih

/-- The facets of a name with all parts. -/
theorem add_parts_eq {ps : List (Bool × List (FacetBody κ))}
    (h : (add_parts ids r w ps).2 = false) :
    (∀ p ∈ ps, p.1 = true) ∧
      (add_parts ids r w ps).1 = add_new ids r w (ps.flatMap Prod.snd) := by
  induction ps generalizing w with
  | nil => exact ⟨fun p hp => absurd hp List.not_mem_nil, rfl⟩
  | cons p ps ih =>
    obtain ⟨b, bs⟩ := p
    cases b with
    | false => cases h
    | true =>
      obtain ⟨hall, heq⟩ := ih h
      refine ⟨fun p hp => ?_, ?_⟩
      · rcases List.mem_cons.mp hp with rfl | hp
        · rfl
        · exact hall p hp
      · refine heq.trans ?_
        rw [List.flatMap_cons, add_new_append]

theorem lt_of_find (h : w.find ids r k = some f) : r < w.interns.length := by
  refine Nat.lt_of_not_le fun hle => ?_
  have hnone : w.intern r = ⟨0, [], true⟩ := by
    unfold Locales.intern
    rw [List.getD_eq_getElem?_getD, List.getElem?_eq_none hle]
    rfl
  rw [Locales.find, hnone] at h
  cases h

end LocaleLemmas

/-! ## The operations -/

/-- The locales are complete and coherent, and the facets of the classic one are its own. -/
structure Good (ids : Ids κ) (w : Locales κ) : Prop where
  complete : Complete ids IsClassic w
  coherent : Coherent ids w
  classic : ∀ r, w.classic_rep = some r → ∀ c, w.cached ids r c = some (widen, classic_numpunct)

namespace LocaleLemmas

variable {ids : Ids κ} {R : Nat → Kind κ → Prop} {w w' : Locales κ} {r f : Nat} {c : CharT}

theorem lt_of_coherentAt (h : CoherentAt ids w r c) : r < w.interns.length := by
  obtain ⟨f, _, _, hf, -⟩ := h
  exact lt_of_find hf

/-- Every locale is an old one that stays or a coherent new one. -/
theorem good_of_same (h : Good ids w) (hcomplete : Complete ids IsClassic w')
    (hsame : Same ids R w w')
    (hlive : ∀ r, Live w' r → Live w r ∧ (∀ k, Numeric k → R r k) ∨ ∀ c, CoherentAt ids w' r c)
    (hclassic : ∀ r, w'.classic_rep = some r →
      w.classic_rep = some r ∧ ∀ c, R r (.numpunct c) ∧ R r (.ctype c)) : Good ids w' := by
  refine ⟨hcomplete, fun r hr c => ?_, fun r hr c => ?_⟩
  · rcases hlive r hr with ⟨hold, hR⟩ | hnew
    · exact coherentAt_same hsame (hR _ (.cache c)) (hR _ (.numpunct c)) (hR _ (.ctype c))
        (h.coherent r hold c)
    · exact hnew c
  · obtain ⟨hold, hR⟩ := hclassic r hr
    exact cached_of_find (hsame.find r _ (hR c).1) (hsame.find r _ (hR c).2) hsame.facets
      (h.classic r hold c)

/-- Only the counts, the objects and the variables change. -/
theorem good_of_arrays (h : Good ids w) (hcomplete : Complete ids IsClassic w')
    (harray : ∀ r, (w'.intern r).m_array = (w.intern r).m_array) (hfacets : w'.facets = w.facets)
    (hdeleted : w'.deleted = w.deleted) (hclassic : w'.classic_rep = w.classic_rep)
    (hlive : ∀ r, Live w' r → Live w r ∨ ∀ c, CoherentAt ids w r c) : Good ids w' := by
  have hsame : Same ids (fun _ _ => True) w w' := same_of_arrays harray hfacets hdeleted
  refine good_of_same h hcomplete hsame (fun r hr => ?_) fun r hr =>
    ⟨hclassic ▸ hr, fun _ => ⟨trivial, trivial⟩⟩
  rcases hlive r hr with hold | hnew
  · exact .inl ⟨hold, fun _ _ => trivial⟩
  · exact .inr fun c => coherentAt_same hsame trivial trivial trivial (hnew c)

theorem good_retain (h : Good ids w) (hu : (w.retain r).undefined = false) :
    Good ids (w.retain r) :=
  good_of_arrays h (complete_prim h.complete (.retain w r) hu) (fun _ => array_with_intern rfl) rfl
    rfl rfl fun _ => .inl

/-- A coherent locale object is added. -/
theorem good_object (h : Good ids w) (hr : ∀ c, CoherentAt ids w r c)
    (hu : (w.retain r).undefined = false) : Good ids (object (w, r)) := by
  refine good_of_arrays h (complete_prim h.complete (.object w r) hu)
    (fun _ => array_with_intern rfl) rfl rfl rfl fun s hs => ?_
  rcases hs with hs | hs
  · rcases List.mem_append.mp hs with hs | hs
    · exact .inl (.inl hs)
    · cases List.mem_singleton.mp hs
      exact .inr hr
  · exact .inl (.inr hs)

theorem good_static (h : Good ids w) (g : Option Nat) (b : Bool) (hr : w.classic_rep = some r)
    (hg : ∀ s, g = some s → Live w s) (hu : w.undefined = false) :
    Good ids { w with global := g, classic_object := b } := by
  have hcomplete : Complete ids IsClassic { w with global := g, classic_object := b } := by
    have hstatic := complete_prim h.complete (.static w g r b) hu
    rwa [← hr] at hstatic
  refine good_of_arrays h hcomplete (fun _ => rfl) rfl rfl rfl fun s hs => .inl ?_
  rcases hs with hs | hs | hs
  · exact .inl hs
  · exact hg s hs
  · exact .inr (.inr hs)

theorem good_init_intern (h : Good ids w) (hr : r < w.interns.length)
    (hu : (w.init_intern ids r).undefined = false) : Good ids (w.init_intern ids r) := by
  obtain ⟨hsame, hnew⟩ := init_intern_spec h.complete hr hu
  have hframe : Frame w (w.init_intern ids r) :=
    (changes_init_intern (n := 0) (K := fun _ => True) (Nat.zero_le r)).frame
  refine good_of_same h ((prims_init_intern r).invariant hu
    (fun _ _ hp hu h => complete_prim h hp hu) h.complete) hsame (fun s hs => ?_) fun s hs =>
    ⟨hframe.classic_rep ▸ hs, fun c => ⟨.inr fun c h => (by cases h), .inr fun c h => (by cases h)⟩⟩
  rcases eq_or_ne s r with rfl | hne
  · exact .inr hnew
  · refine .inl ⟨?_, fun _ _ => .inl hne⟩
    unfold Live at hs ⊢
    rwa [hframe.objects, hframe.global, hframe.classic_rep] at hs

/-- The classic locale is the first one. -/
theorem good_first (hcomplete : Complete ids IsClassic { w with classic_rep := some 0 })
    (hobjects : w.objects = []) (hglobal : w.global = none) (hcoherent : ∀ c, CoherentAt ids w 0 c)
    (hcached : ∀ c, w.cached ids 0 c = some (widen, classic_numpunct)) :
    Good ids { w with classic_rep := some 0 } := by
  refine ⟨hcomplete, fun r hr c => ?_, fun r hr c => ?_⟩
  · have hzero : r = 0 := by
      rcases hr with hr | hr | hr
      · exact absurd (hobjects ▸ hr) List.not_mem_nil
      · exact absurd (hglobal.symm.trans hr).symm (Option.some_ne_none r)
      · exact (Option.some.inj hr).symm
    rw [hzero]
    exact hcoherent c
  · obtain rfl : 0 = r := Option.some.inj hr
    exact hcached c

theorem cached_classic_facets (hr : r < w.interns.length) (c : CharT) :
    (add_new ids r w classic_facets).cached ids r c = some (widen, classic_numpunct) := by
  obtain ⟨hnew, -⟩ := facet_add_new ids hr nodup_classic
  refine cached_eq_some.mpr ⟨c, c, hnew (.numpunct c classic_numpunct) ?_ fun _ h => (by cases h),
    hnew (.ctype c widen) ?_ fun _ h => (by cases h)⟩
  · cases c <;> simp only [classic_facets, List.mem_cons, true_or, or_true]
  · cases c <;> simp only [classic_facets, List.mem_cons, true_or, or_true]

theorem good_get_classic_rep (hw : Fresh w ∨ w.classic_rep ≠ none ∧ Good ids w)
    (hu : (w.get_classic_rep ids).1.undefined = false) :
    Good ids (w.get_classic_rep ids).1 := by
  rcases hw with hw | ⟨hw, h⟩
  · have hcomplete := complete_classic hw hu
    rw [get_classic_rep_fresh hw] at hu hcomplete ⊢
    dsimp only at hu
    let w₀ := (w.new_intern.1.retain 0).retain 0
    have hadd : Changes ids 0 (fun _ => True) w₀ (add_new ids 0 w₀ classic_facets) :=
      changes_add_new (Nat.zero_le 0) fun _ _ => trivial
    have hinit : Changes ids 0 (fun _ => True) (add_new ids 0 w₀ classic_facets)
        ((add_new ids 0 w₀ classic_facets).init_intern ids 0) := changes_init_intern (Nat.zero_le 0)
    have hframe := (hadd.trans hinit).frame
    have hlength : 0 < w₀.interns.length := (length_first hw).symm ▸ Nat.zero_lt_one
    have hobjects : w₀.objects = w.objects := rfl
    have hglobal : w₀.global = w.global := rfl
    obtain ⟨hsame, hnew⟩ := init_intern_spec
      (complete_classic_facets hw (hinit.frame.undefined hu)) (length_changes hadd hlength) hu
    refine good_first hcomplete (hframe.objects.trans (hobjects.trans hw.objects))
      (hframe.global.trans (hglobal.trans hw.global)) hnew fun c => ?_
    exact cached_of_find (hsame.find 0 _ (.inr fun c h => (by cases h)))
      (hsame.find 0 _ (.inr fun c h => (by cases h))) hsame.facets
      (cached_classic_facets hlength c)
  · obtain ⟨r, hr⟩ := Option.ne_none_iff_exists'.mp hw
    rw [get_classic_rep_some hr] at hu ⊢
    have hinit : Changes ids 0 (fun _ => True) w (w.init_intern ids r) :=
      changes_init_intern (Nat.zero_le r)
    have hsame : (w.init_intern ids r).classic_rep = some r := hinit.frame.classic_rep.trans hr
    have hlt : r < w.interns.length := lt_of_coherentAt (h.coherent r (.inr (.inr hr)) .char)
    rw [← hsame]
    exact good_init_intern h hlt hu

theorem good_get_classic (hw : Fresh w ∨ w.classic_rep ≠ none ∧ Good ids w)
    (hu : (w.get_classic ids).1.undefined = false) :
    Good ids (w.get_classic ids).1 ∧
      (w.get_classic ids).1.classic_rep = some (w.get_classic ids).2 := by
  unfold get_classic at hu ⊢
  split at hu
  next r _ hr =>
    refine ⟨(hw.resolve_left fun h => ?_).2, hr⟩
    exact Option.some_ne_none r (hr.symm.trans h.classic_rep)
  next =>
    have hu₁ : ((w.get_classic_rep ids).1.retain (w.get_classic_rep ids).2).undefined = false := hu
    have hrep := good_get_classic_rep hw ((frame_with_intern _ _).undefined hu₁)
    refine ⟨?_, rfl⟩
    exact good_static (r := (w.get_classic_rep ids).2) (good_retain hrep hu₁)
      (w.get_classic_rep ids).1.global true rfl (fun s hs => .inr (.inl hs)) hu₁

theorem good_get_global_rep (hw : Fresh w ∨ w.classic_rep ≠ none ∧ Good ids w)
    (hu : (w.get_global_rep ids).1.undefined = false) :
    Good ids (w.get_global_rep ids).1 ∧
      (w.get_global_rep ids).1.global = some (w.get_global_rep ids).2 := by
  unfold get_global_rep at hu ⊢
  split at hu
  next r hr =>
    refine ⟨(hw.resolve_left fun h => ?_).2, hr⟩
    exact Option.some_ne_none r (hr.symm.trans h.global)
  next =>
    have hu₁ : ((w.get_classic_rep ids).1.retain (w.get_classic_rep ids).2).undefined = false := hu
    have hrep := good_get_classic_rep hw ((frame_with_intern _ _).undefined hu₁)
    refine ⟨?_, rfl⟩
    refine good_static (r := (w.get_classic_rep ids).2) (good_retain hrep hu₁)
      (some (w.get_classic_rep ids).2) (w.get_classic_rep ids).1.classic_object rfl
      (fun s hs => ?_) hu₁
    cases hs
    exact .inr (.inr rfl)

/-- Nothing is added to the locales that exist, and no cache to a new one. -/
theorem good_changes {K : Kind κ → Prop} (h : Good ids w)
    (hc : Changes ids w.interns.length K w w') (hK : ∀ k, K k → ∀ c, k ≠ .cache c)
    (hu : w'.undefined = false) :
    Good ids w' ∧ Same ids (fun r _ => r < w.interns.length) w w' := by
  obtain ⟨hsame, hcomplete, -⟩ := same_changes h.complete hc hK (Nat.le_refl _) hu
  have hlt {r : Nat} (hr : Live w r) : r < w.interns.length :=
    lt_of_coherentAt (h.coherent r hr .char)
  refine ⟨good_of_same h hcomplete hsame (fun r hr => .inl ?_) fun r hr => ?_, hsame⟩
  · have hold : Live w r := by
      unfold Live at hr ⊢
      rwa [hc.frame.objects, hc.frame.global, hc.frame.classic_rep] at hr
    exact ⟨hold, fun _ _ => hlt hold⟩
  · have hold : w.classic_rep = some r := hc.frame.classic_rep ▸ hr
    exact ⟨hold, fun _ => ⟨hlt (.inr (.inr hold)), hlt (.inr (.inr hold))⟩⟩

/-! The counts of the caches -/

theorem count_of_index {a : List (Option Nat)} {i g : Nat}
    (h : ∀ j, a[j]? = some (some g) → j = i) :
    a.count (some g) = if a[i]? = some (some g) then 1 else 0 := by
  induction a generalizing i with
  | nil => rfl
  | cons s a ih =>
    have hrest (hi : i = 0) : a.count (some g) = 0 := by
      refine List.count_eq_zero.mpr fun hmem => ?_
      obtain ⟨j, hj⟩ := List.getElem?_of_mem hmem
      exact absurd ((h (j + 1) hj).trans hi) (Nat.succ_ne_zero j)
    rw [List.count_cons]
    cases i with
    | zero =>
      rw [hrest rfl, Nat.zero_add]
      simp only [beq_iff_eq, List.getElem?_cons_zero, Option.some.injEq]
    | succ i =>
      have hs : s ≠ some g := fun hs => absurd (h 0 (congrArg some hs)) (Nat.succ_ne_zero i).symm
      rw [ih fun j hj => Nat.succ.inj (h (j + 1) hj), if_neg fun hb => hs (beq_iff_eq.mp hb)]
      rfl

/-- A representation holds a facet in one slot at most. -/
theorem count_slot {K : Kind κ → Prop} {g : Nat} {k : Kind κ} (hw : Complete ids K w)
    (hg : w.kind_of g = some k) (r : Nat) :
    (w.intern r).m_array.count (some g) = if w.find ids r k = some g then 1 else 0 := by
  have hone (j : Nat) (hj : (w.intern r).m_array[j]? = some (some g)) : j = ids.identifier k := by
    obtain ⟨k', hk', hid⟩ := hw.slots r j g hj
    rw [hid, Option.some.inj (hk'.symm.trans hg)]
  rw [count_of_index hone]
  simp only [Locales.find, Option.join_eq_some_iff]

/-- Adding other facets does not lower the count of a cache. -/
theorem le_ref_count_add {K : Kind κ → Prop} {g : Nat} {k : Kind κ} (hw : Complete ids K w)
    (hk : ∀ c, k ≠ .cache c) (hf : w.kind_of f = some k) (hg : w.kind_of g = some (.cache c)) :
    w.ref_count g ≤ (w.add ids r k (some f)).ref_count g := by
  have hother : w.init_facet ids r f = (w, true) :=
    init_facet_other fun c hc => hk c (Option.some.inj (hf.symm.trans hc))
  have hne {f' : Nat} (hf' : w.kind_of f' = some k) : g ≠ f' := fun h =>
    hk c (Option.some.inj (hf'.symm.trans (h ▸ hg)))
  have hreference : (w.reference f).ref_count g = w.ref_count g := by
    rw [ref_count_reference, if_neg (hne hf), Int.add_zero]
  unfold add
  dsimp only
  rw [hother]
  dsimp only
  rw [if_pos rfl]
  split
  · show _ ≤ ((w.reference f).reference_all _).ref_count g
    rw [ref_count_reference_all, hreference]
    exact Int.le_add_of_nonneg_right (Int.natCast_nonneg _)
  · cases hold : w.find ids r k with
    | none =>
      have hslot : ((w.reference f).intern r).m_array[ids.identifier k]?.join = none := hold
      rw [hslot]
      exact Int.le_of_eq hreference.symm
    | some old =>
      have hslot : ((w.reference f).intern r).m_array[ids.identifier k]?.join = some old := hold
      rw [hslot]
      show _ ≤ ((w.reference f).release old).ref_count g
      rw [ref_count_release, if_neg (hne (hw.kinded hold)), Int.sub_zero, hreference]

theorem le_ref_count_changes {K K₀ : Kind κ → Prop} {g n : Nat} (hw : Complete ids K₀ w)
    (hc : Changes ids n K w w') (hK : ∀ k, K k → ∀ c, k ≠ .cache c)
    (hg : w.kind_of g = some (.cache c)) (hu : w'.undefined = false) :
    w.ref_count g ≤ w'.ref_count g := by
  have hnew {w : Locales κ} (hg : w.kind_of g = some (.cache c)) (b : FacetBody κ) (refs : Nat) :
      w.ref_count g ≤ (w.new_facet b refs).1.ref_count g :=
    Int.le_of_eq (Function.update_of_ne (Nat.ne_of_lt (lt_of_kind_of hg)) _ _).symm
  suffices h : Complete ids K₀ w' ∧ w'.kind_of g = some (.cache c) ∧
      w.ref_count g ≤ w'.ref_count g from h.2.2
  refine hc.invariant (P := fun w' => Complete ids K₀ w' ∧ w'.kind_of g = some (.cache c) ∧
    w.ref_count g ≤ w'.ref_count g) hu (fun w₁ w₂ hc hu h => ?_) ⟨hw, hg, Int.le_refl _⟩
  obtain ⟨hw₁, hg₁, hle⟩ := h
  have hw₂ := complete_change hw₁ hc hu
  cases hc with
  | new_facet b refs =>
    exact ⟨hw₂, kind_of_new_facet b refs hg₁, Int.le_trans hle (hnew hg₁ b refs)⟩
  | copy_intern ip =>
    refine ⟨hw₂, (kind_of_copy_intern ip g).trans hg₁, Int.le_trans hle ?_⟩
    rw [ref_count_copy_intern]
    exact Int.le_add_of_nonneg_right (Int.natCast_nonneg _)
  | add hr hk hf =>
    exact ⟨hw₂, (add_kind g).trans hg₁, Int.le_trans hle (le_ref_count_add hw₁ (hK _ hk) hf hg₁)⟩
  | add_found hr hk hf =>
    exact ⟨hw₂, (add_kind g).trans hg₁,
      Int.le_trans hle (le_ref_count_add hw₁ (hK _ hk) (hw₁.kinded hf) hg₁)⟩
  | install_cache c' hr =>
    refine ⟨hw₂, ?_, Int.le_trans hle ?_⟩
    · rw [kind_of_install_cache]
      exact kind_of_new_facet _ 0 hg₁
    · rw [install_cache_eq, ref_count_init_facet]
      exact hnew hg₁ (.cache c' none) 0

/-! Locales by name -/

end LocaleLemmas

/-- A copy of the classic locale with the facets of a name. -/
structure IsNamed (ids : Ids κ) (w w' : Locales κ) (r rep : Nat) (n : Named) : Prop where
  cached : ∀ c, w'.cached ids rep c = some (n.widen c, n.numpunct c)
  find : ∀ c, w'.find ids rep (.cache c) = w.find ids r (.cache c)
  count : ∀ c g, w.find ids r (.cache c) = some g → w.ref_count g + 1 ≤ w'.ref_count g

namespace LocaleLemmas

variable {ids : Ids κ} {w w' : Locales κ} {r f : Nat} {c : CharT}

/-- The state after the copy of the classic locale has got its facets. -/
theorem isNamed_add_parts {n : Named} (h : Good ids w)
    (hparts : (add_parts ids w.interns.length (w.copy_intern r).1 (Named.parts n)).2 = false)
    (hu : (add_parts ids w.interns.length (w.copy_intern r).1 (Named.parts n)).1.undefined = false) :
    IsNamed ids w (add_parts ids w.interns.length (w.copy_intern r).1 (Named.parts n)).1 r
      w.interns.length n := by
  obtain ⟨-, heq⟩ := add_parts_eq hparts
  have hadd : Changes ids 0 (fun k => category k ≠ none) (w.copy_intern r).1
      (add_new ids w.interns.length (w.copy_intern r).1 ((Named.parts n).flatMap Prod.snd)) :=
    changes_add_new (Nat.zero_le _) (category_parts n)
  have hlength : w.interns.length < (w.copy_intern r).1.interns.length := by
    rw [length_copy_intern]
    exact Nat.lt_succ_self _
  have hcopy : Complete ids IsClassic (w.copy_intern r).1 :=
    complete_copy_intern h.complete (hadd.frame.undefined (heq ▸ hu))
  rw [heq] at hu ⊢
  obtain ⟨hnew, -⟩ := facet_add_new ids hlength (nodup_parts n)
  refine ⟨fun c => ?_, fun c => ?_, fun c g hg => ?_⟩
  · refine cached_eq_some.mpr ⟨c, c, hnew (.numpunct c (n.numpunct c)) ?_ fun _ h => (by cases h),
      hnew (.ctype c (n.widen c)) ?_ fun _ h => (by cases h)⟩
    · cases c <;> simp [Named.parts]
    · cases c <;> simp [Named.parts]
  · rw [find_add_new hlength fun hmem => ?_, find_copy_intern, if_pos rfl]
    obtain ⟨b, hb, hkind⟩ := List.mem_map.mp hmem
    exact cache_ne_of_category _ (category_parts n b hb) c hkind
  · have hkind : w.kind_of g = some (.cache c) := h.complete.kinded hg
    refine Int.le_trans (Int.le_of_eq ?_)
      (le_ref_count_changes hcopy hadd cache_ne_of_category ((kind_of_copy_intern r g).trans hkind) hu)
    rw [ref_count_copy_intern, count_slot h.complete hkind, if_pos hg]
    rfl

/-- The result of `locale(n)`, seen from the classic locale. -/
theorem good_named {n : Named} (hw : Fresh w ∨ w.classic_rep ≠ none ∧ Good ids w)
    (hu : (w.named ids (some n)).1.undefined = false) :
    ∃ w₃, Good ids w₃ ∧ Frame (w.get_classic ids).1 w₃ ∧
      Same ids (fun r _ => r < (w.get_classic ids).1.interns.length) (w.get_classic ids).1 w₃ ∧
      (w.named ids (some n) = (w₃, none) ∨
        w.named ids (some n) =
          (w₃.retain (w.get_classic ids).1.interns.length,
            some (w.get_classic ids).1.interns.length) ∧
        (∀ p ∈ (Named.parts n : List (Bool × List (FacetBody κ))), p.1 = true) ∧
        IsNamed ids (w.get_classic ids).1 w₃ (w.get_classic ids).2
          (w.get_classic ids).1.interns.length n) := by
  let w₁ := (w.get_classic ids).1
  let r := (w.get_classic ids).2
  let w₃ := (add_parts ids w₁.interns.length (w₁.copy_intern r).1 (Named.parts n)).1
  have hparts : Changes ids w₁.interns.length (fun k => category k ≠ none) w₁ w₃ := by
    refine (Changes.single (.copy_intern w₁ r)).trans (changes_add_parts (Nat.le_refl _) ?_)
    intro p hp b hb
    exact category_parts n b (List.mem_flatMap.mpr ⟨p, hp, hb⟩)
  have hgood (hu : w₃.undefined = false) : Good ids w₁ ∧ w₁.classic_rep = some r ∧ Good ids w₃ ∧
      Same ids (fun r _ => r < w₁.interns.length) w₁ w₃ := by
    obtain ⟨hclassic, hr⟩ := good_get_classic hw (hparts.frame.undefined hu)
    exact ⟨hclassic, hr, good_changes hclassic hparts cache_ne_of_category hu⟩
  unfold named at hu ⊢
  dsimp only at hu ⊢
  split at hu
  next hthrew =>
    obtain ⟨-, -, hw₃, hsame⟩ := hgood hu
    refine ⟨w₃, hw₃, hparts.frame, hsame, .inl ?_⟩
    rw [if_pos hthrew]
    rfl
  next hthrew =>
    have hu₃ : w₃.undefined = false := (frame_with_intern _ _).undefined hu
    obtain ⟨hclassic, hr, hw₃, hsame⟩ := hgood hu₃
    have hall := Bool.not_eq_true _ ▸ hthrew
    refine ⟨w₃, hw₃, hparts.frame, hsame, .inr ⟨?_, (add_parts_eq hall).1,
      isNamed_add_parts hclassic hall hu₃⟩⟩
    rw [if_neg hthrew]
    rfl

/-! Combined locales -/

theorem own_eq_some {x : (Char → Int) × Numpunct} (h : w.cached ids r c = some x) :
    own ids w r c = some (tables x.1 x.2) := by
  rw [own, h]
  rfl

/-- The cache of `l1` fits where the other facets come from a locale with the same tables. -/
theorem good_combine {l1 l2 : Nat} {cat : Category} (h : Good ids w)
    (hl1 : ∀ c, CoherentAt ids w l1 c) (hl2 : l2 < w.interns.length)
    (hown : Has cat collate → ∀ c, own ids w l1 c = own ids w l2 c)
    (hu : (w.combine ids l1 l2 cat).1.undefined = false) :
    Good ids (w.combine ids l1 l2 cat).1 ∧
      Same ids (fun r _ => r < w.interns.length) w (w.combine ids l1 l2 cat).1 ∧
      ∀ c, CoherentAt ids (w.combine ids l1 l2 cat).1 (w.combine ids l1 l2 cat).2 c := by
  have hcombine : Changes ids w.interns.length (fun k => category k ≠ none) w
      (w.combine ids l1 l2 cat).1 :=
    changes_combine (Nat.le_refl _) fun s hs k hk =>
      mem_sections.mp (List.mem_flatMap.mpr ⟨s, hs, hk⟩)
  obtain ⟨hgood, hsame⟩ := good_changes h hcombine cache_ne_of_category hu
  have hfind (k : Kind κ) := find_combine l1 h.complete hl2 cat k
  refine ⟨hgood, hsame, fun c => ?_⟩
  obtain ⟨f, refs, x, hf, hd, hx, hbody⟩ := hl1 c
  have hfc : (w.combine ids l1 l2 cat).1.find ids (w.combine ids l1 l2 cat).2 (.cache c) = some f := by
    rw [hfind, if_neg fun hand => hand.2 rfl]
    exact hf
  have hdeleted := hsame.deleted l1 c f (lt_of_find hf) hf hd
  rcases Decidable.em (Has cat collate) with hcat | hcat
  · obtain ⟨y, hy⟩ := exists_cached h.complete hl2 c
    have hright {k : Kind κ} (hk : category k ≠ none) (hclassic : IsClassic k) :
        (w.combine ids l1 l2 cat).1.find ids (w.combine ids l1 l2 cat).2 k = w.find ids l2 k := by
      obtain ⟨g, hg⟩ := Option.ne_none_iff_exists'.mp (h.complete.full l2 hl2 k hclassic)
      rw [hfind, if_pos ⟨hcat, hk⟩, hg]
      rfl
    have hcached : (w.combine ids l1 l2 cat).1.cached ids (w.combine ids l1 l2 cat).2 c = some y :=
      cached_of_find (hright (Option.some_ne_none _) (isClassic_numpunct c))
        (hright (Option.some_ne_none _) (isClassic_ctype c)) hsame.facets hy
    have htables : tables x.1 x.2 = tables y.1 y.2 :=
      Option.some.inj ((own_eq_some hx).symm.trans ((hown hcat c).trans (own_eq_some hy)))
    exact ⟨f, refs, y, hfc, hdeleted, hcached, htables ▸ hsame.facets f _ hbody⟩
  · have hleft (k : Kind κ) :
        (w.combine ids l1 l2 cat).1.find ids (w.combine ids l1 l2 cat).2 k = w.find ids l1 k := by
      rw [hfind, if_neg fun hand => hcat hand.1]
    exact ⟨f, refs, x, hfc, hdeleted, cached_of_find (hleft _) (hleft _) hsame.facets hx,
      hsame.facets f _ hbody⟩

/-- The caches are made anew after a facet has been added. -/
theorem good_combine_facet {l : Nat} {k : Kind κ} (h : Good ids w) (hk : w.kind_of f = some k)
    (hcache : ∀ c, k ≠ .cache c) (hu : (w.combine_facet ids l (some f) k).1.undefined = false) :
    Good ids (w.combine_facet ids l (some f) k).1 ∧
      ∀ c, CoherentAt ids (w.combine_facet ids l (some f) k).1
        (w.combine_facet ids l (some f) k).2 c := by
  let w₁ := (w.copy_intern l).1.add ids w.interns.length k (some f)
  have hadd : Changes ids w.interns.length (fun k' => k' = k) w w₁ :=
    (Changes.single (.copy_intern w l)).trans
      (.single (.add _ (Nat.le_refl _) rfl ((kind_of_copy_intern l f).trans hk)))
  have heq : w.combine_facet ids l (some f) k =
      (w₁.init_intern ids w.interns.length, w.interns.length) := rfl
  have hlt : w.interns.length < w₁.interns.length := by
    rw [length_add, length_copy_intern]
    exact Nat.lt_succ_self _
  rw [heq] at hu ⊢
  dsimp only at hu ⊢
  have hinit : Changes ids 0 (fun _ => True) w₁ (w₁.init_intern ids w.interns.length) :=
    changes_init_intern (Nat.zero_le _)
  have hw₁ := good_changes h hadd (fun k' hk' c => hk' ▸ hcache c) (hinit.frame.undefined hu)
  clear_value w₁
  exact ⟨good_init_intern hw₁.1 hlt hu, (init_intern_spec hw₁.1.complete hlt hu).2⟩

/-! The end of a locale -/

theorem deleted_drop_once {K : Kind κ → Prop} {g : Nat} {k : Kind κ} (hw : Complete ids K w)
    (hg : w.kind_of g = some k) (hdeleted : (w.drop r).deleted g = true) :
    w.deleted g = true ∨
      (w.intern r).m_refcount = 1 ∧ w.find ids r k = some g ∧ w.ref_count g = 1 := by
  unfold drop at hdeleted
  dsimp only at hdeleted
  have hcount := count_slot hw hg r
  split at hdeleted
  next hone =>
    refine (deleted_release_all_once ?_ hdeleted).imp id fun h => ⟨by omega, ?_, h.2⟩
    · rw [hcount]
      split <;> omega
    · refine Decidable.by_contra fun hne => ?_
      rw [if_neg hne] at hcount
      exact List.count_eq_zero.mp hcount h.1
  next => exact .inl hdeleted

end LocaleLemmas

/-- With the last reference to `r`, no cache is deleted that another locale has. -/
def Spares (ids : Ids κ) (w : Locales κ) (r : Nat) : Prop :=
  (w.intern r).m_refcount = 1 → ∀ c g, w.find ids r (.cache c) = some g → w.ref_count g = 1 →
    ∀ s, Live w s → s ≠ r → w.find ids s (.cache c) ≠ some g

namespace LocaleLemmas

variable {ids : Ids κ} {w w' : Locales κ} {r f : Nat} {c : CharT}

theorem same_drop {P : Nat → Prop} (h : Good ids w)
    (hspares : (w.intern r).m_refcount = 1 → ∀ c g, w.find ids r (.cache c) = some g →
      w.ref_count g = 1 → ∀ s, P s → w.find ids s (.cache c) ≠ some g) :
    Same ids (fun s _ => P s) w (w.drop r) := by
  refine ⟨fun s k _ => find_congr array_drop k, fun f x hx => ?_, fun s c g hs hg hd => ?_⟩
  · rw [facets_drop]
    exact hx
  · refine Bool.eq_false_iff.mpr fun hdeleted => ?_
    rcases deleted_drop_once h.complete (h.complete.kinded hg) hdeleted with hold | ⟨h1, h2, h3⟩
    · exact Bool.false_ne_true (hd.symm.trans hold)
    · exact hspares h1 c g h2 h3 s hs hg

/-- The end of a locale that is not the last one, or whose caches no other one has. -/
theorem good_drop (objects : List (Option Nat)) (h : Good ids w)
    (hcomplete : Complete ids IsClassic { w.drop r with objects := objects })
    (hobjects : ∀ s, some s ∈ objects → Live w s)
    (hspares : (w.intern r).m_refcount = 1 → ∀ c g, w.find ids r (.cache c) = some g →
      w.ref_count g = 1 → ∀ s, Live { w.drop r with objects := objects } s →
        w.find ids s (.cache c) ≠ some g) :
    Good ids { w.drop r with objects := objects } := by
  have hsame : Same ids (fun s _ => Live { w.drop r with objects := objects } s) w
      { w.drop r with objects := objects } :=
    same_trans (same_drop h hspares) (same_of_arrays (fun _ => rfl) rfl rfl)
  have hframe : Frame w (w.drop r) := frame_drop r
  refine good_of_same h hcomplete hsame (fun s hs => .inl ⟨?_, fun _ _ => hs⟩) fun s hs =>
    ⟨hframe.classic_rep.symm.trans hs, fun c => ⟨.inr (.inr hs), .inr (.inr hs)⟩⟩
  rcases hs with hs | hs | hs
  · exact hobjects s hs
  · exact .inr (.inl (hframe.global.symm.trans hs))
  · exact .inr (.inr (hframe.classic_rep.symm.trans hs))

/-- A temporary locale ends, and no object does. -/
theorem good_drop_temporary (h : Good ids w) (hcomplete : Complete ids IsClassic (w.drop r))
    (hspares : (w.intern r).m_refcount = 1 → ∀ c g, w.find ids r (.cache c) = some g →
      w.ref_count g = 1 → ∀ s, Live (w.drop r) s → w.find ids s (.cache c) ≠ some g) :
    Good ids (w.drop r) :=
  good_drop (w.drop r).objects h hcomplete (fun _ hs => .inl ((frame_drop r).objects ▸ hs)) hspares

theorem coherentAt_rep {l : Nat} (h : Good ids w) (hr : w.rep l = some r) (c : CharT) :
    CoherentAt ids w r c := h.coherent r (.inl (mem_objects hr)) c

/-- A locale by name is coherent where its tables are those of the classic one. -/
theorem coherentAt_named {rep : Nat} {n : Named} (h : Good ids w) (hr : w.classic_rep = some r)
    (hsame : Same ids (fun r _ => r < w.interns.length) w w') (hn : IsNamed ids w w' r rep n)
    (htables : tables (n.widen c) (n.numpunct c) = tables widen classic_numpunct) :
    CoherentAt ids w' rep c := by
  obtain ⟨f, refs, x, hf, hd, hx, hbody⟩ := h.coherent r (.inr (.inr hr)) c
  cases hx.symm.trans (h.classic r hr c)
  refine ⟨f, refs, (n.widen c, n.numpunct c), (hn.find c).trans hf,
    hsame.deleted r c f (lt_of_find hf) hf hd, hn.cached c, ?_⟩
  dsimp only
  rw [htables]
  exact hsame.facets f _ hbody

theorem own_same {R : Nat → Kind κ → Prop} (hsame : Same ids R w w') (hn : R r (.numpunct c))
    (hc : R r (.ctype c)) (hw : CoherentAt ids w r c) : own ids w' r c = own ids w r c := by
  obtain ⟨-, -, x, -, -, hx, -⟩ := hw
  have hx' := cached_of_find (hsame.find r _ hn) (hsame.find r _ hc) hsame.facets hx
  rw [own_eq_some hx, own_eq_some hx']

/-- The classic representation, when it exists. -/
theorem get_classic_some (ids : Ids κ) (hr : w.classic_rep = some r) :
    w.classic_object = true ∧ w.get_classic ids = (w, r) ∨
      w.classic_object = false ∧
        w.get_classic ids = ({ ({ w.init_intern ids r with classic_rep := some r } :
          Locales κ).retain r with classic_object := true }, r) := by
  unfold get_classic
  cases hobject : w.classic_object with
  | true =>
    rw [hr]
    exact .inl ⟨rfl, rfl⟩
  | false =>
    dsimp only
    rw [get_classic_rep_some hr]
    exact .inr ⟨rfl, rfl⟩

/-- The classic locale may get new caches. -/
theorem same_get_classic (h : Good ids w) (hr : w.classic_rep = some r)
    (hu : (w.get_classic ids).1.undefined = false) :
    (w.get_classic ids).2 = r ∧ (w.get_classic ids).1.objects = w.objects ∧
      Same ids (fun _ k => ∀ c, k ≠ .cache c) w (w.get_classic ids).1 := by
  rcases get_classic_some ids hr with ⟨-, heq⟩ | ⟨-, heq⟩
  · rw [heq]
    exact ⟨rfl, rfl, same_refl w⟩
  · rw [heq] at hu ⊢
    have hinit : Changes ids 0 (fun _ => True) w (w.init_intern ids r) :=
      changes_init_intern (Nat.zero_le r)
    have hu₁ : (w.init_intern ids r).undefined = false := (Bool.or_eq_false_iff.mp hu).1
    have hlt : r < w.interns.length := lt_of_coherentAt (h.coherent r (.inr (.inr hr)) .char)
    exact ⟨rfl, hinit.frame.objects, same_trans
      (same_mono (init_intern_spec h.complete hlt hu₁).1 fun _ _ hk => .inr hk)
      (same_object _ _ _ _)⟩

theorem objects_get_global_rep (hw : w.classic_rep ≠ none) :
    (w.get_global_rep ids).1.objects = w.objects := by
  obtain ⟨r, hr⟩ := Option.ne_none_iff_exists'.mp hw
  unfold get_global_rep
  split
  · rfl
  · dsimp only
    rw [get_classic_rep_some hr]
    have hinit : Changes ids 0 (fun _ => True) w (w.init_intern ids r) :=
      changes_init_intern (Nat.zero_le r)
    exact hinit.frame.objects

/-- The new caches are not counted below zero. -/
theorem ref_count_init_intern {g : Nat} (hu : (w.init_intern ids r).undefined = false)
    (hg : (w.init_intern ids r).find ids r (.cache c) = some g) :
    0 ≤ (w.init_intern ids r).ref_count g := by
  let w₁ := w.install_cache ids r .char
  have hu₁ : w₁.undefined = false := (frame_install_cache .wchar_t).undefined hu
  have hfind : w₁.find ids r (.cache .char) = some w.facets.length := by
    rw [find_install_cache hu₁, if_pos ⟨rfl, rfl⟩]
  have hu₂ : (w₁.install_cache ids r .wchar_t).undefined = false := hu
  have hg₂ : (w₁.install_cache ids r .wchar_t).find ids r (.cache c) = some g := hg
  show 0 ≤ (w₁.install_cache ids r .wchar_t).ref_count g
  cases c with
  | char =>
    rw [find_install_cache hu₂, if_neg fun h => (by cases h.2), hfind] at hg₂
    cases hg₂
    have hlt : w.facets.length < w₁.facets.length := by
      rw [facets_length_install_cache]
      exact Nat.lt_succ_self _
    have hold : (w₁.install_cache ids r .wchar_t).ref_count w.facets.length =
        w₁.ref_count w.facets.length := by
      rw [install_cache_eq, ref_count_init_facet]
      exact Function.update_of_ne (Nat.ne_of_lt hlt) _ _
    rw [hold, ref_count_new_cache]
  | wchar_t =>
    rw [find_install_cache hu₂, if_pos ⟨rfl, rfl⟩] at hg₂
    cases hg₂
    rw [ref_count_new_cache]

end LocaleLemmas

/-! ## Programs -/

/-- The tables that the facets of a name ask for. -/
def named_tables : Option Named → CharT → Option Cache
  | none, _ => tables widen classic_numpunct
  | some n, c => tables (n.widen c) (n.numpunct c)

/-- With the temporary locale of `locale(l, name, cat)`, which has the caches of the classic
one, no cache is deleted: it is counted for the classic locale, or `l` has it, too. -/
def SparesClassic (ids : Ids κ) (w : Locales κ) (l : Nat) : Prop :=
  (w.classic_object = false → w.classic_rep = some l) ∧
    (w.classic_object = true → ∀ r, w.classic_rep = some r → ∀ c g,
      w.find ids r (.cache c) = some g →
        0 < w.ref_count g + if w.find ids l (.cache c) = some g then 1 else 0)

/-- The tables stay the same where facets are replaced without a new cache, no cache is added
by hand and none is deleted that another locale has. -/
def Locales.Keeps (ids : Ids κ) (w : Locales κ) : LocaleOp κ → Prop
  | .named (some n) => n.whole → ∀ c, named_tables (some n) c = named_tables none c
  | .add_facet _ (some f) => ∀ c, w.kind_of f ≠ some (.cache c)
  | .combine l1 l2 cat => Has cat collate →
      ∀ r1 r2, w.rep l1 = some r1 → w.rep l2 = some r2 → ∀ c, own ids w r1 c = own ids w r2 c
  | .combine_named l n cat => ∀ r, w.rep l = some r →
      (Has cat collate → (∀ m, n = some m → m.whole) →
        ∀ c, own ids w r c = some (named_tables n c)) ∧
      ∀ m, n = some m → m.whole → SparesClassic ids w r
  | .assign l other => ∀ r, w.rep l = some r → w.rep other ≠ some r → Spares ids w r
  | .destroy l => ∀ r, w.rep l = some r → Spares ids w r
  | .intern_add _ (some f) => ∀ k, w.kind_of f = some k → ¬ Numeric k
  | _ => True

namespace LocaleLemmas

variable {ids : Ids κ} {w w' : Locales κ} {r f l : Nat} {c : CharT} {cat : Category}

theorem find_retain (s : Nat) (k : Kind κ) : (w.retain r).find ids s k = w.find ids s k := by
  have harray : ((w.retain r).intern s).m_array = (w.intern s).m_array := array_with_intern rfl
  exact find_congr harray k

theorem find_object (s : Nat) (k : Kind κ) : (object (w, r)).find ids s k = w.find ids s k :=
  find_retain s k

theorem le_ref_count_combine {K : Kind κ → Prop} (l1 l2 : Nat) (cat : Category) {g : Nat}
    (hw : Complete ids K w)
    (hg : w.kind_of g = some (.cache c)) (hu : (w.combine ids l1 l2 cat).1.undefined = false) :
    (w.ref_count g + if w.find ids l1 (.cache c) = some g then 1 else 0) ≤
      (w.combine ids l1 l2 cat).1.ref_count g := by
  have hadd : Changes ids 0 (fun k => category k ≠ none) (w.copy_intern l1).1
      (w.combine ids l1 l2 cat).1 :=
    changes_add_sections (Nat.zero_le _) fun s hs k hk =>
      mem_sections.mp (List.mem_flatMap.mpr ⟨s, hs, hk⟩)
  have hcopy := complete_copy_intern hw (hadd.frame.undefined hu)
  refine Int.le_trans (Int.le_of_eq ?_)
    (le_ref_count_changes hcopy hadd cache_ne_of_category ((kind_of_copy_intern l1 g).trans hg) hu)
  rw [ref_count_copy_intern, count_slot hw hg]
  split <;> rfl

/-- `locale(l, "C", cat)`. -/
theorem good_combine_classic {r₀ : Nat} (h : Good ids w) (hr₀ : w.classic_rep = some r₀)
    (hr : w.rep l = some r) (href : Referenced (fun _ => 0) w)
    (hown : Has cat collate → ∀ c, own ids w r c = some (tables widen classic_numpunct))
    (hu : ((object (((w.get_classic ids).1.retain (w.get_classic ids).2).combine ids r
      (w.get_classic ids).2 cat)).drop (w.get_classic ids).2).undefined = false) :
    Good ids ((object (((w.get_classic ids).1.retain (w.get_classic ids).2).combine ids r
      (w.get_classic ids).2 cat)).drop (w.get_classic ids).2) := by
  let w₁ := (w.get_classic ids).1
  let t := (w.get_classic ids).2
  have hne : w.classic_rep ≠ none := fun h => Option.some_ne_none r₀ (hr₀.symm.trans h)
  have hcombine : Changes ids 0 (fun _ => True) (w₁.retain t)
      ((w₁.retain t).combine ids r t cat).1 :=
    changes_combine (Nat.zero_le _) fun _ _ _ _ => trivial
  have hu₁ : (object ((w₁.retain t).combine ids r t cat)).undefined = false :=
    (frame_drop t).undefined hu
  have hu₂ : ((w₁.retain t).combine ids r t cat).1.undefined = false :=
    (frame_with_intern _ _).undefined hu₁
  have hu₃ : (w₁.retain t).undefined = false := hcombine.frame.undefined hu₂
  have hu₄ : w₁.undefined = false := (frame_with_intern _ _).undefined hu₃
  obtain ⟨hw₁, hclassic⟩ := good_get_classic (.inr ⟨hne, h⟩) hu₄
  obtain ⟨-, hobjects, hsame⟩ := same_get_classic h hr₀ hu₄
  have hretain : Good ids (w₁.retain t) := good_retain hw₁ hu₃
  have hmem : some r ∈ w₁.objects := hobjects ▸ mem_objects hr
  have hkeep : Same ids (fun _ _ => True) w₁ (w₁.retain t) := same_retain w₁ t
  have htables (hcat : Has cat collate) (c : CharT) :
      own ids (w₁.retain t) r c = own ids (w₁.retain t) t c := by
    rw [own_same hkeep trivial trivial (hw₁.coherent r (.inl hmem) c),
      own_same hsame (fun _ h => (by cases h)) (fun _ h => (by cases h)) (coherentAt_rep h hr c),
      hown hcat c, own_eq_some (hretain.classic t hclassic c)]
  have hlt : t < (w₁.retain t).interns.length :=
    lt_of_coherentAt (hretain.coherent t (.inr (.inr hclassic)) .char)
  obtain ⟨hgood, -, hnew⟩ := good_combine hretain (hretain.coherent r (.inl hmem)) hlt htables hu₂
  have hobject := good_object hgood hnew hu₁
  have hcount : ((object ((w₁.retain t).combine ids r t cat)).intern t).m_refcount =
      references (object ((w₁.retain t).combine ids r t cat)) t + (0 + once t t) :=
    referenced_object (referenced_changes (referenced_retain
      (referenced_get_classic (.inr hne) href hu₄) hu₃) hcombine) hu₁ t
  have hlive : Live (object ((w₁.retain t).combine ids r t cat)) t :=
    .inr (.inr (hcombine.frame.classic_rep.trans hclassic))
  have hpos := references_pos hlive
  refine good_drop_temporary hobject (complete_prim hobject.complete (.drop _ t) hu) fun hone => ?_
  rw [hone, once, if_pos rfl] at hcount
  omega

/-- The cache of the classic locale is counted after the copies for the temporary locale. -/
theorem spared_get_classic {r₀ g : Nat} (hr₀ : w.classic_rep = some r₀)
    (hspares : SparesClassic ids w r) (hu : (w.get_classic ids).1.undefined = false)
    (hg : (w.get_classic ids).1.find ids (w.get_classic ids).2 (.cache c) = some g) :
    0 < (w.get_classic ids).1.ref_count g +
      if (w.get_classic ids).1.find ids r (.cache c) = some g then 1 else 0 := by
  rcases get_classic_some ids hr₀ with ⟨hobject, heq⟩ | ⟨hobject, heq⟩
  · rw [heq] at hg ⊢
    exact hspares.2 hobject r₀ hr₀ c g hg
  · have hsame : r₀ = r := Option.some.inj (hr₀.symm.trans (hspares.1 hobject))
    have hu₁ : (w.init_intern ids r₀).undefined = false := by
      rw [heq] at hu
      exact (Bool.or_eq_false_iff.mp hu).1
    have hstatic (w₂ : Locales κ) : ({ ({ w₂ with classic_rep := some r₀ } :
        Locales κ).retain r₀ with classic_object := true } : Locales κ).find ids r₀ (.cache c) =
          w₂.find ids r₀ (.cache c) := by
      have harray : ((({ w₂ with classic_rep := some r₀ } : Locales κ).retain r₀).intern
          r₀).m_array = (w₂.intern r₀).m_array :=
        array_with_intern (w := { w₂ with classic_rep := some r₀ }) rfl
      exact find_congr harray _
    have hstatic_count (w₂ : Locales κ) : ({ ({ w₂ with classic_rep := some r₀ } :
        Locales κ).retain r₀ with classic_object := true } : Locales κ).ref_count =
          w₂.ref_count := rfl
    have hfind : (w.get_classic ids).1.find ids r₀ (.cache c) =
        (w.init_intern ids r₀).find ids r₀ (.cache c) := by
      rw [heq]
      exact hstatic _
    have hcount : (w.get_classic ids).1.ref_count = (w.init_intern ids r₀).ref_count := by
      rw [heq]
      exact hstatic_count _
    have hrep : (w.get_classic ids).2 = r₀ := by rw [heq]
    rw [hrep] at hg
    have hpos := ref_count_init_intern hu₁ (hfind ▸ hg)
    rw [← hsame, hcount, if_pos hg]
    omega

/-- `locale(l, name, cat)`. -/
theorem good_combine_named {r₀ rep : Nat} {m : Named} {w₃ : Locales κ} (h : Good ids w)
    (hr₀ : w.classic_rep = some r₀) (hr : w.rep l = some r)
    (hown : Has cat collate → ∀ c, own ids w r c = some (tables (m.widen c) (m.numpunct c)))
    (hspares : SparesClassic ids w r) (hw₃ : Good ids w₃)
    (hframe : Frame (w.get_classic ids).1 w₃)
    (hsame : Same ids (fun r _ => r < (w.get_classic ids).1.interns.length)
      (w.get_classic ids).1 w₃)
    (hnamed : IsNamed ids (w.get_classic ids).1 w₃ (w.get_classic ids).2 rep m)
    (hu : ((object ((w₃.retain rep).combine ids r rep cat)).drop rep).undefined = false) :
    Good ids ((object ((w₃.retain rep).combine ids r rep cat)).drop rep) := by
  let w₁ := (w.get_classic ids).1
  let t := (w.get_classic ids).2
  have hne : w.classic_rep ≠ none := fun h => Option.some_ne_none r₀ (hr₀.symm.trans h)
  have hcombine : Changes ids 0 (fun _ => True) (w₃.retain rep)
      ((w₃.retain rep).combine ids r rep cat).1 :=
    changes_combine (Nat.zero_le _) fun _ _ _ _ => trivial
  have hu₁ : (object ((w₃.retain rep).combine ids r rep cat)).undefined = false :=
    (frame_drop rep).undefined hu
  have hu₂ : ((w₃.retain rep).combine ids r rep cat).1.undefined = false :=
    (frame_with_intern _ _).undefined hu₁
  have hu₃ : (w₃.retain rep).undefined = false := hcombine.frame.undefined hu₂
  have hu₄ : w₁.undefined = false := hframe.undefined ((frame_with_intern _ _).undefined hu₃)
  obtain ⟨hw₁, hclassic⟩ := good_get_classic (.inr ⟨hne, h⟩) hu₄
  obtain ⟨-, hobjects, hsame₁⟩ := same_get_classic h hr₀ hu₄
  have hretain : Good ids (w₃.retain rep) := good_retain hw₃ hu₃
  have hkeep : Same ids (fun _ _ => True) w₃ (w₃.retain rep) := same_retain w₃ rep
  have hmem₁ : some r ∈ w₁.objects := hobjects ▸ mem_objects hr
  have hmem : some r ∈ w₃.objects := hframe.objects ▸ hmem₁
  have hlt₁ : r < w₁.interns.length := lt_of_coherentAt (hw₁.coherent r (.inl hmem₁) .char)
  have hslot (c : CharT) : ∃ g, (w₃.retain rep).find ids rep (.cache c) = some g ∧
      w₁.find ids t (.cache c) = some g := by
    obtain ⟨g, _, _, hg, -⟩ := hw₁.coherent t (.inr (.inr hclassic)) c
    exact ⟨g, (hkeep.find rep _ trivial).trans ((hnamed.find c).trans hg), hg⟩
  have hlt : rep < (w₃.retain rep).interns.length := by
    obtain ⟨g, hg, -⟩ := hslot .char
    exact lt_of_find hg
  have htables (hcat : Has cat collate) (c : CharT) :
      own ids (w₃.retain rep) r c = own ids (w₃.retain rep) rep c := by
    have hrep : (w₃.retain rep).cached ids rep c = some (m.widen c, m.numpunct c) :=
      cached_of_find (hkeep.find rep _ trivial) (hkeep.find rep _ trivial) hkeep.facets
        (hnamed.cached c)
    rw [own_same hkeep trivial trivial (hw₃.coherent r (.inl hmem) c),
      own_same hsame hlt₁ hlt₁ (hw₁.coherent r (.inl hmem₁) c),
      own_same hsame₁ (fun _ h => (by cases h)) (fun _ h => (by cases h)) (coherentAt_rep h hr c),
      hown hcat c, own_eq_some hrep]
  obtain ⟨hgood, hsame₂, hnew⟩ :=
    good_combine hretain (hretain.coherent r (.inl hmem)) hlt htables hu₂
  have hobject := good_object hgood hnew hu₁
  refine good_drop_temporary hobject (complete_prim hobject.complete (.drop _ rep) hu)
    fun _ c g hg hone => absurd hone ?_
  -- the cache is the one of the classic locale, and it is counted twice at least
  obtain ⟨g', hg', hclassic'⟩ := hslot c
  rw [find_object, hsame₂.find rep _ hlt, hg'] at hg
  cases hg
  have hcount := le_ref_count_combine r rep cat hretain.complete
    (hretain.complete.kinded hg') hu₂
  intro hone
  have hone : ((w₃.retain rep).combine ids r rep cat).1.ref_count g = 1 := hone
  have hclassic_count := spared_get_classic hr₀ hspares hu₄ hclassic'
  have hcopied := hnamed.count c g hclassic'
  rw [hone, hkeep.find r _ trivial, hsame.find r _ hlt₁] at hcount
  have hretained : (w₃.retain rep).ref_count g = w₃.ref_count g := rfl
  rw [hretained] at hcount
  omega

/-- An added facet that is no numeric one. -/
theorem good_add {k : Kind κ} (h : Good ids w) (hk : w.kind_of f = some k) (hother : ¬ Numeric k)
    (hu : (w.add ids r k (some f)).undefined = false) : Good ids (w.add ids r k (some f)) := by
  have hcache (c : CharT) : k ≠ .cache c := fun hc => hother (hc ▸ .cache c)
  have hne {k' : Kind κ} (hk' : Numeric k') (s : Nat) : ¬ (s = r ∧ k' = k) := fun hand =>
    hother (hand.2 ▸ hk')
  have hframe : Frame w (w.add ids r k (some f)) := frame_add
  refine good_of_same h (complete_add h.complete hk hu) (same_add h.complete hk hcache hu)
    (fun s hs => .inl ⟨?_, fun k' hk' => hne hk' s⟩) fun s hs =>
      ⟨hframe.classic_rep.symm.trans hs, fun c => ⟨hne (.numpunct c) s, hne (.ctype c) s⟩⟩
  unfold Live at hs ⊢
  rwa [hframe.objects, hframe.global, hframe.classic_rep] at hs

/-- The global locale is replaced; its old representation goes into a new object. -/
theorem good_global {old : Nat} (h : Good ids w) (hold : w.global = some old)
    (hr : some r ∈ w.objects) (hc : w.classic_rep ≠ none) (x : Intern)
    (hx : x.m_array = (((object (w, old)).retain r).intern old).m_array)
    (hu : (((object (w, old)).retain r).with_intern old x).undefined = false) :
    Good ids { ((object (w, old)).retain r).with_intern old x with global := some r } := by
  have hu₁ : ((object (w, old)).retain r).undefined = false := (Bool.or_eq_false_iff.mp hu).1
  have hu₂ : (w.retain old).undefined = false := (Bool.or_eq_false_iff.mp hu₁).1
  have hobject := good_object h (h.coherent old (.inr (.inl hold))) hu₂
  have hretain := good_retain hobject hu₁
  have hlower : Good ids (((object (w, old)).retain r).with_intern old x) :=
    good_of_arrays hretain (complete_with_intern hretain.complete old x hx)
      (fun _ => array_with_intern hx) rfl rfl rfl fun _ => .inl
  obtain ⟨r₀, hr₀⟩ := Option.ne_none_iff_exists'.mp hc
  have hclassic : (((object (w, old)).retain r).with_intern old x).classic_rep = some r₀ := hr₀
  refine good_static (r := r₀) hlower (some r)
    (((object (w, old)).retain r).with_intern old x).classic_object hclassic (fun s hs => ?_) hu
  cases hs
  exact .inl (List.mem_append_left _ hr)

/-- The assigned object releases what it has referred to. -/
theorem good_assign {other old : Nat} (h : Good ids w) (hr : w.rep other = some r)
    (hold : w.rep l = some old) (hspares : w.rep other ≠ some old → Spares ids w old)
    (hcomplete : Complete ids IsClassic { (w.retain r).drop old with
      objects := ((w.retain r).drop old).objects.set l (some r) })
    (href : Referenced (fun _ => 0) { (w.retain r).drop old with
      objects := ((w.retain r).drop old).objects.set l (some r) })
    (hu : ((w.retain r).drop old).undefined = false) :
    Good ids { (w.retain r).drop old with
      objects := ((w.retain r).drop old).objects.set l (some r) } := by
  have hframe : Frame (w.retain r) ((w.retain r).drop old) := frame_drop old
  have hretain := good_retain h (hframe.undefined hu)
  have hobjects : ((w.retain r).drop old).objects = w.objects := hframe.objects
  have hnew : Live { (w.retain r).drop old with
      objects := ((w.retain r).drop old).objects.set l (some r) } r := by
    refine .inl (List.mem_iff_getElem?.mpr ⟨l, List.getElem?_set_self ?_⟩)
    rw [hobjects]
    exact (List.getElem?_eq_some_iff.mp (rep_eq_some hold)).1
  have hlive {s : Nat} (hs : some s ∈ ((w.retain r).drop old).objects.set l (some r)) :
      some s ∈ w.objects := by
    rcases List.mem_or_eq_of_mem_set hs with hs | hs
    · exact hobjects ▸ hs
    · exact hs ▸ mem_objects hr
  refine good_drop _ hretain hcomplete (fun s hs => .inl (hlive hs)) fun hone c g hg hcount s hs => ?_
  have hgone := not_live_of_drop hu href hone
  have hne : r ≠ old := fun heq => hgone (heq ▸ hnew)
  have hone : (w.intern old).m_refcount = 1 := by
    rwa [retain, intern_with_intern _ (lt_of_coherentAt (coherentAt_rep h hr .char)),
      if_neg hne.symm] at hone
  rw [find_retain] at hg ⊢
  refine hspares (fun heq => hne (Option.some.inj (hr.symm.trans heq))) hone c g hg hcount s ?_
    fun heq => hgone (heq ▸ hs)
  rcases hs with hs | hs | hs
  · exact .inl (hlive hs)
  · exact .inr (.inl (hframe.global.symm.trans hs))
  · exact .inr (.inr (hframe.classic_rep.symm.trans hs))

theorem good_destroy (h : Good ids w) (hspares : Spares ids w r)
    (hcomplete : Complete ids IsClassic { w.drop r with objects := (w.drop r).objects.set l none })
    (href : Referenced (fun _ => 0) { w.drop r with objects := (w.drop r).objects.set l none })
    (hu : (w.drop r).undefined = false) :
    Good ids { w.drop r with objects := (w.drop r).objects.set l none } := by
  have hframe : Frame w (w.drop r) := frame_drop r
  have hlive {s : Nat} (hs : some s ∈ (w.drop r).objects.set l none) : some s ∈ w.objects := by
    rcases List.mem_or_eq_of_mem_set hs with hs | hs
    · exact hframe.objects ▸ hs
    · cases hs
  refine good_drop _ h hcomplete (fun s hs => .inl (hlive hs)) fun hone c g hg hcount s hs => ?_
  have hgone := not_live_of_drop hu href hone
  refine hspares hone c g hg hcount s ?_ fun heq => hgone (heq ▸ hs)
  rcases hs with hs | hs | hs
  · exact .inl (hlive hs)
  · exact .inr (.inl (hframe.global.symm.trans hs))
  · exact .inr (.inr (hframe.classic_rep.symm.trans hs))

/-- The new object of `locale(name)`. -/
theorem good_object_named {n : Option Named} {r : Nat}
    (hw : Fresh w ∨ w.classic_rep ≠ none ∧ Good ids w)
    (hkeeps : w.Keeps ids (.named n)) (heq : w.named ids n = (w', some r))
    (hu : w'.undefined = false) : Good ids { w' with objects := w'.objects ++ [some r] } := by
  cases n with
  | none =>
    cases heq
    have hu₁ : (w.get_classic ids).1.undefined = false := (frame_with_intern _ _).undefined hu
    obtain ⟨hclassic, hr⟩ := good_get_classic hw hu₁
    exact good_object hclassic (hclassic.coherent _ (.inr (.inr hr))) hu
  | some m =>
    obtain ⟨w₃, hw₃, hframe, hsame, hthrew | ⟨hnamed, hparts, hspec⟩⟩ :=
      good_named (n := m) hw (heq ▸ hu)
    · cases heq.symm.trans hthrew
    · cases heq.symm.trans hnamed
      have hu₃ : w₃.undefined = false := (frame_with_intern _ _).undefined hu
      obtain ⟨hclassic, hr⟩ := good_get_classic hw (hframe.undefined hu₃)
      exact good_object hw₃ (fun c => coherentAt_named hclassic hr hsame hspec
        (hkeeps (whole_of_parts hparts) c)) hu

end LocaleLemmas

open LocaleLemmas in
/-- Every operation that meets the condition keeps the caches of all locales. -/
theorem good_next {ids : Ids κ} {w w' : Locales κ} {op : LocaleOp κ}
    (hw : Fresh w ∨ w.classic_rep ≠ none ∧ Good ids w) (href : Referenced (fun _ => 0) w')
    (href₀ : Referenced (fun _ => 0) w) (hcomplete : Fresh w' ∨ Complete ids IsClassic w')
    (hkeeps : w.Keeps ids op) (hnext : w.next ids op = some w') (hu : w'.undefined = false) :
    Fresh w' ∨ Good ids w' := by
  have hrep {l r : Nat} (hr : w.rep l = some r) : Good ids w := by
    refine (hw.resolve_left fun hfresh => ?_).2
    exact classic_rep_of_rep (.inl hfresh) hr hfresh.classic_rep
  have hne {l r : Nat} (hr : w.rep l = some r) : w.classic_rep ≠ none :=
    classic_rep_of_rep (hw.imp id And.left) hr
  have hdone (hc : w'.classic_rep ≠ none) : Complete ids IsClassic w' :=
    hcomplete.resolve_left fun hfresh => hc hfresh.classic_rep
  cases op with
  | new_facet body refs =>
    cases hnext
    refine hw.imp (Fresh.new_facet · body refs) fun h => ?_
    exact (good_changes (K := fun _ => False) h.2 (.single (.new_facet w body refs))
      (fun _ hk => hk.elim) hu).1
  | default =>
    cases hnext
    have hu₁ : (w.get_global_rep ids).1.undefined = false := (frame_with_intern _ _).undefined hu
    obtain ⟨hglobal, hr⟩ := good_get_global_rep hw hu₁
    exact .inr (good_object hglobal (hglobal.coherent _ (.inr (.inl hr))) hu)
  | copy l =>
    obtain ⟨r, hr, rfl⟩ := Option.map_eq_some_iff.mp hnext
    exact .inr (good_object (hrep hr) (coherentAt_rep (hrep hr) hr) hu)
  | named n =>
    simp only [next] at hnext
    split at hnext
    next w₁ heq =>
      cases hnext
      cases n with
      | none => cases heq
      | some m =>
        obtain ⟨w₃, hw₃, -, -, hthrew | ⟨hnamed, -⟩⟩ := good_named (n := m) hw (heq ▸ hu)
        · cases heq.symm.trans hthrew
          exact .inr hw₃
        · cases heq.symm.trans hnamed
    next w₁ r heq =>
      cases hnext
      exact .inr (good_object_named hw hkeeps heq hu)
  | add_facet l f =>
    cases f with
    | none =>
      obtain ⟨r, hr, rfl⟩ := Option.map_eq_some_iff.mp hnext
      exact .inr (good_object (hrep hr) (coherentAt_rep (hrep hr) hr) hu)
    | some f =>
      obtain ⟨r, hr, hnext⟩ := Option.bind_eq_some_iff.mp hnext
      obtain ⟨k, hk, hnext⟩ := Option.bind_eq_some_iff.mp hnext
      cases hnext
      have hcombine := good_combine_facet (l := r) (hrep hr) hk fun c hc => hkeeps c (hc ▸ hk)
      -- what the call does is not needed from here on
      generalize w.combine_facet ids r (some f) k = p at hu hcombine ⊢
      obtain ⟨hgood, hnew⟩ := hcombine ((frame_with_intern _ _).undefined hu)
      exact .inr (good_object hgood hnew hu)
  | combine l1 l2 cat =>
    obtain ⟨r1, hr1, hnext⟩ := Option.bind_eq_some_iff.mp hnext
    obtain ⟨r2, hr2, hnext⟩ := Option.bind_eq_some_iff.mp hnext
    cases hnext
    have hu₁ : (w.combine ids r1 r2 cat).1.undefined = false := (frame_with_intern _ _).undefined hu
    have h := hrep hr1
    obtain ⟨hgood, -, hnew⟩ := good_combine h (coherentAt_rep h hr1)
      (lt_of_coherentAt (coherentAt_rep h hr2 .char)) (fun hcat => hkeeps hcat r1 r2 hr1 hr2) hu₁
    exact .inr (good_object hgood hnew hu)
  | combine_named l n cat =>
    obtain ⟨r, hr, hnext⟩ := Option.bind_eq_some_iff.mp hnext
    obtain ⟨r₀, hr₀⟩ := Option.ne_none_iff_exists'.mp (hne hr)
    obtain ⟨hown, hspares⟩ := hkeeps r hr
    cases n with
    | none =>
      cases hnext
      exact .inr (good_combine_classic (hrep hr) hr₀ hr href₀
        (fun hcat => hown hcat fun m hm => (by cases hm)) hu)
    | some m =>
      split at hnext
      next w₁ heq =>
        cases hnext
        obtain ⟨w₃, hw₃, -, -, hthrew | ⟨hnamed, -⟩⟩ := good_named (n := m) hw (heq ▸ hu)
        · cases heq.symm.trans hthrew
          exact .inr hw₃
        · cases heq.symm.trans hnamed
      next w₁ t heq =>
        cases hnext
        have hu₁ := (frame_drop t).undefined hu
        have hcombine : Changes ids 0 (fun _ => True) w₁ (w₁.combine ids r t cat).1 :=
          changes_combine (Nat.zero_le _) fun _ _ _ _ => trivial
        have hu₂ : w₁.undefined = false :=
          hcombine.frame.undefined ((frame_with_intern _ _).undefined hu₁)
        obtain ⟨w₃, hw₃, hframe, hsame, hthrew | ⟨hnamed, hparts, hspec⟩⟩ :=
          good_named (n := m) hw (heq ▸ hu₂)
        · cases heq.symm.trans hthrew
        · cases heq.symm.trans hnamed
          have hwhole := whole_of_parts hparts
          have hall (m' : Named) (hm : some m = some m') : m'.whole = true := by
            cases hm
            exact hwhole
          exact .inr (good_combine_named (hrep hr) hr₀ hr (fun hcat => hown hcat hall)
            (hspares m rfl hwhole) hw₃ hframe hsame hspec hu)
  | assign l other =>
    obtain ⟨r, hr, hnext⟩ := Option.bind_eq_some_iff.mp hnext
    obtain ⟨old, hold, hnext⟩ := Option.bind_eq_some_iff.mp hnext
    cases hnext
    have hframe : Frame (w.retain r) ((w.retain r).drop old) := frame_drop old
    have hclassic : ((w.retain r).drop old).classic_rep ≠ none := by
      rw [hframe.classic_rep]
      exact hne hr
    exact .inr (good_assign (hrep hr) hr hold (hkeeps old hold) (hdone hclassic) href hu)
  | destroy l =>
    obtain ⟨r, hr, hnext⟩ := Option.bind_eq_some_iff.mp hnext
    cases hnext
    have hclassic : (w.drop r).classic_rep ≠ none := by
      rw [(frame_drop r).classic_rep]
      exact hne hr
    exact .inr (good_destroy (hrep hr) (hkeeps r hr) (hdone hclassic) href hu)
  | global l =>
    obtain ⟨r, hr, hnext⟩ := Option.bind_eq_some_iff.mp hnext
    cases hnext
    have hu₁ : (w.get_global_rep ids).1.undefined = false :=
      (Bool.or_eq_false_iff.mp (Bool.or_eq_false_iff.mp (Bool.or_eq_false_iff.mp hu).1).1).1
    obtain ⟨hglobal, hold⟩ := good_get_global_rep hw hu₁
    have hsettled : Settles ids w (w.get_global_rep ids).1 := settles_get_global_rep (.inr (hne hr))
    have hmem : some r ∈ (w.get_global_rep ids).1.objects := by
      rw [objects_get_global_rep (hne hr)]
      exact mem_objects hr
    exact .inr (good_global hglobal hold hmem hsettled.classic_rep _ rfl hu)
  | classic =>
    cases hnext
    exact .inr (good_get_classic hw hu).1
  | intern_add l f =>
    cases f with
    | none =>
      cases hnext
      exact hw.imp id And.right
    | some f =>
      obtain ⟨r, hr, hnext⟩ := Option.bind_eq_some_iff.mp hnext
      obtain ⟨k, hk, hnext⟩ := Option.bind_eq_some_iff.mp hnext
      cases hnext
      exact .inr (good_add (hrep hr) hk (hkeeps k hk) hu)

open LocaleLemmas in
/-- The locales of every run whose steps meet the condition are coherent. -/
theorem run_good {ids : Ids κ} {tr : List (LocaleOp κ)} {w : Locales κ}
    (h : Run ((system ids).restrict (Locales.Keeps ids)) start tr w) :
    Run (system ids) start tr w ∧ (Fresh w ∨ w.classic_rep ≠ none ∧ Good ids w) := by
  refine h.invariant (I := fun tr w => Run (system ids) start tr w ∧
    (Fresh w ∨ w.classic_rep ≠ none ∧ Good ids w)) ⟨.nil, .inl fresh_start⟩ ?_
  rintro tr w op w' ⟨hrun, hw⟩ ⟨hs, hkeeps⟩
  have hrun' : Run (system ids) start (tr ++ [op]) w' := hrun.snoc hs
  have href {tr : List (LocaleOp κ)} {w : Locales κ} (h : Run (system ids) start tr w) :
      Referenced (fun _ => 0) w := fun r => (run_referenced h r).trans (Int.add_zero _).symm
  refine ⟨hrun', ?_⟩
  have hsettled := next_settles (hw.imp id And.left) hs.1
  rcases good_next hw (href hrun') (href hrun) (run_complete hrun') hkeeps hs.1 hs.2 with
    hfresh | hgood
  · exact .inl hfresh
  · exact hsettled.imp id fun h => ⟨h.classic_rep, hgood⟩

/-- Every cache of every run whose steps meet the condition holds the tables of its locale. -/
theorem run_coherent {ids : Ids κ} {tr : List (LocaleOp κ)} {w : Locales κ}
    (h : Run ((system ids).restrict (Locales.Keeps ids)) start tr w) : Coherent ids w := by
  rcases (run_good h).2 with hfresh | ⟨-, hgood⟩
  · intro r hr
    rcases hr with hr | hr | hr
    · exact absurd (hfresh.objects ▸ hr) List.not_mem_nil
    · exact absurd (hfresh.global.symm.trans hr).symm (Option.some_ne_none r)
    · exact absurd (hfresh.classic_rep.symm.trans hr).symm (Option.some_ne_none r)
  · exact hgood.coherent

/-- A facet with a decimal comma beside the global locale. -/
def exFacet : List (LocaleOp Empty) :=
  [.default, .new_facet (.numpunct .char ⟨[3], 46, 44⟩) 0]

theorem exFacet_runs : (replay exNext start exFacet).isSome := by decide +kernel

/-- The state after `exFacet`. -/
def exBefore : Locales Empty := (replay exNext start exFacet).get exFacet_runs

theorem exBefore_adds : (exNext exBefore (.add_facet 0 (some 28))).isSome := by decide +kernel

/-- The state with the facet in a locale. -/
def exComma : Locales Empty := (exNext exBefore (.add_facet 0 (some 28))).get exBefore_adds

theorem run_coherent_example : Coherent exIds exComma := by
  have hkeeps (op : LocaleOp Empty) (hop : op ∈ exFacet) (w : Locales Empty) :
      w.Keeps exIds op := by
    rcases List.mem_cons.mp hop with rfl | hop
    · exact trivial
    · cases List.mem_singleton.mp hop
      exact trivial
  have hbefore := (run_replay step_exNext exFacet_runs).restrict hkeeps
  have hkind : exBefore.kind_of 28 = some (.numpunct .char) := by decide +kernel
  have hadds : exBefore.Keeps exIds (.add_facet 0 (some 28)) := fun c hc => by
    cases hkind.symm.trans hc
  exact run_coherent (hbefore.snoc ⟨step_exNext _ _ _ (Option.some_get exBefore_adds).symm, hadds⟩)

/-- The tables in the cache of a representation. -/
def stored (ids : Ids κ) (w : Locales κ) (r : Nat) (c : CharT) : Option (Option Cache) :=
  match w.facet ids r (.cache c) with
  | some (.cache _ tables) => some tables
  | _ => none

open LocaleLemmas in
theorem stored_of_coherentAt {ids : Ids κ} {w : Locales κ} {r : Nat} {c : CharT}
    (h : CoherentAt ids w r c) : stored ids w r c = own ids w r c := by
  obtain ⟨f, refs, x, hf, -, hx, hbody⟩ := h
  have hfacet : w.facet ids r (.cache c) = some (.cache c (tables x.1 x.2)) := by
    unfold Locales.facet
    rw [hf]
    show w.facets[f]?.map _ = _
    rw [hbody]
    rfl
  rw [stored, hfacet, own_eq_some hx]

/-- A name with all parts whose decimal point is a comma. -/
def exName : Named where
  has_ctype := true
  has_numeric := true
  has_time := true
  has_collate := true
  has_monetary := true
  has_messages := true
  widen _ := widen
  numpunct _ := ⟨[3], 46, 44⟩

theorem exName_runs : (replay exNext start [.named (some exName)]).isSome := by decide +kernel

/-- The state after `locale(name)`. -/
def exByName : Locales Empty := (replay exNext start [.named (some exName)]).get exName_runs

/-- The cache of a locale by name is the one of the classic locale. -/
theorem not_coherent_named : Run (system exIds) start [.named (some exName)] exByName ∧
    ¬ Coherent exIds exByName := by
  refine ⟨run_replay step_exNext exName_runs, fun h => ?_⟩
  have hlive : Live exByName 1 := .inl (by decide +kernel)
  have hsame := stored_of_coherentAt (h 1 hlive .char)
  have hdiffer : stored exIds exByName 1 .char ≠ own exIds exByName 1 .char := by decide +kernel
  exact hdiffer hsame

end Kuhllib.Cxxrt
