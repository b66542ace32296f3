import Kuhllib.StopToken.InPlaceDelivery
import Mathlib.Data.List.Pairwise

/-!
# When operations of `in_place_stop_source` can return

`insert` and `stop` keep the marker they have read in a local variable and never
read `d_list` again, so an operation that met the marker once does not return
(`stuck_insert`, `stuck_stop`). `Clear` is the condition on a step under which
this does not happen.

Results:
1. `insert_stuck`: an operation that does not return, although the list was
   restored.
2. `can_return`: in a run whose steps are all clear, every thread can return
   from all of its operations.
-/

namespace Kuhllib.InPlaceStopSource

open Transition Chain

variable {τ κ : Type} [DecidableEq τ] [DecidableEq κ]

/-! ## 1. Operations that do not return -/

/-- Nothing moves a thread whose innermost frame is stuck in place. -/
theorem stuck {s s' : State τ κ} {t : τ} {f : Frame κ} {fs : List (Frame κ)}
    (hf : ∀ m, (exec m f).2.2 = [f]) (hu : userCode (f :: fs) = false)
    (hst : s.threads t = f :: fs) (h : Reaches (system τ κ) s s') : s'.threads t = f :: fs := by
  obtain ⟨tr, hrun⟩ := h
  refine hrun.invariant_state (I := fun s => s.threads t = f :: fs) hst ?_
  rintro s ⟨t', e⟩ s' hst hs
  rcases step_cases hs with ⟨g, gs, hst', -, rfl⟩ | ⟨g, huser, hstart, -⟩
  · rcases eq_or_ne t t' with rfl | hne
    · rw [hst] at hst'
      cases hst'
      simp [hf]
    · simpa [hne] using hst
  · obtain rfl : s' = (s.start t' e g).2 := congrArg Prod.snd hstart
    rcases eq_or_ne t t' with rfl | hne
    · rw [hst, hu] at huser
      cases huser
    · simpa [State.start, hne] using hst

theorem stuck_insert {s s' : State τ κ} {t : τ} {c : κ} {fs : List (Frame κ)}
    (hst : s.threads t = .insertLoop c (some .marker) :: fs) (h : Reaches (system τ κ) s s') :
    s'.threads t = .insertLoop c (some .marker) :: fs :=
  stuck (fun m => by simp [exec]) rfl hst h

theorem stuck_stop {s s' : State τ κ} {t : τ} {fs : List (Frame κ)}
    (hst : s.threads t = .stopLoop (some .marker) :: fs) (h : Reaches (system τ κ) s s') :
    s'.threads t = .stopLoop (some .marker) :: fs :=
  stuck (fun m => by simp [exec]) rfl hst h

/-- Thread `1` loads `d_list` in `insert` while thread `0` is in `remove`. -/
def exStuck : List (Nat × Choice Nat) :=
  [(0, .insert 0), (0, .run), (0, .run), (0, .run), (0, .remove 0), (0, .run), (0, .run), (0, .run),
    (1, .insert 1), (1, .run), (0, .run), (0, .run)]

/-- After `remove` has returned the list is restored and no other operation is in
progress, but the insertion does not return. -/
theorem insert_stuck : ∃ s : State Nat Nat, Reaches (system Nat Nat) State.initial s ∧
    s.mem.list = some .endNode ∧ s.threads 0 = [] ∧
    ∀ s', Reaches (system Nat Nat) s s' → s'.threads 1 ≠ [] := by
  refine ⟨_, run_reaches exStuck rfl, rfl, rfl, fun s' h => ?_⟩
  rw [stuck_insert rfl h]
  exact List.cons_ne_nil _ _

/-! ## 2. The condition -/

/-- The next step of the frame is an access of `d_list` by `insert` or `stop`
that keeps what it reads. -/
def Frame.caches : Frame κ → Bool
  | .insertLoad _ | .insertLoop _ (some _) | .stopLoad | .stopLoop (some _) => true
  | _ => false

/-- No `stop()` of this thread is calling callbacks. -/
def Outside (s : State τ κ) (t : τ) : Prop := ∀ f ∈ s.threads t, f.holding = false

/-- The condition on the state before a step: `insert` and `stop` do not meet the
marker, and a callback that `stop()` calls neither inserts a callback nor
removes one that was not called. -/
structure Clear (s : State τ κ) (l : τ × Event κ) : Prop where
  unlocked : ∀ f fs, s.threads l.1 = f :: fs → f.caches = true → s.mem.list ≠ some .marker
  insert : ∀ c, l.2 = .insertStart c → Outside s l.1
  remove : ∀ c, l.2 = .removeStart c → Outside s l.1 ∨ s.mem.called (.callback c) = true

/-- The frame has cached the marker. -/
def Frame.met : Frame κ → Bool
  | .insertLoop _ (some .marker) | .stopLoop (some .marker) => true
  | _ => false

/-- Frames that wait for a frame above them. -/
def Frame.suspended : Frame κ → Bool
  | .insertReturn _ | .stopWalk _ | .body _ => true
  | _ => false

/-- Frames that need no access of `d_list`, once `stop()` has been requested. -/
def Light (m : Memory κ) : Frame κ → Prop
  | .removeCheck c => m.called (.callback c) = true
  | .removeReturn _ | .stopExchange | .stopReturn _ | .body _ => True
  | _ => False

omit [DecidableEq κ] in
theorem Light.mono {m m' : Memory κ} {f : Frame κ} (h : Light m f)
    (hm : ∀ n, m.called n = true → m'.called n = true) : Light m' f := by
  cases f with
  | removeCheck c => exact hm _ h
  | _ => exact h

namespace InPlaceProgressLemmas

open InPlaceRefinementLemmas InPlaceSimulationLemmas InPlaceDeliveryLemmas

/-! ### What frames do, by kind -/

omit [DecidableEq τ] in
theorem exec_suspended (m : Memory κ) (f : Frame κ) :
    ∀ g ∈ (exec m f).2.2.tail, g.suspended = true := by
  fun_cases exec m f <;> (try split) <;> simp [Frame.suspended]

omit [DecidableEq τ] in
theorem exec_called (m : Memory κ) (f : Frame κ) (n : Node κ) (h : m.called n = true) :
    (exec m f).2.1.called n = true := by
  fun_cases exec m f <;> first | exact h | simp [Memory.call, Function.update_apply, h]

omit [DecidableEq τ] in
theorem exec_met (m : Memory κ) (f : Frame κ) (hf : f.met = false)
    (hc : f.caches = true → m.list ≠ some .marker) : ∀ g ∈ (exec m f).2.2, g.met = false := by
  fun_cases exec m f <;> (try split) <;> simp_all [Frame.met, Frame.caches]

omit [DecidableEq τ] in
theorem exec_light (m : Memory κ) (f : Frame κ) (hf : Light m f) (hr : m.stop_requested = true) :
    ∀ g ∈ (exec m f).2.2, Light (exec m f).2.1 g := by
  fun_cases exec m f <;> simp_all [Light]

/-! ### The invariant of clear runs -/

/-- What holds in every state of a clear run: nothing has met the marker, and
the frames above a frame that holds the list do not need the list. -/
structure Calm (s : State τ κ) : Prop where
  refines : ∃ r, Refines r s
  locked : Locked s
  unmet : ∀ t, ∀ f ∈ s.threads t, f.met = false
  suspended : ∀ t, ∀ f ∈ (s.threads t).tail, f.suspended = true
  light : ∀ t, (s.threads t).Pairwise fun f g => g.holding = true → Light s.mem f

/-- A suspended frame holds the list for the winning `stop()`. -/
theorem requested_of_holding {r : Registry τ κ} {s : State τ κ} (h : Refines r s) {t : τ}
    {g : Frame κ} (hg : g ∈ s.threads t) (hs : g.suspended = true) (hh : g.holding = true) :
    s.mem.stop_requested = true := by
  cases g with
  | stopWalk node =>
    obtain ⟨cs, hv, _⟩ := h.frames t _ hg
    rw [h.requested, winner_of_draining h hv]
    rfl
  | insertReturn | body => cases hh
  | _ => cases hs

/-- Running the innermost frame keeps the order of the frames. -/
theorem light_exec {s : State τ κ} (h : Calm s) {t : τ} {f : Frame κ} {fs : List (Frame κ)}
    (hst : s.threads t = f :: fs) :
    ((exec s.mem f).2.2 ++ fs).Pairwise
      fun f' g => g.holding = true → Light (exec s.mem f).2.1 f' := by
  have hp := h.light t
  rw [hst, List.pairwise_cons] at hp
  rw [List.pairwise_append]
  refine ⟨?_, ?_, ?_⟩
  · fun_cases exec s.mem f <;> (try split) <;> simp [Light]
  · exact hp.2.imp fun hl hg => (hl hg).mono (exec_called s.mem f)
  · intro g hg g' hg' hh
    obtain ⟨r, hr⟩ := h.refines
    have hmem : g' ∈ s.threads t := by
      rw [hst]
      exact List.mem_cons_of_mem _ hg'
    have hsus := h.suspended t g' (by rw [hst]; exact hg')
    exact exec_light s.mem f (hp.1 g' hg' hh) (requested_of_holding hr hmem hsus hh) g hg

theorem calm_step {s s' : State τ κ} {l : τ × Event κ} (h : Calm s)
    (hs : ((system τ κ).restrict Clear).step s l s') : Calm s' := by
  obtain ⟨t, e⟩ := l
  obtain ⟨hs, hclear⟩ := hs
  obtain ⟨r, hr⟩ := h.refines
  obtain ⟨r', _, hr'⟩ := refines_step hr hs
  have hlocked := locked_step hr h.locked hs
  rcases step_cases hs with ⟨f, fs, hst, he, rfl⟩ | ⟨f, huser, hst, hstart⟩
  · refine ⟨⟨r', hr'⟩, hlocked, ?_, ?_, ?_⟩
    · intro t' g hg
      rcases Stacks.mem_set hg with ⟨rfl, hm⟩ | ho
      · refine exec_met s.mem f ?_ (hclear.unlocked f fs hst) g hm
        exact h.unmet t' f (by rw [hst]; exact List.mem_cons_self)
      · exact h.unmet t' g (mem_of_other hst ho)
    · intro t' g hg
      rcases eq_or_ne t' t with rfl | hne
      · have hfs := h.suspended t'
        rw [hst] at hfs
        simp only [Function.update_self] at hg
        cases hgs : (exec s.mem f).2.2 with
        | nil =>
          rw [hgs] at hg
          exact hfs g (List.mem_of_mem_tail hg)
        | cons g' gs =>
          have hex := exec_suspended s.mem f
          rw [hgs] at hg hex
          rcases List.mem_append.mp hg with hg | hg
          · exact hex g hg
          · exact hfs g hg
      · simp only [ne_eq, hne, not_false_eq_true, Function.update_of_ne] at hg
        exact h.suspended t' g hg
    · intro t'
      rcases eq_or_ne t' t with rfl | hne
      · simpa using light_exec h hst
      · simp only [ne_eq, hne, not_false_eq_true, Function.update_of_ne]
        exact (h.light t').imp fun hl hg => (hl hg).mono (exec_called s.mem f)
  · obtain rfl : s' = (s.start t e f).2 := congrArg Prod.snd hst
    have hlight : ∀ g ∈ s.threads t, g.holding = true → Light s.mem f := by
      intro g hg hh
      rcases hstart with ⟨c, rfl, rfl, _⟩ | ⟨c, rfl, rfl, _⟩ | ⟨rfl, rfl⟩
      · rw [hclear.insert c rfl g hg] at hh
        cases hh
      · rcases hclear.remove c rfl with hout | hc
        · rw [hout g hg] at hh
          cases hh
        · exact hc
      · trivial
    refine ⟨⟨r', hr'⟩, hlocked, ?_, ?_, ?_⟩
    · intro t' g hg
      rcases Stacks.mem_push.mp hg with ⟨rfl, hm⟩ | hm
      · rw [List.mem_singleton.mp hm]
        rcases hstart with ⟨c, _, rfl, _⟩ | ⟨c, _, rfl, _⟩ | ⟨_, rfl⟩ <;> rfl
      · exact h.unmet t' g hm
    · intro t' g hg
      rcases eq_or_ne t' t with rfl | hne
      · have hg' : g ∈ s.threads t' := by simpa [State.start] using hg
        have htail := h.suspended t'
        cases hst' : s.threads t' with
        | nil =>
          rw [hst'] at hg'
          cases hg'
        | cons f' fs =>
          rw [hst'] at hg' huser htail
          rcases List.mem_cons.mp hg' with rfl | hg'
          · cases g with
            | body c => rfl
            | _ => cases huser
          · exact htail g hg'
      · exact h.suspended t' g (by simpa [State.start, hne] using hg)
    · intro t'
      rcases eq_or_ne t' t with rfl | hne
      · simp only [State.start, Function.update_self, List.singleton_append, List.pairwise_cons]
        exact ⟨hlight, h.light t'⟩
      · simpa [State.start, hne] using h.light t'

theorem calm_initial : Calm (State.initial : State τ κ) where
  refines := ⟨_, refines_initial⟩
  locked hm := by cases hm
  unmet _ _ hf := absurd hf List.not_mem_nil
  suspended _ _ hf := absurd hf List.not_mem_nil
  light _ := List.Pairwise.nil

/-! ### A thread alone -/

/-- The clear steps. -/
abbrev clear (τ κ : Type) [DecidableEq τ] [DecidableEq κ] : System (State τ κ) (τ × Event κ) :=
  (system τ κ).restrict Clear

/-- Thread `t` can go on alone: the list is free or its own. -/
structure Solo (s : State τ κ) (t : τ) : Prop where
  calm : Calm s
  free : s.mem.list = some .marker → ∃ f ∈ s.threads t, f.holding = true

/-- Thread `t` can return to the frames `fs`. -/
def Pops (s : State τ κ) (t : τ) (fs : List (Frame κ)) : Prop :=
  ∃ s', Reaches (clear τ κ) s s' ∧ s'.threads t = fs ∧ Solo s' t

theorem Pops.trans {s : State τ κ} {t : τ} {fs fs' : List (Frame κ)} (h : Pops s t fs)
    (k : ∀ s', Solo s' t → s'.threads t = fs → Pops s' t fs') : Pops s t fs' := by
  obtain ⟨s₁, hr, hst, hs⟩ := h
  obtain ⟨s₂, hr', h'⟩ := k s₁ hs hst
  exact ⟨s₂, hr.trans hr', h'⟩

/-- The innermost frame makes its step. -/
theorem Solo.step {s : State τ κ} {t : τ} {f : Frame κ} {fs fs' gs : List (Frame κ)}
    {e : Event κ} {m : Memory κ} (h : Solo s t) (hst : s.threads t = f :: fs)
    (he : exec s.mem f = (e, m, gs)) (hc : f.caches = true → s.mem.list ≠ some .marker)
    (k : ∀ s', Solo s' t → s'.mem = m → s'.threads t = gs ++ fs → Pops s' t fs') :
    Pops s t fs' := by
  have hstep : (clear τ κ).step s (t, (exec s.mem f).1)
      ⟨(exec s.mem f).2.1, Stacks.set s.threads t ((exec s.mem f).2.2 ++ fs),
        phaseAfter s.phase (exec s.mem f).1⟩ := by
    refine ⟨⟨.run, by simp [next, hst]⟩, ?_, ?_, ?_⟩
    · intro f' fs' hst'
      rw [hst] at hst'
      cases hst'
      exact hc
    · intro c
      fun_cases exec s.mem f <;> simp
    · intro c
      fun_cases exec s.mem f <;> simp
  have hcalm := calm_step h.calm hstep
  rw [he] at hstep hcalm
  have hsolo : Solo ⟨m, Stacks.set s.threads t (gs ++ fs), phaseAfter s.phase e⟩ t := by
    refine ⟨hcalm, fun hm => ?_⟩
    obtain ⟨r, hr⟩ := h.calm.refines
    rcases exec_marker (frameOk_top hr hst) (by rw [he]; exact hm) with ⟨g, hg, hh⟩ | ⟨hm', hf⟩
    · rw [he] at hg
      exact ⟨g, by simp [hg], hh⟩
    · obtain ⟨g, hg, hh⟩ := h.free hm'
      rw [hst] at hg
      refine ⟨g, ?_, hh⟩
      rcases List.mem_cons.mp hg with rfl | hg
      · rw [hf] at hh
        cases hh
      · simp [hg]
  obtain ⟨s', hr, h'⟩ := k _ hsolo rfl (by simp)
  exact ⟨s', hr.head hstep, h'⟩

/-- The last step of an operation. -/
theorem Solo.last {s : State τ κ} {t : τ} {f : Frame κ} {fs : List (Frame κ)} {e : Event κ}
    {m : Memory κ} (h : Solo s t) (hst : s.threads t = f :: fs)
    (he : exec s.mem f = (e, m, [])) (hc : f.caches = false) : Pops s t fs :=
  h.step hst he (by simp [hc]) fun s' hs _ hst' => ⟨s', .refl s', hst', hs⟩

/-- A frame that needs the list finds it unlocked. -/
theorem Solo.unlocked {s : State τ κ} {t : τ} {f : Frame κ} {fs : List (Frame κ)}
    (h : Solo s t) (hst : s.threads t = f :: fs) (hf : f.holding = false) (hl : ¬ Light s.mem f) :
    s.mem.list ≠ some .marker := by
  intro hm
  obtain ⟨g, hg, hh⟩ := h.free hm
  have hp := h.calm.light t
  rw [hst] at hg hp
  rcases List.mem_cons.mp hg with rfl | hg
  · rw [hf] at hh
    cases hh
  · exact hl ((List.pairwise_cons.mp hp).1 g hg hh)

section Frames

variable {s : State τ κ} {t : τ} {fs : List (Frame κ)} {c : κ}

/-! ### `insert` -/

theorem pops_insertCall (h : Solo s t) (hst : s.threads t = .insertLoop c none :: fs) :
    Pops s t fs := by
  refine h.step hst rfl (by simp [Frame.caches]) fun s₁ h₁ _ hst₁ => ?_
  exact h₁.step hst₁ rfl (by simp [Frame.caches]) fun s₂ h₂ _ hst₂ => h₂.last hst₂ rfl rfl

/-- The cached head is up to date. -/
theorem pops_insertLink (h : Solo s t) {head : Node κ}
    (hst : s.threads t = .insertLoop c (some head) :: fs) (hl : s.mem.list = some head) :
    Pops s t fs := by
  have hfree := h.unlocked hst rfl id
  have hmark : head ≠ .marker := fun he => hfree (by rw [hl, he])
  have he : exec s.mem (.insertLoop c (some head)) = (.link c,
      { s.mem with
        next := Function.update s.mem.next (.callback c) (some head)
        list := some (.callback c) }, [.insertReturn c]) := by
    simp only [exec, if_neg hmark, if_pos hl]
  exact h.step hst he (fun _ => hfree) fun s₁ h₁ _ hst₁ => h₁.last hst₁ rfl rfl

theorem pops_insertLoop (h : Solo s t) {head : Option (Node κ)}
    (hst : s.threads t = .insertLoop c head :: fs) : Pops s t fs := by
  cases head with
  | none => exact pops_insertCall h hst
  | some head =>
    have hfree := h.unlocked hst rfl id
    have hmark : head ≠ .marker := by
      rintro rfl
      have := h.calm.unmet t _ (by rw [hst]; exact List.mem_cons_self)
      cases this
    by_cases hl : s.mem.list = some head
    · exact pops_insertLink h hst hl
    · have he : exec s.mem (.insertLoop c (some head)) = (.tau,
          { s.mem with next := Function.update s.mem.next (.callback c) (some head) },
          [.insertLoop c s.mem.list]) := by
        simp only [exec, if_neg hmark, if_neg hl]
      refine h.step hst he (fun _ => hfree) fun s₁ h₁ hm₁ hst₁ => ?_
      cases hl₁ : s.mem.list with
      | none =>
        rw [hl₁] at hst₁
        exact pops_insertCall h₁ hst₁
      | some head₁ =>
        rw [hl₁] at hst₁
        exact pops_insertLink h₁ hst₁ (by rw [hm₁]; exact hl₁)

theorem pops_insertLoad (h : Solo s t) (hst : s.threads t = .insertLoad c :: fs) : Pops s t fs :=
  h.step hst rfl (fun _ => h.unlocked hst rfl id) fun _ h₁ _ hst₁ => pops_insertLoop h₁ hst₁

/-! ### `remove` -/

theorem pops_removeStore (h : Solo s t) {head : Option (Node κ)}
    (hst : s.threads t = .removeStore c head :: fs) : Pops s t fs :=
  h.step hst rfl (by simp [Frame.caches]) fun _ h₁ _ hst₁ => h₁.last hst₁ rfl rfl

/-- The walk ends: the induction is on the nodes that follow in the list. -/
theorem pops_removeWalk_path {ys : List (Node κ)} {n head : Node κ} (h : Solo s t)
    (hst : s.threads t = .removeWalk c head (some n) :: fs)
    (hp : Path s.mem.next (s.mem.next n) ys) (hc : .callback c ∈ ys) : Pops s t fs := by
  induction ys generalizing s n with
  | nil => cases hc
  | cons n' ys ih =>
    obtain ⟨hnext, hrest⟩ := hp
    by_cases hn : n' = .callback c
    · subst hn
      have he : exec s.mem (.removeWalk c head (some n)) = (.tau,
          { s.mem with next := Function.update s.mem.next n (s.mem.next (.callback c)) },
          [.removeStore c (some head)]) := by
        simp only [exec, if_pos hnext]
      exact h.step hst he (by simp [Frame.caches]) fun _ h₁ _ hst₁ => pops_removeStore h₁ hst₁
    · have he : exec s.mem (.removeWalk c head (some n)) = (.tau, s.mem,
          [.removeWalk c head (some n')]) := by
        simp [exec, hnext, hn]
      refine h.step hst he (by simp [Frame.caches]) fun s₁ h₁ hm₁ hst₁ => ?_
      refine ih h₁ hst₁ ?_ ((List.mem_cons.mp hc).resolve_left (Ne.symm hn))
      rw [hm₁]
      exact hrest

theorem pops_removeWalk (h : Solo s t) {head : Node κ} {node : Option (Node κ)}
    (hst : s.threads t = .removeWalk c head node :: fs) : Pops s t fs := by
  obtain ⟨r, hr⟩ := h.calm.refines
  obtain ⟨cs, xs, n, ys, _, rfl, hsplit, hc, hp⟩ := frameOk_top hr hst
  exact pops_removeWalk_path h hst (hsplit ▸ hp).suffix hc

/-- The cached head is up to date. -/
theorem pops_removeTake (h : Solo s t) (hst : s.threads t = .removeLoop c s.mem.list :: fs) :
    Pops s t fs := by
  have hfree := h.unlocked hst rfl id
  cases hl : s.mem.list with
  | none =>
    rw [hl] at hst
    exact h.step hst rfl (by simp [Frame.caches]) fun _ h₁ _ hst₁ => h₁.last hst₁ rfl rfl
  | some head =>
    rw [hl] at hst
    have hmark : head ≠ .marker := fun he => hfree (by rw [hl, he])
    have he : exec s.mem (.removeLoop c (some head)) = (.removeTake c,
        { s.mem with list := some .marker },
        if head = .callback c then [.removeStore c (s.mem.next head)]
          else [.removeWalk c head (some head)]) := by
      simp only [exec, if_neg hmark, if_pos hl]
    refine h.step hst he (by simp [Frame.caches]) fun s₁ h₁ _ hst₁ => ?_
    split at hst₁
    · exact pops_removeStore h₁ hst₁
    · exact pops_removeWalk h₁ hst₁

theorem pops_removeLoad (h : Solo s t) (hst : s.threads t = .removeLoad c :: fs) : Pops s t fs :=
  h.step hst rfl (by simp [Frame.caches]) fun s₁ h₁ hm₁ hst₁ =>
    pops_removeTake h₁ (by rw [hm₁]; exact hst₁)

theorem pops_removeLoop (h : Solo s t) {head : Option (Node κ)}
    (hst : s.threads t = .removeLoop c head :: fs) : Pops s t fs := by
  by_cases hl : s.mem.list = head
  · exact pops_removeTake h (by rw [hl]; exact hst)
  · cases head with
    | none => exact h.step hst rfl (by simp [Frame.caches]) fun _ h₁ _ hst₁ => h₁.last hst₁ rfl rfl
    | some head =>
      have he : exec s.mem (.removeLoop c (some head)) = (.tau, s.mem, [.removeLoad c]) := by
        simp only [exec, if_neg hl, ite_self]
      exact h.step hst he (by simp [Frame.caches]) fun _ h₁ _ hst₁ => pops_removeLoad h₁ hst₁

theorem pops_removeCheck (h : Solo s t) (hst : s.threads t = .removeCheck c :: fs) :
    Pops s t fs := by
  cases hc : s.mem.called (.callback c) with
  | true =>
    have he : exec s.mem (.removeCheck c) = (.removeSkip c, s.mem, [.removeReturn c]) := by
      simp [exec, hc]
    exact h.step hst he (by simp [Frame.caches]) fun _ h₁ _ hst₁ => h₁.last hst₁ rfl rfl
  | false =>
    have he : exec s.mem (.removeCheck c) = (.tau, s.mem, [.removeLoad c]) := by simp [exec, hc]
    exact h.step hst he (by simp [Frame.caches]) fun _ h₁ _ hst₁ => pops_removeLoad h₁ hst₁

/-! ### `stop` -/

/-- The callbacks are called one after the other. -/
theorem pops_stopWalk_path {xs : List (Node κ)} {node : Option (Node κ)} (h : Solo s t)
    (hst : s.threads t = .stopWalk node :: fs) (hp : Path s.mem.next node xs) : Pops s t fs := by
  induction xs generalizing s node with
  | nil =>
    cases hp
    exact h.step hst rfl (by simp [Frame.caches]) fun _ h₁ _ hst₁ => h₁.last hst₁ rfl rfl
  | cons n xs ih =>
    obtain ⟨rfl, hrest⟩ := hp
    cases n with
    | callback c =>
      refine h.step hst rfl (by simp [Frame.caches]) fun s₁ h₁ hm₁ hst₁ => ?_
      refine h₁.step hst₁ rfl (by simp [Frame.caches]) fun s₂ h₂ hm₂ hst₂ => ?_
      refine ih h₂ hst₂ ?_
      rw [hm₂, hm₁]
      exact hrest
    | marker | endNode =>
      refine h.step hst rfl (by simp [Frame.caches]) fun s₁ h₁ hm₁ hst₁ => ih h₁ hst₁ ?_
      rw [hm₁]
      exact hrest

theorem pops_stopWalk (h : Solo s t) {node : Option (Node κ)}
    (hst : s.threads t = .stopWalk node :: fs) : Pops s t fs := by
  obtain ⟨r, hr⟩ := h.calm.refines
  obtain ⟨cs, _, hp | ⟨_, rfl⟩⟩ := frameOk_top hr hst
  · exact pops_stopWalk_path h hst hp
  · exact pops_stopWalk_path h hst (show Path s.mem.next none [] from rfl)

/-- The cached head is up to date. -/
theorem pops_stopTake (h : Solo s t) (hst : s.threads t = .stopLoop s.mem.list :: fs) :
    Pops s t fs := by
  have hfree := h.unlocked hst rfl id
  cases hl : s.mem.list with
  | none =>
    rw [hl] at hst
    exact h.step hst rfl (by simp [Frame.caches]) fun _ h₁ _ hst₁ => h₁.last hst₁ rfl rfl
  | some head =>
    rw [hl] at hst
    have hmark : head ≠ .marker := fun he => hfree (by rw [hl, he])
    have he : exec s.mem (.stopLoop (some head)) =
        (.stopTake, { s.mem with list := some .marker }, [.stopWalk (some head)]) := by
      simp only [exec, if_neg hmark, if_pos hl]
    exact h.step hst he (fun _ => hfree) fun _ h₁ _ hst₁ => pops_stopWalk h₁ hst₁

theorem pops_stopLoop (h : Solo s t) {head : Option (Node κ)}
    (hst : s.threads t = .stopLoop head :: fs) : Pops s t fs := by
  by_cases hl : s.mem.list = head
  · exact pops_stopTake h (by rw [hl]; exact hst)
  · cases head with
    | none => exact h.step hst rfl (by simp [Frame.caches]) fun _ h₁ _ hst₁ => h₁.last hst₁ rfl rfl
    | some head =>
      have hmark : head ≠ .marker := by
        rintro rfl
        have := h.calm.unmet t _ (by rw [hst]; exact List.mem_cons_self)
        cases this
      have he : exec s.mem (.stopLoop (some head)) = (.tau, s.mem, [.stopLoop s.mem.list]) := by
        simp only [exec, if_neg hmark, if_neg hl]
      exact h.step hst he (fun _ => h.unlocked hst rfl id) fun s₁ h₁ hm₁ hst₁ =>
        pops_stopTake h₁ (by rw [hm₁]; exact hst₁)

theorem pops_stopLoad (h : Solo s t) (hst : s.threads t = .stopLoad :: fs) : Pops s t fs :=
  h.step hst rfl (fun _ => h.unlocked hst rfl id) fun _ h₁ _ hst₁ => pops_stopLoop h₁ hst₁

theorem pops_stopExchange (h : Solo s t) (hst : s.threads t = .stopExchange :: fs) :
    Pops s t fs := by
  cases hr : s.mem.stop_requested with
  | true =>
    have he : exec s.mem (.stopExchange (κ := κ)) = (.tau, s.mem, [.stopReturn false]) := by
      simp [exec, hr]
    exact h.step hst he (by simp [Frame.caches]) fun _ h₁ _ hst₁ => h₁.last hst₁ rfl rfl
  | false =>
    have he : exec s.mem (.stopExchange (κ := κ)) =
        (.stopWin, { s.mem with stop_requested := true }, [.stopLoad]) := by
      simp [exec, hr]
    exact h.step hst he (by simp [Frame.caches]) fun _ h₁ _ hst₁ => pops_stopLoad h₁ hst₁

end Frames

theorem pops_top {s : State τ κ} {t : τ} {f : Frame κ} {fs : List (Frame κ)} (h : Solo s t)
    (hst : s.threads t = f :: fs) : Pops s t fs := by
  cases f with
  | insertLoad c => exact pops_insertLoad h hst
  | insertLoop c head => exact pops_insertLoop h hst
  | removeCheck c => exact pops_removeCheck h hst
  | removeLoad c => exact pops_removeLoad h hst
  | removeLoop c head => exact pops_removeLoop h hst
  | removeWalk c head node => exact pops_removeWalk h hst
  | removeStore c head => exact pops_removeStore h hst
  | stopExchange => exact pops_stopExchange h hst
  | stopLoad => exact pops_stopLoad h hst
  | stopLoop head => exact pops_stopLoop h hst
  | stopWalk node => exact pops_stopWalk h hst
  | insertReturn c | removeReturn c | stopReturn won | body c => exact h.last hst rfl rfl

/-- A thread that goes on alone returns from everything. -/
theorem pops_all {s : State τ κ} {t : τ} {fs : List (Frame κ)} (h : Solo s t)
    (hst : s.threads t = fs) : Pops s t [] := by
  induction fs generalizing s with
  | nil => exact ⟨s, .refl s, hst, h⟩
  | cons f fs ih => exact (pops_top h hst).trans fun s' h' hst' => ih h' hst'

end InPlaceProgressLemmas

open InPlaceProgressLemmas

/-! ## 3. Progress -/

/-- In a run whose steps are all clear, every thread can return from all of its
operations, and does so in clear steps: first the thread that holds the list
returns, then any other thread can go on alone. -/
theorem can_return {s : State τ κ} {tr : List (τ × Event κ)}
    (h : Run ((system τ κ).restrict Clear) State.initial tr s) (t : τ) :
    ∃ s', Reaches ((system τ κ).restrict Clear) s s' ∧ s'.threads t = [] := by
  have hcalm : Calm s := h.invariant_state calm_initial fun _ _ _ => calm_step
  have alone : ∀ s : State τ κ, Calm s → s.mem.list ≠ some .marker → Pops s t [] := fun s hs hl =>
    pops_all ⟨hs, fun hm => absurd hm hl⟩ rfl
  by_cases hl : s.mem.list = some .marker
  · obtain ⟨t', f, hf, hh⟩ := hcalm.locked hl
    obtain ⟨s₁, hr₁, hst₁, hs₁⟩ := pops_all ⟨hcalm, fun _ => ⟨f, hf, hh⟩⟩ rfl
    have hl₁ : s₁.mem.list ≠ some .marker := by
      intro hm
      obtain ⟨g, hg, _⟩ := hs₁.free hm
      rw [hst₁] at hg
      cases hg
    obtain ⟨s', hr', hst', _⟩ := alone s₁ hs₁.calm hl₁
    exact ⟨s', hr₁.trans hr', hst'⟩
  · obtain ⟨s', hr', hst', _⟩ := alone s hcalm hl
    exact ⟨s', hr', hst'⟩

/-- An insertion that has just started. -/
theorem can_return_example : ∃ s : State Nat Nat, s.threads 0 = [.insertLoad 0] ∧
    ∃ s', Reaches ((system Nat Nat).restrict Clear) s s' ∧ s'.threads 0 = [] := by
  have hrun : Run ((system Nat Nat).restrict Clear) State.initial [(0, .insertStart 0)]
      ((State.initial : State Nat Nat).start 0 (.insertStart 0) (.insertLoad 0)).2 := by
    refine Run.single ⟨⟨.insert 0, rfl⟩, ?_, ?_, ?_⟩
    · intro f fs hst
      cases hst
    · intro _ _ f hf
      cases hf
    · intro c he
      cases he
  exact ⟨_, rfl, can_return hrun 0⟩

end Kuhllib.InPlaceStopSource
