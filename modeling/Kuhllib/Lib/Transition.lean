import Mathlib.Data.List.Induction

/-!
# Labelled transition systems and their runs

A system is a set of initial states and a labelled step relation. A run keeps
the list of its labels, oldest first, so that a statement about "what happened
before" is a statement about a list.

* `Run.invariant`: an induction over the steps of a run that may speak about
  the labels so far.
* `System.restrict`: the same system with only the steps that meet a condition.
* `Run.simulate`: a forward simulation carries a run of one system to a run of
  another with the same labels.
* `play`, `replay`: the run along a list of choices or labels, where the steps
  can be computed.
-/

namespace Transition

universe u v

/-- A labelled transition system. -/
structure System (σ : Type u) (ε : Type v) where
  init : σ → Prop
  step : σ → ε → σ → Prop

variable {σ : Type u} {ε : Type v} {S : System σ ε}

/-- `Run S s₀ tr s`: from `s₀` the labels `tr` lead to `s`. -/
inductive Run (S : System σ ε) (s₀ : σ) : List ε → σ → Prop
  | nil : Run S s₀ [] s₀
  | snoc {tr : List ε} {s s' : σ} {e : ε} :
      Run S s₀ tr s → S.step s e s' → Run S s₀ (tr ++ [e]) s'

/-- Some run leads from `s` to `s'`. -/
def Reaches (S : System σ ε) (s s' : σ) : Prop := ∃ tr, Run S s tr s'

/-- `s` is reached from an initial state. -/
def Reachable (S : System σ ε) (s : σ) : Prop := ∃ s₀ tr, S.init s₀ ∧ Run S s₀ tr s

/-- The system that takes only the steps allowed by `ok`. -/
def System.restrict (S : System σ ε) (ok : σ → ε → Prop) : System σ ε where
  init := S.init
  step s e s' := S.step s e s' ∧ ok s e

theorem Run.single {s s' : σ} {e : ε} (h : S.step s e s') : Run S s [e] s' :=
  Run.snoc .nil h

theorem Run.append {s₀ s s' : σ} {tr tr' : List ε} (h : Run S s₀ tr s) (h' : Run S s tr' s') :
    Run S s₀ (tr ++ tr') s' := by
  induction h' with
  | nil => simpa using h
  | snoc _ hs ih => rw [← List.append_assoc]; exact ih.snoc hs

theorem Run.cons {s s' s'' : σ} {e : ε} {tr : List ε} (h : S.step s e s') (h' : Run S s' tr s'') :
    Run S s (e :: tr) s'' :=
  (Run.single h).append h'

/-- A run splits wherever its list of labels splits. -/
theorem Run.split {s₀ s : σ} {tr tr' : List ε} (h : Run S s₀ (tr ++ tr') s) :
    ∃ s', Run S s₀ tr s' ∧ Run S s' tr' s := by
  induction tr' using List.reverseRecOn generalizing s with
  | nil => exact ⟨s, by simpa using h, .nil⟩
  | append_singleton tr' e ih =>
    rw [← List.append_assoc] at h
    generalize hl : tr ++ tr' ++ [e] = l at h
    cases h with
    | nil => simp at hl
    | snoc h hs =>
      obtain ⟨rfl, he⟩ := List.append_inj' hl rfl
      obtain ⟨s', h₁, h₂⟩ := ih h
      cases he
      exact ⟨s', h₁, h₂.snoc hs⟩

theorem Run.nil_eq {s₀ s : σ} (h : Run S s₀ [] s) : s = s₀ := by
  generalize hl : ([] : List ε) = l at h
  cases h with
  | nil => rfl
  | snoc _ _ => simp at hl

theorem Run.single_step {s s' : σ} {e : ε} (h : Run S s [e] s') : S.step s e s' := by
  generalize hl : [e] = l at h
  cases h with
  | nil => simp at hl
  | @snoc tr _ _ _ h hs =>
    rw [← List.nil_append [e]] at hl
    obtain ⟨rfl, he⟩ := List.append_inj' hl rfl
    cases he
    rwa [← h.nil_eq]

/-- The first step of a run. -/
theorem Run.uncons {s s' : σ} {e : ε} {tr : List ε} (h : Run S s (e :: tr) s') :
    ∃ s₁, S.step s e s₁ ∧ Run S s₁ tr s' := by
  obtain ⟨s₁, h₁, h₂⟩ := (show Run S s ([e] ++ tr) s' from h).split
  exact ⟨s₁, h₁.single_step, h₂⟩

/-- The induction rule: what holds at the start and is kept by every step holds
along every run. -/
theorem Run.invariant {I : List ε → σ → Prop} {s₀ s : σ} {tr : List ε} (h : Run S s₀ tr s)
    (start : I [] s₀)
    (keep : ∀ tr s e s', I tr s → S.step s e s' → I (tr ++ [e]) s') : I tr s := by
  induction h with
  | nil => exact start
  | snoc _ hs ih => exact keep _ _ _ _ ih hs

/-- The induction rule for an invariant of the states alone. -/
theorem Run.invariant_state {I : σ → Prop} {s₀ s : σ} {tr : List ε} (h : Run S s₀ tr s)
    (start : I s₀) (keep : ∀ s e s', I s → S.step s e s' → I s') : I s :=
  h.invariant (I := fun _ => I) start fun _ _ _ _ => keep _ _ _

/-- Where a step is determined by its label, the labels of a run determine where it leads. -/
theorem Run.eq_of_functional (hf : ∀ s e s₁ s₂, S.step s e s₁ → S.step s e s₂ → s₁ = s₂)
    {s₀ s s' : σ} {tr : List ε} (h : Run S s₀ tr s) (h' : Run S s₀ tr s') : s = s' := by
  induction h generalizing s' with
  | nil => exact h'.nil_eq.symm
  | snoc _ hs ih =>
    obtain ⟨s₁, h₁, hs₁⟩ := h'.split
    cases ih h₁
    exact hf _ _ _ _ hs hs₁.single_step

/-- A run of the restricted system is a run of the system. -/
theorem Run.unrestrict {ok : σ → ε → Prop} {s₀ s : σ} {tr : List ε}
    (h : Run (S.restrict ok) s₀ tr s) : Run S s₀ tr s := by
  induction h with
  | nil => exact .nil
  | snoc _ hs ih => exact ih.snoc hs.1

/-- A run of the system whose labels are all allowed. -/
theorem Run.restrict {ok : σ → ε → Prop} {s₀ s : σ} {tr : List ε} (h : Run S s₀ tr s)
    (hok : ∀ e ∈ tr, ∀ s, ok s e) : Run (S.restrict ok) s₀ tr s := by
  induction h with
  | nil => exact .nil
  | snoc _ hs ih =>
    exact (ih fun e he => hok e (List.mem_append_left _ he)).snoc
      ⟨hs, hok _ (List.mem_append_right _ (List.mem_singleton_self _)) _⟩

/-- What every step keeps under a condition, and no other step keeps, holds all along a list of
labels exactly if all steps meet the condition. -/
theorem prefixes_iff {I : List ε → σ → Prop} {ok : σ → ε → Prop} {s₀ : σ} {tr : List ε}
    (start : I [] s₀)
    (keep : ∀ p s e s', Run S s₀ p s → I p s → S.step s e s' → (I (p ++ [e]) s' ↔ ok s e)) :
    (∀ p s, p <+: tr → Run S s₀ p s → I p s) ↔
      ∀ p s e s', p ++ [e] <+: tr → Run S s₀ p s → S.step s e s' → ok s e := by
  constructor
  · intro hall p s e s' hp hr hs
    have hi := hall p s ((List.prefix_append p [e]).trans hp) hr
    exact (keep p s e s' hr hi hs).mp (hall _ _ hp (hr.snoc hs))
  · intro hok p s hp hr
    induction hr with
    | nil => exact start
    | @snoc q s s' e hr hs ih =>
      have hi := ih ((List.prefix_append q [e]).trans hp)
      exact (keep q s e s' hr hi hs).mpr (hok q s e s' hp hr hs)

theorem Reaches.refl (s : σ) : Reaches S s s := ⟨[], .nil⟩

theorem Reaches.trans {s s' s'' : σ} (h : Reaches S s s') (h' : Reaches S s' s'') :
    Reaches S s s'' :=
  let ⟨_, r⟩ := h
  let ⟨_, r'⟩ := h'
  ⟨_, r.append r'⟩

theorem Reaches.head {s s' s'' : σ} {e : ε} (h : S.step s e s') (h' : Reaches S s' s'') :
    Reaches S s s'' :=
  Reaches.trans ⟨_, Run.single h⟩ h'

/-- A forward simulation: what one system does in one step, the other one can
do in one step with the same label. -/
theorem Run.simulate {σ' : Type*} {S' : System σ' ε} {R : σ' → σ → Prop} {s₀ s : σ} {a₀ : σ'}
    {tr : List ε} (h : Run S s₀ tr s) (start : R a₀ s₀)
    (keep : ∀ a s e s', R a s → S.step s e s' → ∃ a', S'.step a e a' ∧ R a' s') :
    ∃ a, Run S' a₀ tr a ∧ R a s := by
  induction h with
  | nil => exact ⟨a₀, .nil, start⟩
  | snoc _ hs ih =>
    obtain ⟨a, ha, hr⟩ := ih
    obtain ⟨a', hs', hr'⟩ := keep _ _ _ _ hr hs
    exact ⟨a', ha.snoc hs', hr'⟩

/-- The labels and the last state of the run along a list of choices. -/
def play {ι : Type*} (next : σ → ι → Option (ε × σ)) : σ → List ι → Option (List ε × σ)
  | s, [] => some ([], s)
  | s, i :: is => do
    let (e, s') ← next s i
    let (tr, s'') ← play next s' is
    pure (e :: tr, s'')

theorem play_run {ι : Type*} {next : σ → ι → Option (ε × σ)}
    (hn : ∀ s i e s', next s i = some (e, s') → S.step s e s') {s s' : σ} {is : List ι}
    {tr : List ε} (h : play next s is = some (tr, s')) : Run S s tr s' := by
  induction is generalizing s tr with
  | nil =>
    cases h
    exact .nil
  | cons i is ih =>
    simp only [play, Option.bind_eq_bind, Option.bind_eq_some_iff, Option.pure_def,
      Option.some.injEq, Prod.mk.injEq, Prod.exists] at h
    obtain ⟨e, s₁, hs, tr', s₂, hp, rfl, rfl⟩ := h
    exact Run.cons (hn _ _ _ _ hs) (ih hp)

/-- A run with the given labels exists if the choices produce them. -/
theorem run_of_play {ι : Type*} {next : σ → ι → Option (ε × σ)}
    (hn : ∀ s i e s', next s i = some (e, s') → S.step s e s') {s : σ} {is : List ι}
    {tr : List ε} (h : (play next s is).map Prod.fst = some tr) : ∃ s', Run S s tr s' := by
  obtain ⟨⟨tr', s'⟩, hp, rfl⟩ := Option.map_eq_some_iff.mp h
  exact ⟨s', play_run hn hp⟩

/-- Every choice is made in a state that allows it. -/
def Along {ι : Type*} (next : σ → ι → Option (ε × σ)) (ok : σ → ι → Prop) : σ → List ι → Prop
  | _, [] => True
  | s, i :: is => ok s i ∧ ∀ r ∈ next s i, Along next ok r.2 is

instance decidableAlong {ι : Type*} {next : σ → ι → Option (ε × σ)} {ok : σ → ι → Prop}
    [∀ s i, Decidable (ok s i)] : ∀ s is, Decidable (Along next ok s is)
  | _, [] => inferInstanceAs (Decidable True)
  | s, i :: is =>
    haveI : ∀ r : ε × σ, Decidable (Along next ok r.2 is) := fun r => decidableAlong r.2 is
    inferInstanceAs (Decidable (ok s i ∧ ∀ r ∈ next s i, Along next ok r.2 is))

/-- What one system does for a list of choices, another one does. The relation may depend on
the choices that are left. -/
theorem play_pairs {ι σ' : Type*} {next : σ → ι → Option (ε × σ)}
    {next' : σ' → ι → Option (ε × σ')} {P : σ' → σ → List ι → Prop}
    (keep : ∀ a s i is e a', P a s (i :: is) → next' a i = some (e, a') →
      ∃ s', next s i = some (e, s') ∧ P a' s' is)
    {a a' : σ'} {s : σ} {is : List ι} {tr : List ε} (hp : P a s is)
    (h : play next' a is = some (tr, a')) : ∃ s', play next s is = some (tr, s') ∧ P a' s' [] := by
  induction is generalizing a s tr with
  | nil =>
    cases h
    exact ⟨s, rfl, hp⟩
  | cons i is ih =>
    simp only [play, Option.bind_eq_bind, Option.bind_eq_some_iff, Option.pure_def,
      Option.some.injEq, Prod.mk.injEq, Prod.exists] at h
    obtain ⟨e, a₁, hs', tr', a₂, h, rfl, rfl⟩ := h
    obtain ⟨s₁, hs, hp₁⟩ := keep a s i is e a₁ hp hs'
    obtain ⟨s₂, hplay, hp₂⟩ := ih hp₁ h
    refine ⟨s₂, ?_, hp₂⟩
    simp only [play, hs, hplay, Option.bind_eq_bind, Option.bind_some, Option.pure_def]

/-- Every step is allowed in the system that follows. -/
theorem play_simulate {ι σ' : Type*} {next : σ → ι → Option (ε × σ)}
    {next' : σ' → ι → Option (ε × σ')} {R : σ' → σ → Prop} {ok : σ → ι → Prop}
    (keep : ∀ a s i e a', R a s → ok s i → next' a i = some (e, a') →
      ∃ s', next s i = some (e, s') ∧ R a' s')
    {a a' : σ'} {s : σ} {is : List ι} {tr : List ε} (hr : R a s) (hok : Along next ok s is)
    (h : play next' a is = some (tr, a')) : ∃ s', play next s is = some (tr, s') ∧ R a' s' := by
  obtain ⟨s', hs, hr', -⟩ := play_pairs (P := fun a s is => R a s ∧ Along next ok s is)
    (fun a s i is e a' hp hs' => by
      obtain ⟨s', hs, hr'⟩ := keep a s i e a' hp.1 hp.2.1 hs'
      exact ⟨s', hs, hr', hp.2.2 _ hs⟩) ⟨hr, hok⟩ h
  exact ⟨s', hs, hr'⟩

/-- Every step is allowed in the system that is followed. -/
theorem play_follow {ι σ' : Type*} {next : σ → ι → Option (ε × σ)}
    {next' : σ' → ι → Option (ε × σ')} {R : σ' → σ → Prop} {ok : σ' → ι → Prop}
    (keep : ∀ a s i e a', R a s → ok a i → next' a i = some (e, a') →
      ∃ s', next s i = some (e, s') ∧ R a' s')
    {a a' : σ'} {s : σ} {is : List ι} {tr : List ε} (hr : R a s) (hok : Along next' ok a is)
    (h : play next' a is = some (tr, a')) : ∃ s', play next s is = some (tr, s') ∧ R a' s' := by
  obtain ⟨s', hs, hr', -⟩ := play_pairs (P := fun a s is => R a s ∧ Along next' ok a is)
    (fun a s i is e a' hp hs' => by
      obtain ⟨s', hs, hr'⟩ := keep a s i e a' hp.1 hp.2.1 hs'
      exact ⟨s', hs, hr', hp.2.2 _ hs'⟩) ⟨hr, hok⟩ h
  exact ⟨s', hs, hr'⟩

theorem play_total {ι : Type*} {next : σ → ι → Option (ε × σ)}
    (hn : ∀ s i, ∃ e s', next s i = some (e, s')) (s : σ) (is : List ι) :
    ∃ tr s', play next s is = some (tr, s') := by
  induction is generalizing s with
  | nil => exact ⟨[], s, rfl⟩
  | cons i is ih =>
    obtain ⟨e, s₁, hs⟩ := hn s i
    obtain ⟨tr, s', hp⟩ := ih s₁
    refine ⟨e :: tr, s', ?_⟩
    simp only [play, hs, hp, Option.bind_eq_bind, Option.bind_some, Option.pure_def]

/-- The state that the labels lead to. -/
def replay (next : σ → ε → Option σ) : σ → List ε → Option σ
  | s, [] => some s
  | s, e :: es => (next s e).bind fun s' => replay next s' es

theorem run_replay {next : σ → ε → Option σ} (hn : ∀ s e s', next s e = some s' → S.step s e s')
    {s : σ} {es : List ε} (h : (replay next s es).isSome) :
    Run S s es ((replay next s es).get h) := by
  obtain ⟨s', hs'⟩ := Option.isSome_iff_exists.mp h
  simp only [hs', Option.get_some]
  clear h
  induction es generalizing s with
  | nil =>
    cases hs'
    exact .nil
  | cons e es ih =>
    obtain ⟨s₁, hs, hr⟩ := Option.bind_eq_some_iff.mp hs'
    exact Run.cons (hn _ _ _ hs) (ih hr)

/-- A run of the restricted system along a list of labels. -/
theorem run_replay_restrict {next : σ → ε → Option σ} {ok : σ → ε → Prop}
    [∀ s e, Decidable (ok s e)] (hn : ∀ s e s', next s e = some s' → S.step s e s') {s : σ}
    {es : List ε} (h : (replay (fun s e => if ok s e then next s e else none) s es).isSome) :
    Run (S.restrict ok) s es
      ((replay (fun s e => if ok s e then next s e else none) s es).get h) := by
  refine run_replay (S := S.restrict ok) (fun s e s' hs => ?_) h
  obtain ⟨hok, hs⟩ := Option.ite_none_right_eq_some.mp hs
  exact ⟨hn _ _ _ hs, hok⟩

end Transition
