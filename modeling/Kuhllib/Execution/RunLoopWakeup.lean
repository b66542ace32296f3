import Kuhllib.Execution.RunLoop
import Mathlib.Algebra.BigOperators.Group.Finset.Basic

/-!
# Lost wake-ups of `run_loop`

`push_back` does not notify, and `finish` notifies one thread only. A wake-up is
lost when a thread is blocked although the predicate that it waits for is true,
no notification is to come and no other call of `run()` will take the work.
`Clear` is the condition on a step under which this does not happen.

Results:
1. `clear_step`: the notifications that are still to come.
2. `internal_length_le`: the loop comes to rest when nobody uses it.
3. `no_lost_wakeup`: in clear runs no wake-up is lost, and at rest everything
   that was pushed while a call of `run()` was under way has been executed.
-/

namespace Kuhllib.RunLoop

open Transition RunLoopLemmas

variable {ρ κ : Type} [DecidableEq ρ] [DecidableEq κ]

/-- The call of `run()` is going to enter `pop_front()`. -/
def Runner.active : Runner κ → Bool
  | .locking | .executing _ => true
  | .outside | .waiting | .returned => false

/-- When the loop is finishing another call of `run()` is no help: it does not
notify the blocked thread, which has to return too. -/
structure Lost (s : State ρ κ) : Prop where
  blocked : s.d_cond ≠ []
  predicate : s.predicate
  notifying : s.notifying = 0
  helpless : s.d_phase = .finishing ∨ ∀ r, (s.runner r).active = false

/-- The condition on the state before a step. -/
def Clear (s : State ρ κ) : Label ρ κ → Prop
  | .push_back _ => s.d_cond = [] ∨ 0 < s.notifying ∨ ∃ r, (s.runner r).active = true
  | .notify_one _ => s.notifying = 1 → s.d_cond.length ≤ 1
  | _ => True

/-! ## 1. Notifications to come -/

structure Served (s : State ρ κ) : Prop where
  finishing : s.d_phase = .finishing → s.notifying = 0 → s.d_cond = []
  list : s.d_list ≠ [] → s.d_cond = [] ∨ 0 < s.notifying ∨ ∃ r, (s.runner r).active = true

namespace RunLoopWakeupLemmas

omit [DecidableEq ρ] [DecidableEq κ] in
theorem served_initial : Served (State.initial : State ρ κ) where
  finishing h := by cases h
  list h := absurd rfl h

omit [DecidableEq ρ] [DecidableEq κ] in
theorem not_lost_of_served {s : State ρ κ} (h : Served s) : ¬ Lost s := by
  intro hl
  obtain ⟨hblocked, hpredicate, hnotifying, hhelpless⟩ := hl
  have hphase : s.d_phase ≠ .finishing := fun hf => hblocked (h.finishing hf hnotifying)
  rcases h.list (hpredicate.resolve_right hphase) with hc | hc | ⟨r, hr⟩
  · exact hblocked hc
  · omega
  · rw [(hhelpless.resolve_left hphase) r] at hr
    cases hr

omit [DecidableEq κ] in
theorem active_update {f : ρ → Runner κ} {r : ρ} {x : Runner κ} (hx : x.active = true) :
    ∃ r', (Function.update f r x r').active = true :=
  ⟨r, by simpa using hx⟩

omit [DecidableEq κ] in
/-- A blocked thread becomes active. -/
theorem served_wake {s : State ρ κ} {r : ρ} {n : Nat}
    (h : s.d_phase = .finishing → n = 0 → s.d_cond.erase r = []) :
    Served { s.wake r with notifying := n } where
  finishing := h
  list _ := .inr (.inr (active_update rfl))

end RunLoopWakeupLemmas

open RunLoopWakeupLemmas

/-- Every clear step leaves a notification or an active call for a blocked thread
that has something to do. -/
theorem clear_step {s s' : State ρ κ} {l : Label ρ κ} (h : Served s) (hclear : Clear s l)
    (hs : next s l = some s') : Served s' := by
  cases l with
  | push_back c =>
    obtain ⟨-, hs⟩ := Option.ite_none_right_eq_some.mp hs
    cases hs
    exact ⟨h.finishing, fun _ => hclear⟩
  | run r =>
    obtain ⟨-, hs⟩ := Option.ite_none_right_eq_some.mp hs
    cases hs
    exact ⟨h.finishing, fun _ => .inr (.inr (active_update rfl))⟩
  | pop_front r p =>
    obtain ⟨⟨-, hp⟩, hs⟩ := Option.ite_none_right_eq_some.mp hs
    cases hs
    rcases pop_front_cases s with ⟨he, hl, hf⟩ | ⟨he, hl, hf⟩ | ⟨c, cs, he, hl⟩
    · rw [he] at hp ⊢
      exact ⟨fun hfinishing => absurd hfinishing hf, fun hne => absurd hl hne⟩
    · rw [he] at hp ⊢
      subst hp
      exact ⟨h.finishing, fun hne => absurd hl hne⟩
    · rw [he] at hp ⊢
      subst hp
      exact ⟨h.finishing, fun _ => .inr (.inr (active_update rfl))⟩
  | execute r c =>
    obtain ⟨-, hs⟩ := Option.ite_none_right_eq_some.mp hs
    cases hs
    exact ⟨h.finishing, fun _ => .inr (.inr (active_update rfl))⟩
  | finish =>
    cases hs
    exact ⟨fun _ hn => absurd hn (Nat.succ_ne_zero _), fun _ => .inr (.inl (Nat.succ_pos _))⟩
  | notify_one w =>
    cases w with
    | none =>
      obtain ⟨⟨-, hcond⟩, hs⟩ := Option.ite_none_right_eq_some.mp hs
      cases hs
      exact ⟨fun _ _ => hcond, fun _ => .inl hcond⟩
    | some r =>
      obtain ⟨⟨hpos, hr⟩, hs⟩ := Option.ite_none_right_eq_some.mp hs
      cases hs
      refine served_wake fun _ hn => ?_
      -- the last notification finds one blocked thread
      have hlen : s.d_cond.length ≤ 1 := hclear (by omega)
      have := List.length_erase_of_mem hr
      exact List.length_eq_zero_iff.mp (by omega)
  | spurious r =>
    obtain ⟨hr, hs⟩ := Option.ite_none_right_eq_some.mp hs
    cases hs
    refine served_wake fun hf hn => ?_
    rw [h.finishing hf hn] at hr
    cases hr

/-! ## 2. The loop comes to rest -/

/-- What the loop does by itself. -/
def Label.internal : Label ρ κ → Bool
  | .pop_front _ _ | .execute _ _ | .notify_one _ => true
  | .push_back _ | .run _ | .finish | .spurious _ => false

def Runner.work : Runner κ → Nat
  | .locking => 1
  | .executing _ => 2
  | .outside | .waiting | .returned => 0

/-- A bound for the internal steps to come, of the calls `rs`. -/
def State.work (s : State ρ κ) (rs : Finset ρ) : Nat :=
  3 * s.d_list.length + 2 * s.notifying + ∑ r ∈ rs, (s.runner r).work

/-- At rest: nothing can be done without a call from outside. -/
def Quiet (s : State ρ κ) : Prop := ∀ l : Label ρ κ, l.internal = true → next s l = none

namespace RunLoopWakeupLemmas

omit [DecidableEq κ] in
theorem work_update {f : ρ → Runner κ} {rs : Finset ρ} {r : ρ} (hr : r ∈ rs) (x : Runner κ) :
    ∑ r' ∈ rs, (Function.update f r x r').work + (f r).work =
      ∑ r' ∈ rs, (f r').work + x.work := by
  have hrest : ∑ r' ∈ rs.erase r, (Function.update f r x r').work =
      ∑ r' ∈ rs.erase r, (f r').work := by
    refine Finset.sum_congr rfl fun r' hr' => ?_
    rw [Function.update_of_ne (Finset.ne_of_mem_erase hr')]
  have hnew := Finset.add_sum_erase rs (fun r' => (Function.update f r x r').work) hr
  have hold := Finset.add_sum_erase rs (fun r' => (f r').work) hr
  simp only [Function.update_self] at hnew
  omega

/-- The calls of `run()` so far. -/
theorem called {s : State ρ κ} {tr : List (Label ρ κ)} (h : Run (system ρ κ) State.initial tr s) :
    ∃ rs : Finset ρ, ∀ r, s.runner r ≠ .outside → r ∈ rs := by
  refine h.invariant_state (I := fun s => ∃ rs : Finset ρ, ∀ r, s.runner r ≠ .outside → r ∈ rs)
    ⟨∅, fun r hr => absurd rfl hr⟩ ?_
  rintro s l s' ⟨rs, hrs⟩ hs
  have hupdate : ∀ r x, ∀ r', Function.update s.runner r x r' ≠ .outside → r' ∈ insert r rs := by
    intro r x r' hr'
    rcases eq_or_ne r' r with rfl | hne
    · exact Finset.mem_insert_self _ _
    · exact Finset.mem_insert_of_mem (hrs r' (by simpa [hne] using hr'))
  cases l with
  | push_back c =>
    obtain ⟨-, hs⟩ := Option.ite_none_right_eq_some.mp hs
    cases hs
    exact ⟨rs, hrs⟩
  | run r | execute r c | spurious r | pop_front r p =>
    obtain ⟨-, hs⟩ := Option.ite_none_right_eq_some.mp hs
    cases hs
    exact ⟨_, hupdate r _⟩
  | finish =>
    cases hs
    exact ⟨rs, hrs⟩
  | notify_one w =>
    cases w with
    | none =>
      obtain ⟨-, hs⟩ := Option.ite_none_right_eq_some.mp hs
      cases hs
      exact ⟨rs, hrs⟩
    | some r =>
      obtain ⟨-, hs⟩ := Option.ite_none_right_eq_some.mp hs
      cases hs
      exact ⟨_, hupdate r _⟩

/-- An internal step does some of the work. -/
theorem work_step {tr : List (Label ρ κ)} {rs : Finset ρ} {s s' : State ρ κ} {l : Label ρ κ}
    (hi : Inv tr s) (hrs : ∀ r, s.runner r ≠ .outside → r ∈ rs) (hl : l.internal = true)
    (hs : next s l = some s') :
    s'.work rs + 1 ≤ s.work rs ∧ ∀ r, s'.runner r ≠ .outside → r ∈ rs := by
  have hcalls : ∀ r x, s.runner r ≠ .outside →
      ∀ r', Function.update s.runner r x r' ≠ .outside → r' ∈ rs := by
    intro r x hr r' hr'
    rcases eq_or_ne r' r with rfl | hne
    · exact hrs r' hr
    · exact hrs r' (by simpa [hne] using hr')
  unfold State.work
  cases l with
  | pop_front r p =>
    obtain ⟨⟨hr, hp⟩, hs⟩ := Option.ite_none_right_eq_some.mp hs
    cases hs
    have hout : s.runner r ≠ .outside := by simp [hr]
    refine ⟨?_, hcalls r _ hout⟩
    have hsum := work_update (f := s.runner) (hrs r hout) p.resume
    rw [hr, show (Runner.locking : Runner κ).work = 1 from rfl] at hsum
    dsimp only [State.setRunner]
    rcases pop_front_cases s with ⟨he, -, -⟩ | ⟨he, -, -⟩ | ⟨c, cs, he, hlist⟩
    · obtain rfl : p = .wait := by rw [← hp, he]
      have hlen : s.pop_front.2.length = s.d_list.length := by rw [he]
      rw [show (Popped.wait : Popped κ).resume.work = 0 from rfl] at hsum
      omega
    · obtain rfl : p = .null := by rw [← hp, he]
      have hlen : s.pop_front.2.length = s.d_list.length := by rw [he]
      rw [show (Popped.null : Popped κ).resume.work = 0 from rfl] at hsum
      omega
    · obtain rfl : p = .state c := by rw [← hp, he]
      have hlen : s.pop_front.2.length + 1 = s.d_list.length := by rw [he, hlist, List.length_cons]
      rw [show (Popped.state c).resume.work = 2 from rfl] at hsum
      omega
  | execute r c =>
    obtain ⟨hr, hs⟩ := Option.ite_none_right_eq_some.mp hs
    cases hs
    have hout : s.runner r ≠ .outside := by simp [hr]
    refine ⟨?_, hcalls r _ hout⟩
    have hsum := work_update (f := s.runner) (hrs r hout) .locking
    rw [hr, show (Runner.executing c).work = 2 from rfl,
      show (Runner.locking : Runner κ).work = 1 from rfl] at hsum
    dsimp only [State.setRunner]
    omega
  | notify_one w =>
    cases w with
    | none =>
      obtain ⟨⟨hpos, -⟩, hs⟩ := Option.ite_none_right_eq_some.mp hs
      cases hs
      refine ⟨?_, hrs⟩
      dsimp only
      omega
    | some r =>
      obtain ⟨⟨hpos, hr⟩, hs⟩ := Option.ite_none_right_eq_some.mp hs
      cases hs
      have hwaiting := (hi.blocked r).mp hr
      have hout : s.runner r ≠ .outside := by simp [hwaiting]
      refine ⟨?_, hcalls r _ hout⟩
      have hsum := work_update (f := s.runner) (hrs r hout) .locking
      rw [hwaiting, show (Runner.waiting : Runner κ).work = 0 from rfl,
        show (Runner.locking : Runner κ).work = 1 from rfl] at hsum
      dsimp only [State.wake, State.setRunner]
      omega
  | push_back c | run r | finish | spurious r => cases hl

end RunLoopWakeupLemmas

/-- Without calls from outside the loop takes a bounded number of steps. -/
theorem internal_length_le {tr tr' : List (Label ρ κ)} {rs : Finset ρ} {s s' : State ρ κ}
    (hi : Inv tr s) (hrs : ∀ r, s.runner r ≠ .outside → r ∈ rs) (h : Run (system ρ κ) s tr' s')
    (hint : ∀ l ∈ tr', l.internal = true) :
    tr'.length + s'.work rs ≤ s.work rs := by
  suffices hrun : Inv (tr ++ tr') s' ∧ (∀ r, s'.runner r ≠ .outside → r ∈ rs) ∧
      tr'.length + s'.work rs ≤ s.work rs from hrun.2.2
  induction h with
  | nil => simpa using ⟨hi, hrs⟩
  | @snoc tr' s₁ s₂ l hr hs ih =>
    obtain ⟨hi₁, hrs₁, hle⟩ := ih fun l hl => hint l (List.mem_append_left _ hl)
    have hl : l.internal = true := hint l (List.mem_append_right _ (List.mem_singleton.mpr rfl))
    obtain ⟨hwork, hrs₂⟩ := work_step hi₁ hrs₁ hl hs
    refine ⟨by rw [← List.append_assoc]; exact inv_step hi₁ hs, hrs₂, ?_⟩
    rw [List.length_append, List.length_singleton]
    omega

/-! ## 3. No lost wake-up -/

namespace RunLoopWakeupLemmas

theorem quiet_runner {s : State ρ κ} (hq : Quiet s) :
    s.notifying = 0 ∧ ∀ r, (s.runner r).active = false := by
  refine ⟨?_, fun r => ?_⟩
  · by_contra hn
    cases hc : s.d_cond with
    | nil => simpa [next, hc, Nat.pos_of_ne_zero hn] using hq (.notify_one none) rfl
    | cons r rs => simpa [next, hc, Nat.pos_of_ne_zero hn] using hq (.notify_one (some r)) rfl
  · cases hr : s.runner r with
    | locking => simpa [next, hr] using hq (.pop_front r s.pop_front.1) rfl
    | executing c => simpa [next, hr] using hq (.execute r c) rfl
    | outside | waiting | returned => rfl

/-- What is in the list while a call is under way stays there or is popped. -/
theorem kept_step {tr : List (Label ρ κ)} {s s' : State ρ κ} {l : Label ρ κ} {c : κ}
    (h : c ∈ popped tr ∨ c ∈ s.d_list ∧ ∃ r, (s.runner r).inactive = false)
    (hs : next s l = some s') :
    c ∈ popped (tr ++ [l]) ∨ c ∈ s'.d_list ∧ ∃ r, (s'.runner r).inactive = false := by
  rw [popped_append]
  rcases h with h | ⟨hc, r, hr⟩
  · exact .inl (List.mem_append_left _ h)
  have hupdate : ∀ r' x, x.inactive = false →
      ∃ r, (Function.update s.runner r' x r).inactive = false := fun r' x hx =>
    ⟨r', by simpa using hx⟩
  cases l with
  | push_back c' =>
    obtain ⟨-, hs⟩ := Option.ite_none_right_eq_some.mp hs
    cases hs
    exact .inr ⟨List.mem_append_left _ hc, r, hr⟩
  | run r' | execute r' c' | spurious r' =>
    obtain ⟨-, hs⟩ := Option.ite_none_right_eq_some.mp hs
    cases hs
    exact .inr ⟨hc, hupdate r' .locking rfl⟩
  | pop_front r' p =>
    obtain ⟨⟨-, hp⟩, hs⟩ := Option.ite_none_right_eq_some.mp hs
    cases hs
    rcases pop_front_cases s with ⟨-, hl, -⟩ | ⟨-, hl, -⟩ | ⟨c', cs, he, hl⟩
    · rw [hl] at hc
      cases hc
    · rw [hl] at hc
      cases hc
    · rw [he] at hp ⊢
      subst hp
      rw [hl] at hc
      rcases List.mem_cons.mp hc with rfl | hc
      · exact .inl (List.mem_append_right _ (List.mem_singleton.mpr rfl))
      · exact .inr ⟨hc, hupdate r' (.executing c') rfl⟩
  | finish =>
    cases hs
    exact .inr ⟨hc, r, hr⟩
  | notify_one w =>
    cases w with
    | none =>
      obtain ⟨-, hs⟩ := Option.ite_none_right_eq_some.mp hs
      cases hs
      exact .inr ⟨hc, r, hr⟩
    | some r' =>
      obtain ⟨-, hs⟩ := Option.ite_none_right_eq_some.mp hs
      cases hs
      exact .inr ⟨hc, hupdate r' .locking rfl⟩

end RunLoopWakeupLemmas

/-- In a run whose steps are all clear no wake-up is lost; the loop comes to rest
in a bounded number of steps when nobody uses it; and at rest every state that
was pushed while a call of `run()` was under way has been executed, and after
`finish()` every call has returned. -/
theorem no_lost_wakeup {s : State ρ κ} {tr : List (Label ρ κ)}
    (h : Run ((system ρ κ).restrict Clear) State.initial tr s) :
    ¬ Lost s ∧
    (∃ n, ∀ tr' s', Run (system ρ κ) s tr' s' → (∀ l ∈ tr', l.internal = true) →
      tr'.length ≤ n) ∧
    (Quiet s →
      (∀ tr₁ tr₂ c s₁, tr = tr₁ ++ .push_back c :: tr₂ →
        Run (system ρ κ) State.initial tr₁ s₁ → Run (system ρ κ) s₁ (.push_back c :: tr₂) s →
        (∃ r, (s₁.runner r).inactive = false) → c ∈ executed tr) ∧
      (.finish ∈ tr → ∀ r, (s.runner r).inactive = true)) := by
  have hrun := h.unrestrict
  have hi := inv_run hrun
  have hserved : Served s :=
    h.invariant_state served_initial fun _ _ _ hserved hs => clear_step hserved hs.2 hs.1
  refine ⟨not_lost_of_served hserved, ?_, fun hq => ⟨?_, fun hfinish r => ?_⟩⟩
  · obtain ⟨rs, hrs⟩ := called hrun
    refine ⟨s.work rs, fun tr' s' hr hint => ?_⟩
    have := internal_length_le hi hrs hr hint
    omega
  · rintro tr₁ tr₂ c s₁ rfl - h₁ hcall
    obtain ⟨s₂, hs, h₂⟩ := h₁.uncons
    obtain ⟨-, hs⟩ := Option.ite_none_right_eq_some.mp hs
    cases hs
    have hkept := h₂.invariant (I := fun tr s => c ∈ popped tr ∨
      c ∈ s.d_list ∧ ∃ r, (s.runner r).inactive = false)
      (.inr ⟨List.mem_append_right _ (List.mem_singleton.mpr rfl), hcall⟩)
      fun _ _ _ _ => kept_step
    obtain ⟨hnotifying, hactive⟩ := quiet_runner hq
    rcases hkept with hpopped | ⟨hlist, r, hr⟩
    · have hmem : c ∈ popped (tr₁ ++ .push_back c :: tr₂) := by
        rw [popped_append]
        exact List.mem_append_right _ hpopped
      rcases hi.complete c hmem with he | ⟨r, hr⟩
      · exact he
      · have := hactive r
        rw [hr] at this
        cases this
    · -- the call is blocked, so its wake-up would be lost
      refine absurd ⟨?_, .inl (List.ne_nil_of_mem hlist), hnotifying, .inr hactive⟩
        (not_lost_of_served hserved)
      have hwaiting : s.runner r = .waiting := by
        have := hactive r
        cases hx : s.runner r with
        | waiting => rfl
        | outside | returned =>
          rw [hx] at hr
          cases hr
        | locking | executing c' =>
          rw [hx] at this
          cases this
      exact List.ne_nil_of_mem ((hi.blocked r).mpr hwaiting)
  · obtain ⟨hnotifying, hactive⟩ := quiet_runner hq
    have hcond := hserved.finishing (hi.finishing.mpr hfinish) hnotifying
    have := hactive r
    cases hx : s.runner r with
    | outside | returned => rfl
    | waiting =>
      have := (hi.blocked r).mpr hx
      rw [hcond] at this
      cases this
    | locking | executing c =>
      rw [hx] at this
      cases this

/-- A call is blocked, and what is pushed then is executed by another one. -/
def exServed : List (Label Nat Nat) :=
  [.run 0, .run 1, .pop_front 0 .wait, .push_back 7, .pop_front 1 (.state 7), .execute 1 7,
    .finish, .notify_one (some 0), .pop_front 0 .null, .pop_front 1 .null]

theorem no_lost_wakeup_example : ∃ s : State Nat Nat,
    Run ((system Nat Nat).restrict Clear) State.initial exServed s ∧ ¬ Lost s ∧
    7 ∈ executed exServed := by
  have hrun : Run ((system Nat Nat).restrict Clear) State.initial exServed _ :=
    .cons ⟨rfl, trivial⟩ <| .cons ⟨rfl, trivial⟩ <| .cons ⟨rfl, trivial⟩ <|
      .cons ⟨rfl, .inr (.inr ⟨1, rfl⟩)⟩ <| .cons ⟨rfl, trivial⟩ <| .cons ⟨rfl, trivial⟩ <|
      .cons ⟨rfl, trivial⟩ <| .cons ⟨rfl, fun _ => Nat.le_refl 1⟩ <| .cons ⟨rfl, trivial⟩ <|
      .single ⟨rfl, trivial⟩
  exact ⟨_, hrun, (no_lost_wakeup hrun).1, by decide⟩

/-- A state is pushed while the only call of `run()` is blocked. -/
def exPushed : List (Label Nat Nat) := [.run 0, .pop_front 0 .wait, .push_back 7]

/-- `finish()` notifies one of two blocked calls. -/
def exFinished : List (Label Nat Nat) :=
  [.run 0, .run 1, .pop_front 0 .wait, .pop_front 1 .wait, .finish, .notify_one (some 0),
    .pop_front 0 .null]

/-- Both leave a thread blocked that nobody is going to notify. -/
theorem lost_wakeup :
    (∃ s : State Nat Nat, Run (system Nat Nat) State.initial exPushed s ∧ Lost s) ∧
    ∃ s : State Nat Nat, Run (system Nat Nat) State.initial exFinished s ∧ Lost s := by
  constructor
  · refine ⟨_, run_replay (S := system Nat Nat) (fun _ _ _ => id)
      (show (replay next State.initial exPushed).isSome from rfl), ?_⟩
    refine ⟨List.cons_ne_nil 0 [], .inl (List.cons_ne_nil 7 []), rfl, .inr fun r => ?_⟩
    rcases r with _ | r <;> rfl
  · refine ⟨_, run_replay (S := system Nat Nat) (fun _ _ _ => id)
      (show (replay next State.initial exFinished).isSome from rfl), ?_⟩
    exact ⟨List.cons_ne_nil 1 [], .inr rfl, rfl, .inl rfl⟩

end Kuhllib.RunLoop
