import Kuhllib.Execution.LifetimeInvariant

/-!
# No access after the completion

`not_dangling`: for every nesting and every run, no member is accessed after the
completion, unless the outer receiver is completed under `variant::emplace` of
`let` or under the loop of `repeat_effect_until`.
-/

namespace Kuhllib.Lifetime

open Transition LifetimeLemmas

/-- `variant::emplace` and the loop of `next()` access members after the frame
above them has returned. -/
def Frame.trailing : Frame → Bool
  | .emplaced | .loop _ | .unlock _ => true
  | .outside | .start _ _ | .signal _ _ | .unwind _ | .engaging _ | .callback _ => false

/-- The outer receiver is not about to be completed under such a frame. -/
def State.clear (s : State) : Bool :=
  match s.stack with
  | .signal _ .outer :: st => st.all fun f => !f.trailing
  | _ => true

def Clear (s : State) (_ : Label) : Prop := s.clear = true

instance (s : State) (l : Label) : Decidable (Clear s l) :=
  inferInstanceAs (Decidable (s.clear = true))

/-- The outer receiver has been completed; only code outside is executing. -/
structure Over (s : State) : Prop where
  completed : s.completed = true
  dangling : s.dangling = false
  pending : s.pending = .none
  outside : ∀ f ∈ s.stack, f = .outside

namespace LifetimeLemmas

variable {s s' : State}

theorem over_of_clear {tag : Tag} {st : List Frame} (h : Inv s)
    (hstack : s.stack = .signal tag .outer :: st) (hclear : s.clear = true) :
    Over { s.goto st with completed := true } := by
  have hcalm := (calm_of_busy h hstack rfl).1
  simp only [State.clear, hstack, List.all_eq_true, Bool.not_eq_true'] at hclear
  refine ⟨rfl, h.alive.2, hcalm.pending, fun f hf => ?_⟩
  obtain ⟨hbusy, hcallback⟩ := hcalm.plain f hf
  have htrailing := hclear f hf
  have hengages : f.engages = [] := List.flatMap_eq_nil_iff.mp hcalm.engaging f hf
  cases f with
  | outside => rfl
  | start _ _ | signal _ _ | unwind _ => cases hbusy
  | emplaced | loop _ | unlock _ => cases htrailing
  | engaging _ => cases hengages
  | callback _ => cases hcallback

/-- Code outside can only return. -/
theorem over_step {l : Label} (h : Over s) (hs : next s l = some s') : Over s' := by
  cases hstack : s.stack with
  | nil => simp [next, hstack] at hs
  | cons f st =>
    obtain rfl := h.outside f (hstack ▸ List.mem_cons_self)
    have hpending := h.pending
    simp only [next, hstack] at hs
    cases l <;> simp only [State.outside, hpending, reduceCtorEq] at hs
    cases hs
    exact ⟨h.completed, h.dangling, h.pending, fun g hg =>
      h.outside g (hstack ▸ List.mem_cons_of_mem _ hg)⟩

/-- A frame that goes on after the completion is reached by returning from those
above it. -/
theorem reaches_dangling {e : Sender} {st : List Frame} (hc : s.completed = true)
    (hstack : s.stack = st) (hplain : ∀ f ∈ st, f.busy = false ∧ f.isCallback = false)
    (hengaging : engagements st = [])
    (hquiet : ∀ id, .loop id ∈ st → (s.states id).d_ready = false)
    (htrailing : ∃ f ∈ st, f.trailing = true) :
    ∃ s', Reaches (system e) s s' ∧ s'.dangling = true := by
  have hstep : ∀ l s₁, next s l = some s₁ → s₁.dangling = true →
      ∃ s', Reaches (system e) s s' ∧ s'.dangling = true :=
    fun l s₁ hs hd => ⟨s₁, ⟨[l], Run.single hs⟩, hd⟩
  have htouch : (s.dangling || s.completed) = true := by rw [hc, Bool.or_true]
  induction st generalizing s with
  | nil =>
    obtain ⟨f, hf, -⟩ := htrailing
    cases hf
  | cons f st ih =>
    obtain ⟨hbusy, hcallback⟩ := hplain f List.mem_cons_self
    rw [engagements_cons, List.append_eq_nil_iff] at hengaging
    cases f with
    | outside =>
      obtain ⟨g, hg, hg'⟩ := htrailing
      have hg : g ∈ st := by
        rcases List.mem_cons.mp hg with rfl | hg
        · cases hg'
        · exact hg
      obtain ⟨s', hr, hd⟩ := ih (s := s.goto st) hc rfl
        (fun f hf => hplain f (List.mem_cons_of_mem _ hf)) hengaging.2
        (fun id hid => hquiet id (List.mem_cons_of_mem _ hid)) ⟨g, hg, hg'⟩
        (fun l s₁ hs hd => ⟨s₁, ⟨[l], Run.single hs⟩, hd⟩) htouch
      exact ⟨s', hr.head (show next s .leave = some (s.goto st) by simp [next, hstack, State.outside]),
        hd⟩
    | emplaced => exact hstep .step (s.touch.goto st) (by simp [next, hstack]) htouch
    | unlock id => exact hstep .step (s.unlock id st) (by simp [next, hstack]) htouch
    | loop id =>
      -- the loop has nothing to do, but it reads d_ready
      have hready := hquiet id List.mem_cons_self
      exact hstep .step (s.touch.goto (.unlock id :: st))
        (by simp [next, hstack, State.loop, hready]) htouch
    | start _ _ | signal _ _ | unwind _ => cases hbusy
    | callback _ => cases hcallback
    | engaging _ => cases hengaging.1

end LifetimeLemmas

theorem inv_run {e : Sender} {s : State} {tr : List Label}
    (h : Run ((system e).restrict Clear) (State.initial e) tr s) :
    (Inv s ∨ Over s) ∧ Known s := by
  refine h.invariant_state (I := fun s => (Inv s ∨ Over s) ∧ Known s)
    ⟨.inl (inv_initial e), known_initial e⟩ ?_
  rintro s l s' ⟨hi | ho, hk⟩ ⟨hs, hclear⟩
  · refine ⟨?_, known_step hk hs⟩
    rcases inv_step hi hk hs with hi' | ⟨tag, st, hstack, rfl⟩
    · exact .inl hi'
    · exact .inr (over_of_clear hi hstack hclear)
  · exact ⟨.inr (over_step ho hs), known_step hk hs⟩

/-- No member is accessed after the completion in any run whose completions are
clear, and the first completion that is not can be followed by such an access. -/
theorem not_dangling {e : Sender} {s : State} {tr : List Label}
    (h : Run ((system e).restrict Clear) (State.initial e) tr s) :
    s.dangling = false ∧
    (s.clear = false → ∃ s', Reaches (system e) s s' ∧ s'.dangling = true) := by
  obtain ⟨hi | ho, -⟩ := inv_run h
  · refine ⟨hi.alive.2, fun hclear => ?_⟩
    unfold State.clear at hclear
    split at hclear
    · next tag st hstack =>
      have hcalm := (calm_of_busy hi hstack rfl).1
      have htrailing : ∃ f ∈ st, f.trailing = true := by
        obtain ⟨f, hf, hf'⟩ := List.all_eq_false.mp hclear
        exact ⟨f, hf, by simpa using hf'⟩
      have hs : next s .step = some { s.goto st with completed := true } := by
        simp only [next, hstack, State.signal]
      obtain ⟨s', hr, hd⟩ := reaches_dangling (e := e) (s := { s.goto st with completed := true })
        rfl rfl hcalm.plain hcalm.engaging hcalm.quiet htrailing
      exact ⟨s', hr.head hs, hd⟩
    · cases hclear
  · refine ⟨ho.dangling, fun hclear => ?_⟩
    unfold State.clear at hclear
    split at hclear
    · next tag st hstack => cases ho.outside _ (hstack ▸ List.mem_cons_self)
    · cases hclear

/-- `let_value` with an inner sender that completes after `emplace` has returned. -/
def exLater : List Label :=
  [.step, .step, .complete .set_value, .returns .other, .step, .leave, .step, .leave,
    .complete .set_value, .step]

theorem not_dangling_example : ∃ s : State,
    Run ((system (.let_ .set_value .other)).restrict Clear)
      (State.initial (.let_ .set_value .other)) exLater s ∧
    s.completed = true ∧ s.dangling = false := by
  have hrun := run_replay_restrict (S := system (.let_ .set_value .other)) (fun _ _ _ => id)
    (show (replay (fun s l => if Clear s l then next s l else none)
      (State.initial (.let_ .set_value .other)) exLater).isSome from rfl)
  exact ⟨_, hrun, rfl, (not_dangling hrun).1⟩

/-- The predicate is true: the receiver is completed in the loop of `next()`,
under its `lock_guard`. -/
def exPredicate : List Label :=
  [.step, .step, .complete .set_value, .step, .predicate true, .step, .step]

/-- The loop starts the child, which fails inside its `start()`. -/
def exChild : List Label :=
  [.step, .step, .complete .set_value, .step, .predicate false, .step, .complete .set_error,
    .step, .step, .leave, .step]

/-- The inner sender of `let_value` completes inside its `start()`, which is called
by a constructor under `variant::emplace`. -/
def exInner : List Label :=
  [.step, .step, .complete .set_value, .returns .other, .step, .complete .set_value, .step,
    .leave, .step]

/-- `next()` writes `d_running` or reads `d_ready`, and `emplace` stores its index,
in a state that is gone. -/
theorem dangling :
    (∃ s : State, Run (system (.repeat_effect_until .other))
      (State.initial (.repeat_effect_until .other)) exPredicate s ∧ s.dangling = true) ∧
    (∃ s : State, Run (system (.repeat_effect_until .other))
      (State.initial (.repeat_effect_until .other)) exChild s ∧ s.dangling = true) ∧
    ∃ s : State, Run (system (.let_ .set_value .other))
      (State.initial (.let_ .set_value .other)) exInner s ∧ s.dangling = true := by
  refine ⟨?_, ?_, ?_⟩
  · exact ⟨_, run_replay (S := system (.repeat_effect_until .other)) (fun _ _ _ => id)
      (show (replay next (State.initial (.repeat_effect_until .other)) exPredicate).isSome
        from rfl), rfl⟩
  · exact ⟨_, run_replay (S := system (.repeat_effect_until .other)) (fun _ _ _ => id)
      (show (replay next (State.initial (.repeat_effect_until .other)) exChild).isSome
        from rfl), rfl⟩
  · exact ⟨_, run_replay (S := system (.let_ .set_value .other)) (fun _ _ _ => id)
      (show (replay next (State.initial (.let_ .set_value .other)) exInner).isSome
        from rfl), rfl⟩

end Kuhllib.Lifetime
