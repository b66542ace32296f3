import Kuhllib.StopToken.InPlaceProgress

/-!
# Destruction of callbacks

`stop()` sets the marker so that the destructor of a callback waits while the
callback is called. `remove()` looks at `d_called` first, which is set before
`do_call()` runs.

Results:
1. `above_exec`: a callback runs above the frame that has called it.
2. `quiet_step`, `destroyed_after_call`: in runs without such an early exit, a
   callback does not run, nor will it run, on another thread once its `remove()`
   has returned.
-/

namespace Kuhllib.InPlaceStopSource

open Transition Stacks StopRegistryLemmas

variable {τ κ : Type} [DecidableEq τ] [DecidableEq κ]

/-- `remove()` finds `d_called` set only if no other thread is in `do_call()`. -/
def NotRunning (s : State τ κ) (l : τ × Event κ) : Prop :=
  ∀ c fs, s.threads l.1 = .removeCheck c :: fs → l.2 = .removeSkip c →
    ∀ t, t ≠ l.1 → .body c ∉ s.threads t

/-! ## 1. Where callbacks run -/

/-- Below the frame of a callback is the frame that has called it. -/
inductive Above : List (Frame κ) → Prop
  | nil : Above []
  | other {f : Frame κ} {fs : List (Frame κ)} : (∀ c, f ≠ .body c) → Above fs → Above (f :: fs)
  | insert {c : κ} {fs : List (Frame κ)} : Above fs → Above (.body c :: .insertReturn c :: fs)
  | stop {c : κ} {node : Option (Node κ)} {fs : List (Frame κ)} : Above fs →
      Above (.body c :: .stopWalk node :: fs)

namespace InPlaceDestructionLemmas

omit [DecidableEq κ] in
theorem above_tail {f : Frame κ} {fs : List (Frame κ)} (h : Above (f :: fs)) : Above fs := by
  cases h with
  | other _ h => exact h
  | insert h | stop h => exact .other (by simp) h

omit [DecidableEq κ] in
theorem above_caller {st : List (Frame κ)} {c : κ} (h : Above st) (hc : .body c ∈ st) :
    .insertReturn c ∈ st ∨ ∃ node, .stopWalk node ∈ st := by
  induction h with
  | nil => cases hc
  | other hf _ ih =>
    rcases List.mem_cons.mp hc with rfl | hc'
    · exact absurd rfl (hf c)
    · exact (ih hc').imp (List.mem_cons_of_mem _) fun ⟨n, hn⟩ => ⟨n, List.mem_cons_of_mem _ hn⟩
  | @insert c' fs _ ih =>
    rcases List.mem_cons.mp hc with he | hc'
    · cases he
      exact .inl (by simp)
    · refine (ih ((List.mem_cons.mp hc').resolve_left (by simp))).imp ?_ fun ⟨n, hn⟩ => ⟨n, ?_⟩
      · intro hm
        simp [hm]
      · simp [hn]
  | @stop c' node fs _ ih => exact .inr ⟨node, by simp⟩

theorem above_exec {m : Memory κ} {f : Frame κ} {fs : List (Frame κ)} (h : Above (f :: fs)) :
    Above ((exec m f).2.2 ++ fs) := by
  have htail := above_tail h
  fun_cases exec m f <;> (try split) <;>
    first
    | exact htail
    | exact .other (by simp) htail
    | exact .insert htail
    | exact .stop htail

/-- A frame that is busy with a callback knows its stage. -/
theorem stage_of_mem {r : Registry τ κ} {s : State τ κ} (h : Refines r s) {t : τ} {f : Frame κ}
    {c : κ} {k : Nat} (hf : f ∈ s.threads t) (hr : f.role = .op c k) : (r.stage c).rank = k := by
  have hcount := h.counts (.op c k) (by simp) t
  have hpos : 0 < roles (s.threads t) (.op c k) := List.countP_pos_iff.mpr ⟨f, hf, by simp [hr]⟩
  by_contra hne
  rw [Registry.owner, if_neg hne] at hcount
  simp only [reduceCtorEq, if_false] at hcount
  omega

/-- While `remove()` of a callback is past its early exit and no `stop()` is calling
callbacks, the callback does not run. -/
theorem not_running {r : Registry τ κ} {s : State τ κ} (h : Refines r s)
    (ha : ∀ t, Above (s.threads t)) {c : κ} (hc : (r.stage c).rank = 4)
    (hv : ∀ t cs, r.view ≠ .draining t cs) (t : τ) : .body c ∉ s.threads t := by
  intro hb
  rcases above_caller (ha t) hb with hm | ⟨node, hm⟩
  · have := stage_of_mem h hm (c := c) rfl
    omega
  · obtain ⟨cs, hd, -⟩ := h.frames t _ hm
    exact hv t cs hd

omit [DecidableEq τ] in
theorem exec_body {m : Memory κ} {f : Frame κ} {c : κ} (h : .body c ∈ (exec m f).2.2) :
    ∃ by', (exec m f).1 = .call by' c := by
  revert h
  fun_cases exec m f <;> (try split) <;> simp +contextual

omit [DecidableEq τ] in
/-- Callbacks are called before their `remove()` is at its end. -/
theorem call_early {r r' : Registry τ κ} {t : τ} {by' : Caller} {c : κ} (h : Ok r)
    (hm : Move r (t, .call by' c) r') : (r.stage c).rank < 5 := by
  cases hm with
  | callInsert hs _ =>
    rw [hs]
    exact Nat.one_lt_succ_succ 3
  | callStop hv =>
    have hl := (h.pending c (by rw [hv]; exact List.mem_cons_self)).1
    cases hc : r.stage c <;> simp_all [Stage.rank, Stage.onList]

omit [DecidableEq τ] in
/-- The ends of `remove()`. -/
theorem exec_removeReturn {m : Memory κ} {f : Frame κ} {c : κ}
    (h : .removeReturn c ∈ (exec m f).2.2) :
    (f = .removeCheck c ∧ (exec m f).1 = .removeSkip c) ∨ f = .removeLoop c none ∨
      ∃ head, f = .removeStore c head := by
  revert h
  fun_cases exec m f <;> (try split) <;> simp +contextual

/-- The frames after a step: those before it, the ones that replace the innermost frame
of the thread, or the first frame of an operation. -/
theorem mem_step {s s' : State τ κ} {t t' : τ} {e : Event κ} {g : Frame κ}
    (hs : (system τ κ).step s (t, e) s') (hg : g ∈ s'.threads t') :
    g ∈ s.threads t' ∨
    (t' = t ∧ ∃ f fs, s.threads t = f :: fs ∧ e = (exec s.mem f).1 ∧ g ∈ (exec s.mem f).2.2) ∨
    g = .stopExchange ∨ ∃ c, g = .insertLoad c ∨ g = .removeCheck c := by
  rcases step_cases hs with ⟨f, fs, hst, rfl, rfl⟩ | ⟨f, -, hst, hf⟩
  · rcases mem_set hg with ⟨ht, hg'⟩ | ⟨rfl, hg'⟩ | ⟨-, hg'⟩
    · exact .inr (.inl ⟨ht, f, fs, hst, rfl, hg'⟩)
    · exact .inl (by rw [hst]; exact List.mem_cons_of_mem _ hg')
    · exact .inl hg'
  · obtain rfl : s' = (s.start t e f).2 := congrArg Prod.snd hst
    rcases mem_push.mp hg with ⟨-, hg'⟩ | hg'
    · rw [List.mem_singleton] at hg'
      rcases hf with ⟨c, -, rfl, -⟩ | ⟨c, -, rfl, -⟩ | ⟨-, rfl⟩
      · exact .inr (.inr (.inr ⟨c, .inl hg'⟩))
      · exact .inr (.inr (.inr ⟨c, .inr hg'⟩))
      · exact .inr (.inr (.inl hg'))
    · exact .inl hg'

/-- A callback runs after a step if it did before, or if it is called now. -/
theorem body_step {s s' : State τ κ} {t t' : τ} {e : Event κ} {c : κ}
    (hs : (system τ κ).step s (t, e) s') (hb : .body c ∈ s'.threads t') :
    .body c ∈ s.threads t' ∨ t' = t ∧ ∃ by', e = .call by' c := by
  rcases mem_step hs hb with hb' | ⟨ht, f, fs, -, rfl, hb'⟩ | he | ⟨c', he | he⟩
  · exact .inl hb'
  · exact .inr ⟨ht, exec_body hb'⟩
  · cases he
  · cases he
  · cases he

end InPlaceDestructionLemmas

open InPlaceDestructionLemmas

/-! ## 2. Removed callbacks -/

/-- A callback whose `remove()` is about to return runs on no other thread. -/
structure Quiet (s : State τ κ) : Prop where
  refines : ∃ r, Refines r s
  above : ∀ t, Above (s.threads t)
  quiet : ∀ t c, .removeReturn c ∈ s.threads t → ∀ t', t' ≠ t → .body c ∉ s.threads t'

theorem quiet_initial : Quiet (State.initial : State τ κ) where
  refines := ⟨_, refines_initial⟩
  above _ := .nil
  quiet _ _ h := absurd h List.not_mem_nil

theorem above_step {s s' : State τ κ} {l : τ × Event κ} (h : ∀ t, Above (s.threads t))
    (hs : (system τ κ).step s l s') (t' : τ) : Above (s'.threads t') := by
  obtain ⟨t, e⟩ := l
  rcases step_cases hs with ⟨f, fs, hst, rfl, rfl⟩ | ⟨f, -, hst, hf⟩
  · rcases eq_or_ne t' t with rfl | hne
    · simpa using above_exec (m := s.mem) (hst ▸ h t')
    · simpa [hne] using h t'
  · obtain rfl : s' = (s.start t e f).2 := congrArg Prod.snd hst
    rcases eq_or_ne t' t with rfl | hne
    · have hbody : ∀ c, f ≠ .body c := by
        rcases hf with ⟨c, -, rfl, -⟩ | ⟨c, -, rfl, -⟩ | ⟨-, rfl⟩ <;> simp
      simpa [State.start] using Above.other hbody (h t')
    · simpa [State.start, hne] using h t'

theorem quiet_step {s s' : State τ κ} {l : τ × Event κ} (h : Quiet s)
    (hs : ((system τ κ).restrict NotRunning).step s l s') : Quiet s' := by
  obtain ⟨t, e⟩ := l
  obtain ⟨hs, hn⟩ := hs
  obtain ⟨⟨r, hr⟩, ha, hq⟩ := h
  obtain ⟨r', hm, hr'⟩ := refines_step hr hs
  refine ⟨⟨r', hr'⟩, above_step ha hs, fun t₁ c hret t₂ hne hbody => ?_⟩
  rcases body_step hs hbody with hb | ⟨rfl, by', rfl⟩
  · rcases mem_step hs hret with hg | ⟨rfl, f, fs, hst, rfl, hg⟩ | he | ⟨c', he | he⟩
    · exact hq t₁ c hg t₂ hne hb
    · have hf : f ∈ s.threads t₁ := by rw [hst]; exact List.mem_cons_self
      rcases exec_removeReturn hg with ⟨rfl, he⟩ | rfl | ⟨head, rfl⟩
      · exact hn c fs hst he t₂ hne hb
      · have hview : r.view = .closed := hr.frames t₁ _ hf
        exact not_running hr ha (stage_of_mem hr hf rfl) (by simp [hview]) t₂ hb
      · obtain ⟨cs, hview, -⟩ := hr.frames t₁ _ hf
        exact not_running hr ha (stage_of_mem hr hf rfl) (by simp [hview]) t₂ hb
    · cases he
    · cases he
    · cases he
  · -- the callback is called now, too early for its `remove()` to return
    have hearly := call_early hr.ok hm
    have hlate := stage_of_mem hr' hret (c := c) rfl
    cases hm with
    | callInsert => simp [Stage.rank] at hlate
    | callStop =>
      have hlate : (r.stage c).rank = 5 := hlate
      omega

/-- Once `remove()` has returned, its callback is not called any more, and the frames
that are in it do not get more. -/
theorem removed_stays {r : Registry τ κ} {s s' : State τ κ} {t : τ} {c : κ}
    {tr : List (τ × Event κ)} (h : Run (system τ κ) s tr s') (hr : Refines r s)
    (hc : (r.stage c).rank = 6) (hq : ∀ t', t' ≠ t → .body c ∉ s.threads t') :
    calls tr c = 0 ∧ ∀ t', t' ≠ t → .body c ∉ s'.threads t' := by
  have key : calls tr c = 0 ∧ (∃ r, Refines r s' ∧ (r.stage c).rank = 6) ∧
      ∀ t', t' ≠ t → .body c ∉ s'.threads t' := by
    refine h.invariant (I := fun tr s => calls tr c = 0 ∧
      (∃ r, Refines r s ∧ (r.stage c).rank = 6) ∧ ∀ t', t' ≠ t → .body c ∉ s.threads t')
      ⟨rfl, ⟨r, hr, hc⟩, hq⟩ ?_
    rintro tr s ⟨t₁, e⟩ s' ⟨hcalls, ⟨r, hr, hc⟩, hq⟩ hs
    obtain ⟨r', hm, hr'⟩ := refines_step hr hs
    have hno : ∀ by', e ≠ .call by' c := by
      rintro by' rfl
      have := call_early hr.ok hm
      omega
    refine ⟨?_, ⟨r', hr', ?_⟩, fun t' hne hb => ?_⟩
    · have hcall : isCall c (t₁, e) = false := by
        cases e with
        | call by' c' =>
          have hne : c' ≠ c := fun he => hno by' (by rw [he])
          simp [isCall, hne]
        | _ => rfl
      simpa [calls, List.countP_append, hcall] using hcalls
    · have hmono := rank_mono hm c
      cases hs' : r'.stage c <;> simp_all [Stage.rank]
    · rcases body_step hs hb with hb' | ⟨-, by', rfl⟩
      · exact hq t' hne hb'
      · exact hno by' rfl
  exact ⟨key.1, key.2.2⟩

/-- In every run whose early exits find the callback at rest: when `remove()` of a
callback returns, `do_call()` of this callback is not running on another thread, is
not called later on, and so never runs on another thread again. And where an early
exit finds the callback running, the next step of its thread is that return. -/
theorem destroyed_after_call {s : State τ κ} {tr : List (τ × Event κ)}
    (h : Run ((system τ κ).restrict NotRunning) State.initial tr s) :
    (∀ t c s₁, (system τ κ).step s (t, .removeReturn c) s₁ →
      ∀ tr' s', Run (system τ κ) s₁ tr' s' →
        calls tr' c = 0 ∧ ∀ t', t' ≠ t → .body c ∉ s'.threads t') ∧
    ∀ l s₁, (system τ κ).step s l s₁ → ¬ NotRunning s l →
      ∃ c s₂, (system τ κ).step s₁ (l.1, .removeReturn c) s₂ ∧
        ∃ t', t' ≠ l.1 ∧ .body c ∈ s₂.threads t' := by
  have hq : Quiet s := h.invariant_state quiet_initial fun _ _ _ => quiet_step
  constructor
  · intro t c s₁ hs tr' s' h'
    obtain ⟨r, hr⟩ := hq.refines
    obtain ⟨r₁, hm, hr₁⟩ := refines_step hr hs
    have hrank : (r₁.stage c).rank = 6 := by
      cases hm with
      | removeReturn _ => simp [Stage.rank]
    refine removed_stays h' hr₁ hrank fun t' hne hb => ?_
    rcases body_step hs hb with hb' | ⟨-, by', he⟩
    · rcases step_cases hs with ⟨f, fs, hst, he, -⟩ | ⟨f, -, -, hf⟩
      · have hf : f = .removeReturn c := by
          revert he
          fun_cases exec s.mem f <;> simp +contextual
        subst hf
        exact hq.quiet t c (by rw [hst]; exact List.mem_cons_self) t' hne hb'
      · rcases hf with ⟨c', he, -⟩ | ⟨c', he, -⟩ | ⟨he, -⟩ <;> cases he
    · cases he
  · rintro ⟨t, e⟩ s₁ hs hn
    simp only [NotRunning, not_forall, not_not] at hn
    obtain ⟨c, fs, hst, rfl, t', hne, hb⟩ := hn
    rcases step_cases hs with ⟨f, fs', hst', he, rfl⟩ | ⟨f, -, -, hf⟩
    · rw [hst] at hst'
      obtain ⟨rfl, rfl⟩ := List.cons.inj hst'
      have hcalled : s.mem.called (.callback c) = true := by
        by_contra hno
        simp [exec, hno] at he
      have hexec : exec s.mem (.removeCheck c) = (.removeSkip c, s.mem, [.removeReturn c]) := by
        simp [exec, hcalled]
      refine ⟨c, ⟨s.mem, set s.threads t fs, phaseAfter s.phase (.removeReturn c)⟩, ⟨.run, ?_⟩,
        t', hne, ?_⟩
      · rw [hexec]
        simp [next, exec, phaseAfter]
      · simpa [hne] using hb
    · rcases hf with ⟨c', he, -⟩ | ⟨c', he, -⟩ | ⟨he, -⟩ <;> cases he

/-- A callback is called by `stop()`, and its destructor starts after that. -/
def exAtRest : List (Bool × Choice Nat) :=
  [(false, .insert 0), (false, .run), (false, .run), (false, .run), (true, .stop), (true, .run),
    (true, .run), (true, .run), (true, .run), (true, .run), (true, .run), (true, .run),
    (true, .run), (false, .remove 0)]

theorem destroyed_after_call_example :
    ∃ s s₁ : State Bool Nat, (system Bool Nat).step s (false, .removeReturn 0) s₁ ∧
      ∀ tr' s', Run (system Bool Nat) s₁ tr' s' →
        calls tr' 0 = 0 ∧ ∀ t', t' ≠ false → .body 0 ∉ s'.threads t' := by
  have hno : ∀ e ∈ ((run (State.initial : State Bool Nat) exAtRest).get rfl).1,
      (match e.2 with
        | .removeSkip _ => true
        | _ => false) = false := by decide
  have hrest : ∀ t, t ≠ false →
      .body 0 ∉ ((run (State.initial : State Bool Nat) exAtRest).get rfl).2.threads t := by decide
  have hrun : Run ((system Bool Nat).restrict NotRunning) State.initial
      ((run State.initial exAtRest).get rfl).1 ((run State.initial exAtRest).get rfl).2 := by
    refine (run_play exAtRest rfl).restrict fun e he s c fs _ hskip => ?_
    have := hno e he
    rw [hskip] at this
    cases this
  have hskip : Run ((system Bool Nat).restrict NotRunning) State.initial
      (((run State.initial exAtRest).get rfl).1 ++ [(false, .removeSkip 0)])
      ((run State.initial (exAtRest ++ [(false, .run)])).get rfl).2 :=
    hrun.snoc ⟨⟨.run, rfl⟩, fun c fs hst _ => by cases hst; exact hrest⟩
  have hreturn : (system Bool Nat).step ((run State.initial (exAtRest ++ [(false, .run)])).get rfl).2
      (false, .removeReturn 0)
      ((run State.initial (exAtRest ++ [(false, .run), (false, .run)])).get rfl).2 := ⟨.run, rfl⟩
  exact ⟨_, _, hreturn, (destroyed_after_call hskip).1 false 0 _ hreturn⟩

/-- Thread `0` destroys the callback that thread `1` is calling. -/
def exRunning : List (Nat × Choice Nat) :=
  [(0, .insert 0), (0, .run), (0, .run), (0, .run), (1, .stop), (1, .run), (1, .run), (1, .run),
    (1, .run), (0, .remove 0), (0, .run)]

theorem destroyed_while_called :
    ¬ ∀ (tr : List (Nat × Event Nat)) (s : State Nat Nat), Run (system Nat Nat) State.initial tr s →
      ∀ t c s₁, (system Nat Nat).step s (t, .removeReturn c) s₁ →
        ∀ t', t' ≠ t → .body c ∉ s₁.threads t' := by
  intro h
  obtain ⟨tr, hrun⟩ := run_reaches (s := State.initial) exRunning rfl
  exact h tr _ hrun 0 0 _ ⟨.run, rfl⟩ 1 (by decide) (by decide)

end Kuhllib.InPlaceStopSource
