import Mathlib.Logic.Basic

/-!
# Machines that complete

A machine is started in a world and is then handed the events that arrive, one after
the other, until it completes; whatever it does to the world it does in these steps.
Its behaviour is what can be seen from outside: the world it leaves, how it
completes, if it does, and the events that it has not taken.

Results:
1. `play_seq`: a machine that does what another one does and goes on from its
   completion with `k` behaves as the other one followed by `k`.
2. `play_invariant`: what each event preserves holds after every run.
3. `bind_pure`, `bind_assoc`: one after the other is a monad.
-/

namespace Kuhllib

/-- After a step; `completion` is `none` as long as the machine waits for events. -/
structure Machine.Outcome (ω σ κ : Type) where
  world : ω
  state : σ
  completion : Option κ

structure Machine (ω ι κ : Type) where
  State : Type
  init : State
  start : ω → State → Machine.Outcome ω State κ
  on : ι → ω → State → Machine.Outcome ω State κ

namespace Machine

/-- What can be seen of a run. -/
structure Result (ω ι κ : Type) where
  world : ω
  completion : Option κ
  rest : List ι

namespace Result

variable {ω ι κ κ' κ'' : Type}

def pure (c : κ) (w : ω) (es : List ι) : Result ω ι κ := ⟨w, some c, es⟩

/-- Go on from the completion. -/
def bind (r : Result ω ι κ) (k : κ → ω → List ι → Result ω ι κ') : Result ω ι κ' :=
  match r.completion with
  | none => ⟨r.world, none, r.rest⟩
  | some c => k c r.world r.rest

@[simp] theorem pure_bind (c : κ) (w : ω) (es : List ι) (k : κ → ω → List ι → Result ω ι κ') :
    (pure c w es).bind k = k c w es := rfl

@[simp] theorem bind_pure (r : Result ω ι κ) : r.bind pure = r := by
  obtain ⟨w, completion, es⟩ := r
  cases completion with
  | none => rfl
  | some c => rfl

theorem bind_assoc (r : Result ω ι κ) (k : κ → ω → List ι → Result ω ι κ')
    (k' : κ' → ω → List ι → Result ω ι κ'') :
    (r.bind k).bind k' = r.bind fun c w es => (k c w es).bind k' := by
  obtain ⟨w, completion, es⟩ := r
  cases completion with
  | none => rfl
  | some c => rfl

/-- Only what comes after a completion matters. -/
theorem bind_congr (r : Result ω ι κ) {k k' : κ → ω → List ι → Result ω ι κ'}
    (h : ∀ c w es, k c w es = k' c w es) : r.bind k = r.bind k' := by
  have hk : k = k' := funext fun c => funext fun w => funext fun es => h c w es
  rw [hk]

end Result

variable {ω ι κ κ' : Type}

/-- Events are handed to the machine until it has completed. -/
def play (M : Machine ω ι κ) (o : Outcome ω M.State κ) :
    List ι → Outcome ω M.State κ × List ι
  | [] => (o, [])
  | e :: es => if o.completion.isSome then (o, e :: es) else M.play (M.on e o.world o.state) es

def result (M : Machine ω ι κ) (o : Outcome ω M.State κ) (es : List ι) : Result ω ι κ :=
  ⟨(M.play o es).1.world, (M.play o es).1.completion, (M.play o es).2⟩

/-- Where a run has come to. -/
def after (M : Machine ω ι κ) (w : ω) (es : List ι) : Outcome ω M.State κ :=
  (M.play (M.start w M.init) es).1

def behaviour (M : Machine ω ι κ) (w : ω) (es : List ι) : Result ω ι κ :=
  M.result (M.start w M.init) es

/-- From outside the two are the same, whatever arrives and when. -/
def Behaves (M N : Machine ω ι κ) : Prop :=
  ∀ w es, M.behaviour w es = N.behaviour w es

theorem result_completed {M : Machine ω ι κ} {o : Outcome ω M.State κ} {c : κ}
    (h : o.completion = some c) (es : List ι) : M.result o es = .pure c o.world es := by
  have hplay : M.play o es = (o, es) := by
    cases es with
    | nil => rfl
    | cons e es => simp [play, h]
  simp [result, hplay, h, Result.pure]

theorem result_nil (M : Machine ω ι κ) (o : Outcome ω M.State κ) :
    M.result o [] = ⟨o.world, o.completion, []⟩ := rfl

theorem result_cons {M : Machine ω ι κ} {o : Outcome ω M.State κ}
    (h : o.completion = none) (e : ι) (es : List ι) :
    M.result o (e :: es) = M.result (M.on e o.world o.state) es := by
  simp [result, play, h]

/-- `glue` is where `L` is when `M` is at `o`: while `M` waits so does `L`, an event takes both on,
and once `M` has completed `L` does what `k` says. -/
theorem play_seq {M : Machine ω ι κ} {L : Machine ω ι κ'}
    {k : κ → ω → List ι → Result ω ι κ'} (glue : Outcome ω M.State κ → Outcome ω L.State κ')
    (hworld : ∀ o, o.completion = none → (glue o).world = o.world)
    (hwaits : ∀ o, o.completion = none → (glue o).completion = none)
    (hon : ∀ o e, o.completion = none →
      L.on e o.world (glue o).state = glue (M.on e o.world o.state))
    (hdone : ∀ o c es, o.completion = some c → L.result (glue o) es = k c o.world es)
    (o : Outcome ω M.State κ) (es : List ι) :
    L.result (glue o) es = (M.result o es).bind k := by
  induction es generalizing o with
  | nil =>
    cases hc : o.completion with
    | none =>
      rw [result_nil, result_nil, hworld o hc, hwaits o hc, hc]
      rfl
    | some c => rw [hdone o c [] hc, result_completed hc, Result.pure_bind]
  | cons e es ih =>
    cases hc : o.completion with
    | none =>
      rw [result_cons (hwaits o hc), result_cons hc, hworld o hc, hon o e hc]
      exact ih _
    | some c => rw [hdone o c (e :: es) hc, result_completed hc, Result.pure_bind]

theorem play_invariant {M : Machine ω ι κ} {P : Outcome ω M.State κ → Prop}
    (hon : ∀ o e, P o → o.completion = none → P (M.on e o.world o.state))
    {o : Outcome ω M.State κ} (h : P o) (es : List ι) : P (M.play o es).1 := by
  induction es generalizing o with
  | nil => exact h
  | cons e es ih =>
    unfold play
    split
    · exact h
    · next hc => exact ih (hon o e h (by simpa using hc))

end Machine

end Kuhllib
