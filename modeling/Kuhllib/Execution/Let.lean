import Kuhllib.Execution.Signal
import Kuhllib.Lib.Machine

/-!
# `just`, `then` and `let`

A sender is what its operation state does once it is connected and started: it
completes its receiver at once or at one of the events that it waits for. The
receivers of `then` and `let` are called while the upstream sender completes, and
with them the functions they hold, which may change the world, too.

`let_laws`: the sequencing laws, for all three completion functions.
-/

namespace Kuhllib.Let

open Machine

/-! ## 1. The senders -/

structure Completion (α : Type) where
  cpo : Tag
  args : List α
  deriving DecidableEq, Repr

abbrev Sender (ω ι α : Type) := Machine ω ι (Completion α)

/-- A function that returns a sender. -/
abbrev Fun (ω ι α : Type) := List α → ω → ω × Sender ω ι α

/-- What the receivers of `then` and `let` do: call their function, complete the final receiver. -/
inductive Call (α : Type)
  | fun_ (args : List α)
  | receiver (c : Completion α)
  deriving DecidableEq, Repr

@[simp] def Call.invoked : Call α → Option (List α)
  | .fun_ args => some args
  | .receiver _ => none

@[simp] def Call.received : Call α → Option (Completion α)
  | .fun_ _ => none
  | .receiver c => some c

variable {ω ι α σ : Type}

/-- `just`, `just_error` and `just_stopped`. -/
def just (signal : Tag) (a : List α) : Sender ω ι α where
  State := List α
  init := a
  start w d_value := ⟨w, d_value, some ⟨signal, d_value⟩⟩
  on _ w d_value := ⟨w, d_value, none⟩

structure ThenState (σ α : Type) where
  d_state : σ
  calls : List (Call α)

/-- The receiver of `then`: the upstream operation state has come to `o`. The function returns
nothing where its result is `void`. -/
def then_receiver (tag : Tag) (d_fun : List α → ω → ω × Option α) (x : ThenState σ α)
    (o : Outcome ω σ (Completion α)) : Outcome ω (ThenState σ α) (Completion α) :=
  match o.completion with
  | none => ⟨o.world, { x with d_state := o.state }, none⟩
  | some c =>
    if c.cpo = tag then
      let v := d_fun c.args o.world
      let c' : Completion α := ⟨.set_value, v.2.toList⟩
      ⟨v.1, ⟨o.state, x.calls ++ [.fun_ c.args, .receiver c']⟩, some c'⟩
    else ⟨o.world, ⟨o.state, x.calls ++ [.receiver c]⟩, some c⟩

def then_ (tag : Tag) (s : Sender ω ι α) (d_fun : List α → ω → ω × Option α) :
    Sender ω ι α where
  State := ThenState s.State α
  init := ⟨s.init, []⟩
  start w x := then_receiver tag d_fun x (s.start w x.d_state)
  on e w x := then_receiver tag d_fun x (s.on e w x.d_state)

/-- The arguments and the operation of the sender that the function returned; `world` is the one in
which it was called. -/
structure InnerState (d_fun : Fun ω ι α) where
  d_args : List α
  world : ω
  d_state : (d_fun d_args world).2.State

structure LetState (σ : Type) (d_fun : Fun ω ι α) where
  d_state : σ
  d_inner_state : Option (InnerState d_fun)
  calls : List (Call α)

/-- The inner operation has come to `o`; it has the final receiver. -/
def final_receiver {d_fun : Fun ω ι α} (x : LetState σ d_fun) (args : List α) (called : ω)
    (o : Outcome ω (d_fun args called).2.State (Completion α)) :
    Outcome ω (LetState σ d_fun) (Completion α) :=
  ⟨o.world, { x with
    d_inner_state := some ⟨args, called, o.state⟩
    calls := x.calls ++ o.completion.toList.map Call.receiver }, o.completion⟩

/-- The constructor of `inner_state`. -/
def emplace {d_fun : Fun ω ι α} (x : LetState σ d_fun) (args : List α) (w : ω) :
    Outcome ω (LetState σ d_fun) (Completion α) :=
  let v := d_fun args w
  final_receiver { x with calls := x.calls ++ [.fun_ args] } args w (v.2.start v.1 v.2.init)

/-- The upstream operation has come to `o`. -/
def receiver_impl (tag : Tag) {d_fun : Fun ω ι α} (x : LetState σ d_fun)
    (o : Outcome ω σ (Completion α)) : Outcome ω (LetState σ d_fun) (Completion α) :=
  match o.completion with
  | none => ⟨o.world, { x with d_state := o.state }, none⟩
  | some c =>
    if c.cpo = tag then emplace { x with d_state := o.state } c.args o.world
    else ⟨o.world, { x with d_state := o.state, calls := x.calls ++ [.receiver c] }, some c⟩

/-- `let_value`, `let_error` and `let_stopped`. -/
def let_ (tag : Tag) (s : Sender ω ι α) (d_fun : Fun ω ι α) : Sender ω ι α where
  State := LetState s.State d_fun
  init := ⟨s.init, none, []⟩
  start w x := receiver_impl tag x (s.start w x.d_state)
  on e w x :=
    match x.d_inner_state with
    | some i => final_receiver x i.d_args i.world
        ((d_fun i.d_args i.world).2.on e w i.d_state)
    | none => receiver_impl tag x (s.on e w x.d_state)

/-! ## 2. Behaviour -/

/-- What `let` does once its upstream sender has completed. -/
def continued (tag : Tag) (d_fun : Fun ω ι α) (c : Completion α) (w : ω) (es : List ι) :
    Result ω ι (Completion α) :=
  if c.cpo = tag then (d_fun c.args w).2.behaviour (d_fun c.args w).1 es else .pure c w es

/-- `then` completes at once. -/
def applied (tag : Tag) (d_fun : List α → ω → ω × Option α) (c : Completion α) (w : ω)
    (es : List ι) : Result ω ι (Completion α) :=
  if c.cpo = tag then .pure ⟨.set_value, (d_fun c.args w).2.toList⟩ (d_fun c.args w).1 es
  else .pure c w es

namespace LetLemmas

variable {tag : Tag} {s : Sender ω ι α} {d_fun : Fun ω ι α}

theorem receiver_impl_waiting {x : LetState σ d_fun} {o : Outcome ω σ (Completion α)}
    (h : o.completion = none) :
    receiver_impl tag x o = ⟨o.world, { x with d_state := o.state }, none⟩ := by
  simp [receiver_impl, h]

theorem receiver_impl_tag {x : LetState σ d_fun} {o : Outcome ω σ (Completion α)}
    {c : Completion α} (h : o.completion = some c) (hc : c.cpo = tag) :
    receiver_impl tag x o = emplace { x with d_state := o.state } c.args o.world := by
  simp [receiver_impl, h, hc]

theorem receiver_impl_other {x : LetState σ d_fun} {o : Outcome ω σ (Completion α)}
    {c : Completion α} (h : o.completion = some c) (hc : c.cpo ≠ tag) :
    receiver_impl tag x o = ⟨o.world, { x with
      d_state := o.state, calls := x.calls ++ [.receiver c] }, some c⟩ := by
  simp [receiver_impl, h, hc]

theorem final_receiver_waiting {x : LetState σ d_fun} {args : List α} {called : ω}
    {o : Outcome ω (d_fun args called).2.State (Completion α)} (h : o.completion = none) :
    final_receiver x args called o =
      ⟨o.world, { x with d_inner_state := some ⟨args, called, o.state⟩ }, none⟩ := by
  simp [final_receiver, h]

theorem on_none {x : LetState s.State d_fun} (h : x.d_inner_state = none) (e : ι) (w : ω) :
    (let_ tag s d_fun).on e w x = receiver_impl tag x (s.on e w x.d_state) := by
  simp [let_, h]

theorem on_some {x : LetState s.State d_fun} {i : InnerState d_fun} (h : x.d_inner_state = some i)
    (e : ι) (w : ω) : (let_ tag s d_fun).on e w x =
      final_receiver x i.d_args i.world ((d_fun i.d_args i.world).2.on e w i.d_state) := by
  simp [let_, h]

/-- Once the function has returned its sender, this is the one that runs. -/
theorem result_final_receiver (x : LetState s.State d_fun) (args : List α) (called : ω)
    (o : Outcome ω (d_fun args called).2.State (Completion α)) (es : List ι) :
    (let_ tag s d_fun).result (final_receiver x args called o) es =
      (d_fun args called).2.result o es := by
  have hseq : (let_ tag s d_fun).result (final_receiver x args called o) es =
      ((d_fun args called).2.result o es).bind Result.pure := by
    refine play_seq (L := let_ tag s d_fun) (final_receiver x args called) ?_ ?_ ?_ ?_ o es
    · intro o _
      rfl
    · intro o h
      exact h
    · intro o e h
      rw [final_receiver_waiting h]
      exact on_some (x := { x with d_inner_state := some ⟨args, called, o.state⟩ }) rfl e o.world
    · intro o c es h
      exact result_completed (M := let_ tag s d_fun) (o := final_receiver x args called o) h es
  rw [hseq, Result.bind_pure]

theorem result_receiver_impl {x : LetState s.State d_fun} (hx : x.d_inner_state = none)
    (o : Outcome ω s.State (Completion α)) (es : List ι) :
    (let_ tag s d_fun).result (receiver_impl tag x o) es =
      (s.result o es).bind (continued tag d_fun) := by
  refine play_seq (L := let_ tag s d_fun) (receiver_impl tag x) ?_ ?_ ?_ ?_ o es
  · intro o h
    rw [receiver_impl_waiting h]
  · intro o h
    rw [receiver_impl_waiting h]
  · intro o e h
    rw [receiver_impl_waiting h]
    exact on_none (x := { x with d_state := o.state }) hx e o.world
  · intro o c es h
    unfold continued
    split
    · next hc =>
      rw [receiver_impl_tag h hc]
      exact result_final_receiver ..
    · next hc =>
      rw [receiver_impl_other h hc]
      exact result_completed rfl es

theorem let_behaviour (tag : Tag) (s : Sender ω ι α) (d_fun : Fun ω ι α) (w : ω) (es : List ι) :
    (let_ tag s d_fun).behaviour w es = (s.behaviour w es).bind (continued tag d_fun) :=
  result_receiver_impl rfl _ es

theorem then_receiver_waiting {h : List α → ω → ω × Option α} {x : ThenState σ α}
    {o : Outcome ω σ (Completion α)} (hc : o.completion = none) :
    then_receiver tag h x o = ⟨o.world, { x with d_state := o.state }, none⟩ := by
  simp [then_receiver, hc]

theorem result_then_receiver (h : List α → ω → ω × Option α) (x : ThenState s.State α)
    (o : Outcome ω s.State (Completion α)) (es : List ι) :
    (then_ tag s h).result (then_receiver tag h x o) es =
      (s.result o es).bind (applied tag h) := by
  refine play_seq (L := then_ tag s h) (then_receiver tag h x) ?_ ?_ ?_ ?_ o es
  · intro o hc
    rw [then_receiver_waiting hc]
  · intro o hc
    rw [then_receiver_waiting hc]
  · intro o e hc
    rw [then_receiver_waiting hc]
    rfl
  · intro o c es hc
    unfold applied
    split
    · next htag =>
      have hreceiver : (then_receiver tag h x o).completion =
          some ⟨.set_value, (h c.args o.world).2.toList⟩ ∧
          (then_receiver tag h x o).world = (h c.args o.world).1 := by
        simp [then_receiver, hc, htag]
      rw [← hreceiver.2]
      exact result_completed (M := then_ tag s h) hreceiver.1 es
    · next htag =>
      have hreceiver : (then_receiver tag h x o).completion = some c ∧
          (then_receiver tag h x o).world = o.world := by
        simp [then_receiver, hc, htag]
      rw [← hreceiver.2]
      exact result_completed (M := then_ tag s h) hreceiver.1 es

theorem then_behaviour (tag : Tag) (s : Sender ω ι α) (h : List α → ω → ω × Option α) (w : ω)
    (es : List ι) : (then_ tag s h).behaviour w es = (s.behaviour w es).bind (applied tag h) :=
  result_then_receiver h _ _ es

theorem just_behaviour (signal : Tag) (a : List α) (w : ω) (es : List ι) :
    (just signal a).behaviour w es = .pure ⟨signal, a⟩ w es :=
  result_completed rfl es

end LetLemmas

open LetLemmas

theorem let_just (tag : Tag) (a : List α) (f : Fun ω ι α) (w : ω) (es : List ι) :
    (let_ tag (just tag a) f).behaviour w es = (f a w).2.behaviour (f a w).1 es := by
  rw [let_behaviour, just_behaviour, Result.pure_bind, continued, if_pos rfl]

example : (let_ .set_value (just .set_value ["hello, ", "world"]) fun a w =>
    (w, just .set_value [String.join a])).behaviour () ([] : List Unit) =
      .pure ⟨.set_value, ["hello, world"]⟩ () [] := rfl

theorem let_returns_just (tag : Tag) (s : Sender ω ι α) :
    Behaves (let_ tag s fun a w => (w, just tag a)) s := by
  intro w es
  rw [let_behaviour]
  have hpure : ∀ (c : Completion α) (w : ω) (es : List ι),
      continued tag (fun a w => (w, just tag a)) c w es = .pure c w es := by
    intro c w es
    unfold continued
    split
    · next hc =>
      rw [just_behaviour, ← hc]
    · rfl
  rw [Result.bind_congr _ hpure, Result.bind_pure]

theorem let_let (tag : Tag) (s : Sender ω ι α) (f g : Fun ω ι α) :
    Behaves (let_ tag (let_ tag s f) g)
      (let_ tag s fun a w => ((f a w).1, let_ tag (f a w).2 g)) := by
  intro w es
  rw [let_behaviour, let_behaviour, let_behaviour, Result.bind_assoc]
  refine Result.bind_congr _ fun c w es => ?_
  rcases eq_or_ne c.cpo tag with hc | hc
  · -- `f` has returned its sender in both, and `g` follows it
    rw [continued, if_pos hc, continued, if_pos hc, let_behaviour]
  · -- passed on by both of them, or by the outer one alone
    rw [continued, if_neg hc, continued, if_neg hc, Result.pure_bind, continued, if_neg hc]

theorem then_let (tag : Tag) (s : Sender ω ι α) (h : List α → ω → ω × Option α) :
    Behaves (then_ tag s h)
      (let_ tag s fun a w => ((h a w).1, just .set_value (h a w).2.toList)) := by
  intro w es
  rw [then_behaviour, let_behaviour]
  refine Result.bind_congr _ fun c w es => ?_
  unfold applied continued
  rw [just_behaviour]

/-! ## 3. The calls -/

/-- The final receiver has been completed as often as the whole has, and the arguments of the one
call of the function are held from then on. -/
structure Held {d_fun : Fun ω ι α} (o : Outcome ω (LetState σ d_fun) (Completion α)) : Prop where
  received : o.state.calls.filterMap Call.received = o.completion.toList
  invoked : o.state.calls.filterMap Call.invoked =
    (o.state.d_inner_state.map InnerState.d_args).toList

/-- `then` keeps nothing; it has called its function at most once. -/
structure Applied (o : Outcome ω (ThenState σ α) (Completion α)) : Prop where
  received : o.state.calls.filterMap Call.received = o.completion.toList
  invoked : (o.state.calls.filterMap Call.invoked).length ≤ o.completion.toList.length

namespace LetLemmas

variable {tag : Tag} {s : Sender ω ι α} {d_fun : Fun ω ι α}

theorem filterMap_received (cs : List (Completion α)) :
    (cs.map Call.receiver).filterMap Call.received = cs := by
  induction cs with
  | nil => rfl
  | cons c cs ih => simp [ih]

theorem filterMap_invoked (cs : List (Completion α)) :
    (cs.map Call.receiver).filterMap Call.invoked = [] := by
  simp

theorem held_final_receiver {x : LetState σ d_fun} {args : List α} {called : ω}
    (hr : x.calls.filterMap Call.received = []) (hi : x.calls.filterMap Call.invoked = [args])
    (o : Outcome ω (d_fun args called).2.State (Completion α)) :
    Held (final_receiver x args called o) where
  received := by
    simp only [final_receiver, List.filterMap_append, hr, filterMap_received, List.nil_append]
  invoked := by
    simp only [final_receiver, List.filterMap_append, hi, filterMap_invoked, List.append_nil]
    rfl

theorem held_receiver_impl {x : LetState σ d_fun} (hx : x.d_inner_state = none)
    (hcalls : x.calls = []) (o : Outcome ω σ (Completion α)) :
    Held (receiver_impl tag x o) := by
  cases hc : o.completion with
  | none =>
    rw [receiver_impl_waiting hc]
    exact ⟨by simp [hcalls], by simp [hcalls, hx]⟩
  | some c =>
    rcases eq_or_ne c.cpo tag with htag | htag
    · rw [receiver_impl_tag hc htag]
      exact held_final_receiver (by simp [hcalls])
        (by simp [hcalls]) _
    · rw [receiver_impl_other hc htag]
      exact ⟨by simp [hcalls], by simp [hcalls, hx]⟩

theorem calls_nil {l : List (Call α)} (hr : l.filterMap Call.received = [])
    (hi : l.filterMap Call.invoked = []) : l = [] := by
  cases l with
  | nil => rfl
  | cons x l =>
    cases x with
    | fun_ args => simp at hi
    | receiver c => simp at hr

theorem held_on {o : Outcome ω (LetState s.State d_fun) (Completion α)} (h : Held o)
    (hc : o.completion = none) (e : ι) : Held ((let_ tag s d_fun).on e o.world o.state) := by
  have hr : o.state.calls.filterMap Call.received = [] := by
    rw [h.received, hc]
    rfl
  cases hx : o.state.d_inner_state with
  | none =>
    have hi : o.state.calls.filterMap Call.invoked = [] := by
      rw [h.invoked, hx]
      rfl
    rw [on_none hx]
    exact held_receiver_impl hx (calls_nil hr hi) _
  | some i =>
    have hi : o.state.calls.filterMap Call.invoked = [i.d_args] := by
      rw [h.invoked, hx]
      rfl
    rw [on_some hx]
    exact held_final_receiver hr hi _

theorem applied_then_receiver {h : List α → ω → ω × Option α} {x : ThenState σ α}
    (hcalls : x.calls = []) (o : Outcome ω σ (Completion α)) :
    Applied (then_receiver tag h x o) := by
  cases hc : o.completion with
  | none =>
    rw [then_receiver_waiting hc]
    exact ⟨by simp [hcalls], by simp [hcalls]⟩
  | some c =>
    unfold then_receiver
    simp only [hc]
    split
    · exact ⟨by simp [hcalls, List.filterMap_cons], by simp [hcalls, List.filterMap_cons]⟩
    · exact ⟨by simp [hcalls], by simp [hcalls, List.filterMap_cons]⟩

end LetLemmas

theorem let_held (tag : Tag) (s : Sender ω ι α) (d_fun : Fun ω ι α) (w : ω) (es : List ι) :
    Held ((let_ tag s d_fun).after w es) :=
  play_invariant (M := let_ tag s d_fun) (P := Held) (fun _ e h hc => held_on h hc e)
    (held_receiver_impl rfl rfl _) es

theorem then_applied (tag : Tag) (s : Sender ω ι α) (h : List α → ω → ω × Option α) (w : ω)
    (es : List ι) : Applied ((then_ tag s h).after w es) := by
  refine play_invariant (M := then_ tag s h) (P := Applied) (fun o e ho hc => ?_)
    (applied_then_receiver rfl _) es
  have hr : o.state.calls.filterMap Call.received = [] := by
    rw [ho.received, hc]
    rfl
  have hi : o.state.calls.filterMap Call.invoked = [] := by
    have hlength := ho.invoked
    rw [hc] at hlength
    exact List.length_eq_zero_iff.mp (Nat.le_zero.mp hlength)
  exact applied_then_receiver (calls_nil hr hi) _

/-- The sequencing laws for every completion function `tag` and every sender, whatever the functions
do to the world and whether the senders complete at once or later. -/
theorem let_laws (tag : Tag) (s : Sender ω ι α) (f g : Fun ω ι α)
    (h : List α → ω → ω × Option α) :
    (∀ a w es, (let_ tag (just tag a) f).behaviour w es = (f a w).2.behaviour (f a w).1 es) ∧
    Behaves (let_ tag s fun a w => (w, just tag a)) s ∧
    Behaves (let_ tag (let_ tag s f) g)
      (let_ tag s fun a w => ((f a w).1, let_ tag (f a w).2 g)) ∧
    Behaves (then_ tag s h)
      (let_ tag s fun a w => ((h a w).1, just .set_value (h a w).2.toList)) ∧
    (∀ w es, (let_ tag s f).behaviour w es = (s.behaviour w es).bind (continued tag f)) ∧
    (∀ w es, Held ((let_ tag s f).after w es)) ∧
    ∀ w es, Applied ((then_ tag s h).after w es) :=
  ⟨fun a => let_just tag a f, let_returns_just tag s, let_let tag s f g, then_let tag s h,
    let_behaviour tag s f, let_held tag s f, then_applied tag s h⟩

end Kuhllib.Let
