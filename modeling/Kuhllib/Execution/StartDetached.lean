import Kuhllib.Lib.Transition
import Mathlib.Data.List.Basic

/-!
# `nstd::execution::start_detached`

The holder has the operation state, the operation state has a receiver, and the
receiver has the `shared_ptr` that keeps the holder. A receiver has no move
constructor: where a sender moves it, it is copied, the `shared_ptr` too.

A sender is what it does with receivers: while it is connected it copies and
destroys them, and so it does while it runs, until it completes one of them. A
receiver that is copied without its `shared_ptr` makes the local `state` of
`operator()` point to that of the copy.

`freed_iff`: the completion destroys the holder if and only if no other copy of the
receiver is alive then.
-/

namespace Kuhllib.StartDetached

open Transition

/-! ## 1. The steps -/

/-- A receiver; `d_state` says that it refers to the holder, and `inside` that it is part of the
operation state. -/
structure Receiver where
  d_state : Bool
  inside : Bool
  deriving DecidableEq, Repr

/-- `operator()` connects, has started the operation state, and has returned. -/
inductive Phase
  | connecting
  | started
  | returned
  deriving DecidableEq, Repr

/-- All receivers made so far, `none` where destroyed; what the local `state` points to; how often
the holder was destroyed; and whether a pointer to `state` was used after its end. -/
structure State where
  receivers : List (Option Receiver)
  state : Option Nat
  phase : Phase
  completed : Bool
  destroyed : Nat
  undefined : Bool
  deriving DecidableEq, Repr

/-- The argument of `holder`. -/
def State.initial : State where
  receivers := [some ⟨false, false⟩]
  state := none
  phase := .connecting
  completed := false
  destroyed := 0
  undefined := false

def State.get (s : State) (r : Nat) : Option Receiver := s.receivers[r]?.join

def State.use_count (s : State) : Nat := s.receivers.countP fun x => x.any Receiver.d_state

/-- `receiver(receiver const&)`. -/
def State.copy (s : State) (x : Receiver) (inside : Bool) : State :=
  let s' := { s with receivers := s.receivers ++ [some ⟨x.d_state, inside⟩] }
  if x.d_state then s'
  -- *d_backpointer = &d_state
  else { s' with state := some s.receivers.length, undefined := s.undefined || s.phase = .returned }

/-- The destructor of the holder. -/
def State.delete (s : State) : State :=
  { s with
    receivers := s.receivers.map fun x => x.filter fun x => !x.inside
    destroyed := s.destroyed + 1 }

/-- The `shared_ptr` of a receiver is changed or ends with it. -/
def State.release (s : State) (r : Nat) (x : Receiver) (after : Option Receiver) : State :=
  let s' := { s with receivers := s.receivers.set r after }
  if x.d_state ∧ s'.use_count = 0 then s'.delete else s'

inductive Label
  | copy (r : Nat) (inside : Bool)
  | destroy (r : Nat)
  | reset
  | returns
  | complete (r : Nat)
  deriving DecidableEq, Repr

/-- A receiver other than `r` is alive. -/
def State.Another (s : State) (r : Nat) : Prop := ∃ r' ≠ r, (s.get r').isSome

instance (s : State) (r : Nat) : Decidable (s.Another r) :=
  decidable_of_iff (∃ r' < s.receivers.length, r' ≠ r ∧ (s.get r').isSome) <| by
    constructor
    · rintro ⟨r', -, hne, hr'⟩
      exact ⟨r', hne, hr'⟩
    · rintro ⟨r', hne, hr'⟩
      refine ⟨r', ?_, hne, hr'⟩
      by_contra hge
      simp [State.get, List.getElem?_eq_none (Nat.not_lt.mp hge)] at hr'

/-- A sender that has been started completes one of its receivers once, so it does not destroy its
last one before, and copies none after. When `state` is reset, the last copy is the one in the
operation state. -/
def next (s : State) : Label → Option State
  | .copy r inside =>
    match s.get r with
    | some x => if s.completed then none else some (s.copy x inside)
    | none => none
  | .destroy r =>
    match s.get r with
    | some x =>
      if s.phase = .connecting ∨ s.completed ∨ s.Another r then some (s.release r x none) else none
    | none => none
  -- state->reset(tmp)
  | .reset =>
    match s.state with
    | some r =>
      if s.phase = .connecting ∧ s.get r = some ⟨false, true⟩ ∧ ¬ s.Another r then
        some { s with receivers := s.receivers.set r (some ⟨true, true⟩), phase := .started }
      else none
    | none => none
  | .returns => if s.phase = .started then some { s with phase := .returned } else none
  -- r.d_state.reset()
  | .complete r =>
    match s.get r with
    | some x =>
      if s.phase ≠ .connecting ∧ !s.completed then
        some { s.release r x (some { x with d_state := false }) with completed := true }
      else none
    | none => none

def system : System State Label where
  init s := s = State.initial
  step s l s' := next s l = some s'

/-! ## 2. Who keeps the holder -/

/-- Before `state` is reset no receiver refers to the holder, then each one does until the sender
completes, and what is left of the holder afterwards is kept by those that still do. -/
structure Inv (s : State) : Prop where
  connecting : s.phase = .connecting → s.completed = false ∧ s.destroyed = 0 ∧
    ∀ r x, s.get r = some x → x.d_state = false
  running : s.phase ≠ .connecting → s.completed = false → s.destroyed = 0 ∧
    ∀ r x, s.get r = some x → x.d_state = true
  destroyed : s.destroyed ≤ 1 ∧ (s.destroyed = 1 → ∀ r x, s.get r = some x → x.d_state = false)
  defined : s.undefined = false

namespace StartDetachedLemmas

variable {s s' : State} {r : Nat} {x : Receiver}

theorem get_append (s : State) (y : Receiver) (r : Nat) :
    { s with receivers := s.receivers ++ [some y] }.get r =
      if r = s.receivers.length then some y else s.get r := by
  unfold State.get
  rcases Nat.lt_trichotomy r s.receivers.length with hlt | rfl | hgt
  · simp [List.getElem?_append_left hlt, Nat.ne_of_lt hlt]
  · simp
  · rw [List.getElem?_eq_none (by simp; omega), List.getElem?_eq_none (Nat.le_of_lt hgt),
      if_neg (Nat.ne_of_gt hgt)]

theorem lt_of_get (h : s.get r = some x) : r < s.receivers.length := by
  by_contra hge
  simp [State.get, List.getElem?_eq_none (Nat.not_lt.mp hge)] at h

theorem get_set (hr : r < s.receivers.length) (y : Option Receiver) (r' : Nat) :
    { s with receivers := s.receivers.set r y }.get r' = if r' = r then y else s.get r' := by
  unfold State.get
  rw [List.getElem?_set]
  rcases eq_or_ne r r' with rfl | hne
  · simp [hr]
  · simp [hne, hne.symm]

theorem get_delete (s : State) (r : Nat) :
    s.delete.get r = (s.get r).filter fun x => !x.inside := by
  unfold State.get State.delete
  rw [List.getElem?_map]
  rcases s.receivers[r]? with _ | _ | x
  · rfl
  · rfl
  · rfl

theorem use_count_eq_zero : s.use_count = 0 ↔ ∀ r x, s.get r = some x → x.d_state = false := by
  unfold State.use_count State.get
  rw [List.countP_eq_zero]
  constructor
  · intro h r x hx
    have hmem := List.mem_of_getElem? (Option.join_eq_some_iff.mp hx)
    simpa using h _ hmem
  · intro h y hy
    obtain ⟨r, hr⟩ := List.mem_iff_getElem?.mp hy
    cases y with
    | none => simp
    | some x => simpa using h r x (Option.join_eq_some_iff.mpr hr)

theorem inv_initial : Inv State.initial := by
  refine ⟨fun _ => ⟨rfl, rfl, fun r x hx => ?_⟩, fun h => absurd rfl h, ⟨Nat.zero_le 1, ?_⟩, rfl⟩
  · cases r with
    | zero =>
      cases hx
      rfl
    | succ r => simp [State.initial, State.get] at hx
  · exact fun h => by cases h

/-- The fields that the destructor of a `shared_ptr` leaves as they are. -/
theorem release_frame (s : State) (r : Nat) (x : Receiver) (after : Option Receiver) :
    (s.release r x after).phase = s.phase ∧ (s.release r x after).completed = s.completed ∧
      (s.release r x after).undefined = s.undefined := by
  unfold State.release
  dsimp only
  split <;> exact ⟨rfl, rfl, rfl⟩

/-- The holder goes with the last `shared_ptr`. -/
theorem destroyed_release (s : State) (r : Nat) (x : Receiver) (after : Option Receiver) :
    (s.release r x after).destroyed = s.destroyed + (if x.d_state ∧
      { s with receivers := s.receivers.set r after }.use_count = 0 then 1 else 0) := by
  unfold State.release
  dsimp only
  split
  · rfl
  · rfl

/-- What a receiver is afterwards that is not destroyed. -/
theorem get_release {after : Option Receiver} (hr : s.get r = some x) {r' : Nat} {y : Receiver}
    (hy : (s.release r x after).get r' = some y) :
    (r' = r ∧ after = some y) ∨ (r' ≠ r ∧ s.get r' = some y) := by
  have hget := get_set (s := s) (lt_of_get hr) after r'
  have hset : { s with receivers := s.receivers.set r after }.get r' = some y := by
    unfold State.release at hy
    dsimp only at hy
    split at hy
    · rw [get_delete] at hy
      exact (Option.filter_eq_some_iff.mp hy).1
    · exact hy
  rw [hget] at hset
  split at hset
  · next heq => exact .inl ⟨heq, hset⟩
  · next hne => exact .inr ⟨hne, hset⟩

theorem not_another (h : ¬ s.Another r) {r' : Nat} {y : Receiver} (hy : s.get r' = some y) :
    r' = r := by
  by_contra hne
  exact h ⟨r', hne, by rw [hy]; rfl⟩

/-- Once the holder is destroyed no receiver refers to it, and so it is destroyed once. -/
theorem destroyed_of_release {after : Option Receiver} (h : Inv s) (hr : s.get r = some x)
    (hafter : ∀ y, after = some y → y.d_state = false) :
    (s.release r x after).destroyed ≤ 1 ∧ ((s.release r x after).destroyed = 1 →
      ∀ r' y, (s.release r x after).get r' = some y → y.d_state = false) := by
  obtain ⟨hle, hgone⟩ := h.destroyed
  have hdestroyed := destroyed_release s r x after
  have hold : s.destroyed = 1 → x.d_state = false := fun h1 => hgone h1 r x hr
  refine ⟨?_, fun hone r' y hy => ?_⟩
  · rw [hdestroyed]
    split
    · next hlast =>
      have hne : s.destroyed ≠ 1 := fun h1 => by simp [hold h1] at hlast
      omega
    · exact hle
  · rcases get_release hr hy with ⟨-, heq⟩ | ⟨hne, hget⟩
    · exact hafter y heq
    · rw [hdestroyed] at hone
      split at hone
      · next hlast =>
        refine use_count_eq_zero.mp hlast.2 r' y ?_
        rw [get_set (lt_of_get hr), if_neg hne]
        exact hget
      · exact hgone hone r' y hget

theorem inv_copy {inside : Bool} (h : Inv s) (hr : s.get r = some x) (hc : s.completed = false) :
    Inv (s.copy x inside) := by
  have hget : ∀ r' y, (s.copy x inside).get r' = some y →
      y.d_state = x.d_state ∨ s.get r' = some y := by
    intro r' y hy
    have happend : { s with
        receivers := s.receivers ++ [some (⟨x.d_state, inside⟩ : Receiver)] }.get r' = some y := by
      unfold State.copy at hy
      dsimp only at hy
      split at hy
      · exact hy
      · exact hy
    rw [get_append] at happend
    split at happend
    · cases happend
      exact .inl rfl
    · exact .inr happend
  have hframe : (s.copy x inside).phase = s.phase ∧ (s.copy x inside).completed = s.completed ∧
      (s.copy x inside).destroyed = s.destroyed := by
    unfold State.copy
    dsimp only
    split
    · exact ⟨rfl, rfl, rfl⟩
    · exact ⟨rfl, rfl, rfl⟩
  obtain ⟨hphase, hcompleted, hdestroyed⟩ := hframe
  have hzero : s.destroyed = 0 := by
    rcases eq_or_ne s.phase .connecting with hp | hp
    · exact (h.connecting hp).2.1
    · exact (h.running hp hc).1
  refine ⟨fun hp => ?_, fun hp _ => ?_, ⟨by omega, fun hone => by omega⟩, ?_⟩
  · rw [hphase] at hp
    have hnone := (h.connecting hp).2.2
    refine ⟨hcompleted.trans hc, hdestroyed.trans hzero, fun r' y hy => ?_⟩
    rcases hget r' y hy with heq | hold
    · exact heq.trans (hnone r x hr)
    · exact hnone r' y hold
  · rw [hphase] at hp
    have hall := (h.running hp hc).2
    refine ⟨hdestroyed.trans hzero, fun r' y hy => ?_⟩
    rcases hget r' y hy with heq | hold
    · exact heq.trans (hall r x hr)
    · exact hall r' y hold
  · rcases eq_or_ne s.phase .connecting with hp | hp
    · unfold State.copy
      dsimp only
      split
      · exact h.defined
      · simp [h.defined, hp]
    · simp [State.copy, (h.running hp hc).2 r x hr, h.defined]

theorem inv_destroy (h : Inv s) (hr : s.get r = some x)
    (hok : s.phase = .connecting ∨ s.completed ∨ s.Another r) : Inv (s.release r x none) := by
  obtain ⟨hphase, hcompleted, hundefined⟩ := release_frame s r x none
  have hdestroyed := destroyed_release s r x none
  have hget : ∀ r' y, (s.release r x none).get r' = some y → r' ≠ r ∧ s.get r' = some y := by
    intro r' y hy
    rcases get_release hr hy with ⟨-, hnone⟩ | hold
    · cases hnone
    · exact hold
  refine ⟨fun hp => ?_, fun hp hc => ?_, destroyed_of_release h hr (fun y hy => (by cases hy)),
    hundefined.trans h.defined⟩
  · rw [hphase] at hp
    obtain ⟨hc, hzero, hnone⟩ := h.connecting hp
    refine ⟨hcompleted.trans hc, ?_, fun r' y hy => hnone r' y (hget r' y hy).2⟩
    rw [hdestroyed, hzero, if_neg (by simp [hnone r x hr])]
  · rw [hphase] at hp
    rw [hcompleted] at hc
    obtain ⟨hzero, hall⟩ := h.running hp hc
    refine ⟨?_, fun r' y hy => hall r' y (hget r' y hy).2⟩
    rw [hdestroyed, hzero, if_neg]
    rintro ⟨-, hcount⟩
    rcases hok with hok | hok | ⟨r', hne, hr'⟩
    · exact hp hok
    · rw [hc] at hok
      cases hok
    · -- another receiver refers to the holder
      obtain ⟨y, hy⟩ := Option.isSome_iff_exists.mp hr'
      have hset := get_set (s := s) (lt_of_get hr) none r'
      rw [if_neg hne] at hset
      have hfalse := use_count_eq_zero.mp hcount r' y (hset.trans hy)
      rw [hall r' y hy] at hfalse
      cases hfalse

theorem inv_complete (h : Inv s) (hr : s.get r = some x) (hp : s.phase ≠ .connecting) :
    Inv { s.release r x (some { x with d_state := false }) with completed := true } := by
  obtain ⟨hphase, -, hundefined⟩ := release_frame s r x (some { x with d_state := false })
  refine ⟨fun hp' => absurd (hphase.symm.trans hp') hp, fun _ hc => (by cases hc), ?_,
    hundefined.trans h.defined⟩
  refine destroyed_of_release h hr fun y hy => ?_
  cases hy
  rfl

end StartDetachedLemmas

open StartDetachedLemmas

theorem inv_step {s s' : State} {l : Label} (h : Inv s) (hs : next s l = some s') : Inv s' := by
  cases l with
  | copy r inside =>
    simp only [next] at hs
    split at hs
    · next x hr =>
      split at hs
      · cases hs
      · next hc =>
        cases hs
        exact inv_copy h hr (by simpa using hc)
    · cases hs
  | destroy r =>
    simp only [next] at hs
    split at hs
    · next x hr =>
      obtain ⟨hok, hs⟩ := Option.ite_none_right_eq_some.mp hs
      cases hs
      exact inv_destroy h hr hok
    · cases hs
  | reset =>
    simp only [next] at hs
    split at hs
    · next r hstate =>
      obtain ⟨⟨hp, hr, hnot⟩, hs⟩ := Option.ite_none_right_eq_some.mp hs
      cases hs
      obtain ⟨-, hzero, -⟩ := h.connecting hp
      refine ⟨fun hp' => (by cases hp'), fun _ _ => ⟨hzero, fun r' y hy => ?_⟩, ⟨?_, ?_⟩, h.defined⟩
      · have hget := get_set (s := s) (lt_of_get hr) (some ⟨true, true⟩) r'
        have hy' := hget.symm.trans hy
        split at hy'
        · cases hy'
          rfl
        · next hne => exact absurd (not_another hnot hy') hne
      · show s.destroyed ≤ 1
        omega
      · intro hone
        have hone' : s.destroyed = 1 := hone
        omega
    · cases hs
  | returns =>
    obtain ⟨hp, hs⟩ := Option.ite_none_right_eq_some.mp hs
    cases hs
    exact ⟨fun hp' => (by cases hp'), fun _ hc => h.running (by rw [hp]; simp) hc, h.destroyed,
      h.defined⟩
  | complete r =>
    simp only [next] at hs
    split at hs
    · next x hr =>
      obtain ⟨⟨hp, -⟩, hs⟩ := Option.ite_none_right_eq_some.mp hs
      cases hs
      exact inv_complete h hr hp
    · cases hs

theorem inv_run {s : State} {tr : List Label} (h : Run system State.initial tr s) : Inv s :=
  h.invariant_state inv_initial fun _ _ _ => inv_step

/-! ## 3. The completion -/

/-- The step from `s` to `s'` destroys the holder, which was not destroyed before and is not again;
no receiver refers to it afterwards. -/
structure Freed (s s' : State) : Prop where
  before : s.destroyed = 0
  now : s'.destroyed = 1
  released : ∀ r x, s'.get r = some x → x.d_state = false
  once : ∀ tr s'', Run system s' tr s'' → s''.destroyed = 1

namespace StartDetachedLemmas

variable {s s' : State} {r : Nat} {x : Receiver} {l : Label}

theorem destroyed_mono (hs : next s l = some s') : s.destroyed ≤ s'.destroyed := by
  cases l with
  | copy r inside =>
    simp only [next] at hs
    split at hs
    · split at hs
      · cases hs
      · cases hs
        unfold State.copy
        dsimp only
        split
        · exact Nat.le_refl _
        · exact Nat.le_refl _
    · cases hs
  | destroy r =>
    simp only [next] at hs
    split at hs
    · next x hr =>
      obtain ⟨-, hs⟩ := Option.ite_none_right_eq_some.mp hs
      cases hs
      rw [destroyed_release]
      exact Nat.le_add_right _ _
    · cases hs
  | reset =>
    simp only [next] at hs
    split at hs
    · obtain ⟨-, hs⟩ := Option.ite_none_right_eq_some.mp hs
      cases hs
      exact Nat.le_refl _
    · cases hs
  | returns =>
    obtain ⟨-, hs⟩ := Option.ite_none_right_eq_some.mp hs
    cases hs
    exact Nat.le_refl _
  | complete r =>
    simp only [next] at hs
    split at hs
    · next x hr =>
      obtain ⟨-, hs⟩ := Option.ite_none_right_eq_some.mp hs
      cases hs
      show s.destroyed ≤ (s.release r x _).destroyed
      rw [destroyed_release]
      exact Nat.le_add_right _ _
    · cases hs

theorem destroyed_stays {tr : List Label} (h : Inv s) (hone : s.destroyed = 1)
    (hrun : Run system s tr s') : s'.destroyed = 1 :=
  (hrun.invariant_state (I := fun s => Inv s ∧ s.destroyed = 1) ⟨h, hone⟩
    fun s l s' hi hs => by
      have hinv := inv_step hi.1 hs
      have hmono := destroyed_mono hs
      have hle := hinv.destroyed.1
      exact ⟨hinv, by omega⟩).2

/-- The receiver that is completed has the last `shared_ptr` if and only if it is alone. -/
theorem use_count_complete (h : Inv s) (hr : s.get r = some x) (hp : s.phase ≠ .connecting)
    (hc : s.completed = false) :
    { s with receivers := s.receivers.set r (some { x with d_state := false }) }.use_count = 0 ↔
      ¬ s.Another r := by
  have hget := get_set (s := s) (lt_of_get hr) (some { x with d_state := false })
  rw [use_count_eq_zero]
  constructor
  · rintro hnone ⟨r', hne, hr'⟩
    obtain ⟨y, hy⟩ := Option.isSome_iff_exists.mp hr'
    have hset := hget r'
    rw [if_neg hne, hy] at hset
    have hfalse := hnone r' y hset
    rw [(h.running hp hc).2 r' y hy] at hfalse
    cases hfalse
  · intro hnot r' y hy
    rw [hget] at hy
    split at hy
    · cases hy
      rfl
    · next hne => exact absurd (not_another hnot hy) hne

end StartDetachedLemmas

/-- In every run, the completion destroys the holder, and nothing else does, if and only if no
other copy of the receiver is alive. -/
theorem freed_iff {s s' : State} {tr : List Label} {r : Nat} (h : Run system State.initial tr s)
    (hs : next s (.complete r) = some s') : Freed s s' ↔ ¬ s.Another r := by
  have hinv := inv_run h
  have hinv' := inv_step hinv hs
  simp only [next] at hs
  split at hs
  · next x hr =>
    obtain ⟨⟨hp, hc⟩, hs⟩ := Option.ite_none_right_eq_some.mp hs
    cases hs
    have hc : s.completed = false := by simpa using hc
    obtain ⟨hzero, hall⟩ := hinv.running hp hc
    have hdestroyed := destroyed_release s r x (some { x with d_state := false })
    rw [hzero, hall r x hr, Nat.zero_add] at hdestroyed
    rw [← use_count_complete hinv hr hp hc]
    constructor
    · intro hfreed
      by_contra hcount
      rw [if_neg fun hlast => hcount hlast.2] at hdestroyed
      have hnow := hfreed.now
      rw [hdestroyed] at hnow
      cases hnow
    · intro hcount
      rw [if_pos ⟨rfl, hcount⟩] at hdestroyed
      exact ⟨hzero, hdestroyed, hinv'.destroyed.2 hdestroyed, fun _ _ => destroyed_stays hinv' hdestroyed⟩
  · cases hs

/-- `then(just(), f)`: the receiver is copied into that of `then`, and this into the operation
state of `just`. -/
def exThen : List Label :=
  [.copy 0 false, .copy 1 true, .destroy 1, .destroy 0, .reset]

theorem freed_iff_example : ∃ s s', Run system State.initial exThen s ∧
    next s (.complete 2) = some s' ∧ Freed s s' := by
  have hrun := run_replay (S := system) (fun _ _ _ => id)
    (show (replay next State.initial exThen).isSome from by decide)
  exact ⟨_, _, hrun, rfl, (freed_iff (r := 2) hrun rfl).mpr (by decide)⟩

/-- `let_value(just(), f)` where `f` returns `just()`: `d_receiver` of `state_base` is a copy, and
`emplace` moves it into the operation state of `inner_state`, which makes another one. -/
def exLet : List Label :=
  [.copy 0 true, .destroy 0, .reset, .copy 1 true]

/-- The inner sender completes, and `d_receiver` keeps the holder that it is part of. -/
theorem not_freed : ∃ s s', Run system State.initial exLet s ∧ next s (.complete 2) = some s' ∧
    s'.destroyed = 0 ∧ s'.get 1 = some ⟨true, true⟩ ∧ ¬ Freed s s' := by
  refine ⟨_, _, run_replay (S := system) (fun _ _ _ => id)
    (show (replay next State.initial exLet).isSome from by decide), rfl, rfl, rfl, fun h => ?_⟩
  cases h.now

end Kuhllib.StartDetached
