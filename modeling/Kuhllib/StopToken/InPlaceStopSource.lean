import Kuhllib.Lib.Stacks
import Kuhllib.Lib.Transition

/-!
# `nstd::stop_token_ns::in_place_stop_source`

Any number of threads run `insert`, `remove` and `stop` on one source. A
thread is a stack of frames, innermost first; a frame is a point of one of the
three functions, named after the access it is about to make. `exec` is what
one frame does up to and including its next atomic access of `d_list`,
`d_stop_requested` or `d_called`; the walk of `remove` over the detached list
takes one step for each node.

A callback that is being called is a frame `body` of user code. User code may
start further operations on the same thread, so re-entrant calls are calls
from inside a `body`.

`State.phase` is the discipline of the clients: a callback is inserted once,
by the constructor of `in_place_stop_callback`, and removed once, by its
destructor, after `insert` has returned.
-/

namespace Kuhllib.InPlaceStopSource

open Transition

/-- The objects a `in_place_stop_callback_base*` may point to: the two members
`d_marker` and `d_end` of the source, and the callbacks. -/
inductive Node (κ : Type)
  | marker
  | endNode
  | callback (c : κ)
  deriving DecidableEq, Repr

/-- `d_list` and `d_stop_requested`, and `d_next` and `d_called` of every node. -/
structure Memory (κ : Type) where
  list : Option (Node κ)
  stop_requested : Bool
  next : Node κ → Option (Node κ)
  called : Node κ → Bool

/-- Who calls `call()`. -/
inductive Caller
  | insert
  | stop
  deriving DecidableEq, Repr

/-- What a step does, as far as a client or the list of callbacks can tell. -/
inductive Event (κ : Type)
  | insertStart (c : κ)
  | link (c : κ)
  | insertReturn (c : κ)
  | removeStart (c : κ)
  | removeSkip (c : κ)
  | removeTake (c : κ)
  | removeStore (c : κ)
  | removeReturn (c : κ)
  | stopStart
  | stopWin
  | stopTake
  | stopStore
  | stopReturn (won : Bool)
  | call (by' : Caller) (c : κ)
  | bodyReturn (c : κ)
  | tau
  deriving DecidableEq, Repr

/-- The points of the three functions. -/
inductive Frame (κ : Type)
  | insertLoad (c : κ)
  | insertLoop (c : κ) (head : Option (Node κ))
  | insertReturn (c : κ)
  | removeCheck (c : κ)
  | removeLoad (c : κ)
  | removeLoop (c : κ) (head : Option (Node κ))
  | removeWalk (c : κ) (head : Node κ) (node : Option (Node κ))
  | removeStore (c : κ) (head : Option (Node κ))
  | removeReturn (c : κ)
  | stopExchange
  | stopLoad
  | stopLoop (head : Option (Node κ))
  | stopWalk (node : Option (Node κ))
  | stopReturn (won : Bool)
  | body (c : κ)
  deriving DecidableEq, Repr

/-- The life of a callback as its client sees it. -/
inductive Phase
  | fresh
  | inserting
  | inserted
  | removing
  | removed
  deriving DecidableEq, Repr

variable {κ τ : Type} [DecidableEq κ] [DecidableEq τ]

/-- `call()` up to the call of `do_call()`. The nodes of the source itself have
a `do_call()` that does nothing. -/
def Memory.call (m : Memory κ) (n : Node κ) : Memory κ :=
  { m with called := Function.update m.called n true }

/-- One frame up to its next atomic access: the event, the new memory, and the
frames that replace it. -/
def exec (m : Memory κ) : Frame κ → Event κ × Memory κ × List (Frame κ)
  -- insert(callback)
  | .insertLoad c => (.tau, m, [.insertLoop c m.list])
  | .insertLoop c none =>
    (.call .insert c, m.call (.callback c), [.body c, .insertReturn c])
  | .insertLoop c (some head) =>
    let m' := { m with next := Function.update m.next (.callback c) (some head) }
    if head = .marker then (.tau, m', [.insertLoop c (some head)])
    else if m.list = some head then
      (.link c, { m' with list := some (.callback c) }, [.insertReturn c])
    else (.tau, m', [.insertLoop c m.list])
  | .insertReturn c => (.insertReturn c, m, [])
  -- remove(callback)
  | .removeCheck c =>
    if m.called (.callback c) then (.removeSkip c, m, [.removeReturn c])
    else (.tau, m, [.removeLoad c])
  | .removeLoad c => (.tau, m, [.removeLoop c m.list])
  | .removeLoop c none => (.removeSkip c, m, [.removeReturn c])
  | .removeLoop c (some head) =>
    if head = .marker then (.tau, m, [.removeLoad c])
    else if m.list = some head then
      (.removeTake c, { m with list := some .marker },
        if head = .callback c then [.removeStore c (m.next head)]
        else [.removeWalk c head (some head)])
    else (.tau, m, [.removeLoad c])
  | .removeWalk c head none => (.tau, m, [.removeStore c (some head)])
  | .removeWalk c head (some node) =>
    if m.next node = some (.callback c) then
      (.tau, { m with next := Function.update m.next node (m.next (.callback c)) },
        [.removeStore c (some head)])
    else (.tau, m, [.removeWalk c head (m.next node)])
  | .removeStore c head => (.removeStore c, { m with list := head }, [.removeReturn c])
  | .removeReturn c => (.removeReturn c, m, [])
  -- stop()
  | .stopExchange =>
    if m.stop_requested then (.tau, m, [.stopReturn false])
    else (.stopWin, { m with stop_requested := true }, [.stopLoad])
  | .stopLoad => (.tau, m, [.stopLoop m.list])
  | .stopLoop none => (.tau, m, [.stopReturn true])
  | .stopLoop (some head) =>
    if head = .marker then (.tau, m, [.stopLoop (some head)])
    else if m.list = some head then
      (.stopTake, { m with list := some .marker }, [.stopWalk (some head)])
    else (.tau, m, [.stopLoop m.list])
  | .stopWalk none => (.stopStore, { m with list := none }, [.stopReturn true])
  | .stopWalk (some (.callback c)) =>
    (.call .stop c, m.call (.callback c), [.body c, .stopWalk (m.next (.callback c))])
  | .stopWalk (some node) => (.tau, m.call node, [.stopWalk (m.next node)])
  | .stopReturn won => (.stopReturn won, m, [])
  -- do_call() returns
  | .body c => (.bodyReturn c, m, [])

structure State (τ κ : Type) where
  mem : Memory κ
  threads : τ → List (Frame κ)
  phase : κ → Phase

/-- A source that was just constructed: `d_list` points to `d_end`. -/
def State.initial : State τ κ where
  mem := ⟨some .endNode, false, fun _ => none, fun _ => false⟩
  threads _ := []
  phase _ := .fresh

/-- User code is running: outside of all operations or in a callback. -/
def userCode : List (Frame κ) → Bool
  | [] => true
  | .body _ :: _ => true
  | _ => false

/-- What a thread does next: run its innermost frame, or, from user code, start
an operation. -/
inductive Choice (κ : Type)
  | run
  | insert (c : κ)
  | remove (c : κ)
  | stop
  deriving DecidableEq, Repr

def phaseAfter (ph : κ → Phase) : Event κ → κ → Phase
  | .insertStart c => Function.update ph c .inserting
  | .insertReturn c => Function.update ph c .inserted
  | .removeStart c => Function.update ph c .removing
  | .removeReturn c => Function.update ph c .removed
  | _ => ph

/-- Push the first frame of an operation. -/
def State.start (s : State τ κ) (t : τ) (e : Event κ) (f : Frame κ) : Event κ × State τ κ :=
  (e, ⟨s.mem, Stacks.set s.threads t ([f] ++ s.threads t), phaseAfter s.phase e⟩)

/-- The step of thread `t`, if it can make the choice. -/
def next (s : State τ κ) (t : τ) : Choice κ → Option (Event κ × State τ κ)
  | .run =>
    match s.threads t with
    | [] => none
    | f :: fs =>
      let r := exec s.mem f
      some (r.1, ⟨r.2.1, Stacks.set s.threads t (r.2.2 ++ fs), phaseAfter s.phase r.1⟩)
  | .insert c =>
    if userCode (s.threads t) ∧ s.phase c = .fresh then
      some (s.start t (.insertStart c) (.insertLoad c))
    else none
  | .remove c =>
    if userCode (s.threads t) ∧ s.phase c = .inserted then
      some (s.start t (.removeStart c) (.removeCheck c))
    else none
  | .stop =>
    if userCode (s.threads t) then some (s.start t .stopStart .stopExchange) else none

/-- The source under any number of threads. A label is a thread and what it did. -/
def system (τ κ : Type) [DecidableEq κ] [DecidableEq τ] : System (State τ κ) (τ × Event κ) where
  init s := s = State.initial
  step s l s' := ∃ ch, next s l.1 ch = some (l.2, s')

/-- The source under a list of choices, each made by a thread. -/
def run (s : State τ κ) : List (τ × Choice κ) → Option (List (τ × Event κ) × State τ κ) :=
  play (fun s (l : τ × Choice κ) => (next s l.1 l.2).map fun r => ((l.1, r.1), r.2)) s

theorem step_of_next {s s' : State τ κ} {l : τ × Choice κ} {e : τ × Event κ}
    (h : (next s l.1 l.2).map (fun r => ((l.1, r.1), r.2)) = some (e, s')) :
    (system τ κ).step s e s' := by
  obtain ⟨⟨e', s''⟩, hn, he⟩ := Option.map_eq_some_iff.mp h
  cases he
  exact ⟨l.2, hn⟩

theorem run_labels {s : State τ κ} (ls : List (τ × Choice κ)) {tr : List (τ × Event κ)}
    (h : (run s ls).map Prod.fst = some tr) : ∃ s', Run (system τ κ) s tr s' :=
  run_of_play (fun _ _ _ _ => step_of_next) h

/-- The run along a list of choices. -/
theorem run_play {s : State τ κ} (ls : List (τ × Choice κ)) (h : (run s ls).isSome) :
    Run (system τ κ) s ((run s ls).get h).1 ((run s ls).get h).2 :=
  play_run (fun _ _ _ _ => step_of_next) (Option.some_get h).symm

/-- The state that a list of choices leads to. -/
theorem run_reaches {s : State τ κ} (ls : List (τ × Choice κ)) (h : (run s ls).isSome) :
    Reaches (system τ κ) s ((run s ls).get h).2 :=
  ⟨_, run_play ls h⟩

/-- A step either runs the innermost frame of a thread or starts an operation. -/
theorem step_cases {s s' : State τ κ} {t : τ} {e : Event κ} (h : (system τ κ).step s (t, e) s') :
    (∃ f fs, s.threads t = f :: fs ∧ e = (exec s.mem f).1 ∧
      s' = ⟨(exec s.mem f).2.1, Stacks.set s.threads t ((exec s.mem f).2.2 ++ fs),
        phaseAfter s.phase e⟩) ∨
    (∃ f, userCode (s.threads t) = true ∧ (e, s') = s.start t e f ∧
      ((∃ c, e = .insertStart c ∧ f = .insertLoad c ∧ s.phase c = .fresh) ∨
        (∃ c, e = .removeStart c ∧ f = .removeCheck c ∧ s.phase c = .inserted) ∨
        (e = .stopStart ∧ f = .stopExchange))) := by
  obtain ⟨ch, hn⟩ := h
  cases ch with
  | run =>
    simp only [next] at hn
    split at hn
    · cases hn
    · next f fs hf =>
      simp only [Option.some.injEq, Prod.mk.injEq] at hn
      exact .inl ⟨f, fs, hf, hn.1.symm, by rw [← hn.2, ← hn.1]⟩
  | insert c =>
    simp only [next, Option.ite_none_right_eq_some, Option.some.injEq] at hn
    obtain ⟨⟨hu, hp⟩, hn⟩ := hn
    obtain rfl : Event.insertStart c = e := congrArg Prod.fst hn
    exact .inr ⟨_, hu, hn.symm, .inl ⟨c, rfl, rfl, hp⟩⟩
  | remove c =>
    simp only [next, Option.ite_none_right_eq_some, Option.some.injEq] at hn
    obtain ⟨⟨hu, hp⟩, hn⟩ := hn
    obtain rfl : Event.removeStart c = e := congrArg Prod.fst hn
    exact .inr ⟨_, hu, hn.symm, .inr (.inl ⟨c, rfl, rfl, hp⟩)⟩
  | stop =>
    simp only [next, Option.ite_none_right_eq_some, Option.some.injEq] at hn
    obtain ⟨hu, hn⟩ := hn
    obtain rfl : Event.stopStart = e := congrArg Prod.fst hn
    exact .inr ⟨_, hu, hn.symm, .inr (.inr ⟨rfl, rfl⟩)⟩

end Kuhllib.InPlaceStopSource
