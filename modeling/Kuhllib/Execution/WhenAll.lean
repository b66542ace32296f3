import Kuhllib.Execution.Signal
import Kuhllib.Lib.Transition
import Mathlib.Data.Fintype.Card
import Mathlib.Data.List.OfFn

/-!
# `nstd::execution::when_all`

`n` children complete on any threads. The completion function of each child is
a process of its own that takes one step for each access of the shared state, so
a completion inside `start()` or inside a callback that `stop()` runs is one of
the interleavings. `on_stop` is the callback for the stop token of the outer
receiver.

Results, for every interleaving:
1. `inv_step`: what the members of the state say about the children.
2. `completes_after_children`: the outer receiver is completed once, after all children,
   with the right result.
-/

namespace Kuhllib.WhenAll

inductive CompletionKind
  | set_value
  | set_error
  | set_stopped
  deriving DecidableEq, Repr

/-- The points of a completion function, named after what comes next: storing
the values, the exchange of `d_kind`, the call of `stop()`, its return, storing
the error, the decrement of `d_count` and `do_complete()`. -/
inductive Point
  | storing
  | deciding
  | stopping
  | notifying
  | emplacing
  | counting
  | completing
  | done
  deriving DecidableEq, Repr

end Kuhllib.WhenAll

namespace Kuhllib.Signal

open WhenAll

variable {ν ε : Type}

def kind : Signal ν ε → CompletionKind
  | .value _ => .set_value
  | .error _ => .set_error
  | .stopped => .set_stopped

/-- The first step of the completion function. -/
def first : Signal ν ε → Point
  | .value _ => .storing
  | .error _ | .stopped => .deciding

/-- The step after `stop()` has returned. -/
def afterStop : Signal ν ε → Point
  | .error _ => .emplacing
  | .value _ | .stopped => .counting

end Kuhllib.Signal

namespace Kuhllib.WhenAll

open Transition

inductive Child (ν ε : Type)
  | idle
  | running
  | signalled (sig : Signal ν ε) (p : Point)

/-- `on_stop`: `running` is the point before the call of `stop()`. -/
inductive OnStop
  | idle
  | running
  | notifying
  | done
  deriving DecidableEq, Repr

/-- The members of `state`; `requested` is `d_stop_requested` of
`d_stop_source`. No step reads `winner`, who won the exchange of `d_kind`. -/
structure State (n : Nat) (ν ε : Type) where
  d_kind : CompletionKind
  d_count : Nat
  d_error : Option ε
  d_result : Fin n → Option (List ν)
  requested : Bool
  started : Nat
  child : Fin n → Child ν ε
  onStop : OnStop
  winner : Option (Fin n)
  completions : List (Signal ν ε)

inductive Label (n : Nat) (ν ε : Type)
  | start
  | signal (i : Fin n) (sig : Signal ν ε)
  | store (i : Fin n)
  | won (i : Fin n)
  | lost (i : Fin n)
  | stopCall (i : Fin n)
  | stopReturn (i : Fin n)
  | emplace (i : Fin n)
  | count (i : Fin n)
  | complete (i : Fin n)
  | onStop
  | onStopCall
  | onStopReturn

variable {n : Nat} {ν ε : Type}

def State.initial : State n ν ε where
  d_kind := .set_value
  d_count := n
  d_error := none
  d_result _ := none
  requested := false
  started := 0
  child _ := .idle
  onStop := .idle
  winner := none
  completions := []

def State.goto (s : State n ν ε) (i : Fin n) (sig : Signal ν ε) (p : Point) : State n ν ε :=
  { s with child := Function.update s.child i (.signalled sig p) }

@[simp, grind =]
theorem State.goto_child (s : State n ν ε) (i : Fin n) (sig : Signal ν ε) (p : Point) (j : Fin n) :
    (s.goto i sig p).child j = if j = i then .signalled sig p else s.child j := by
  simp [State.goto, Function.update_apply]

/-- What `do_complete()` completes the receiver with, unless it reads an empty
`optional`. -/
def State.do_complete (s : State n ν ε) : Option (Signal ν ε) :=
  match s.d_kind with
  | .set_value =>
    if ∀ i, (s.d_result i).isSome then
      some (.value (List.ofFn fun i => (s.d_result i).getD []).flatten)
    else none
  | .set_error => s.d_error.map .error
  | .set_stopped => some .stopped

def next (s : State n ν ε) : Label n ν ε → Option (State n ν ε)
  -- start()
  | .start =>
    if h : s.started < n then
      some { s with
        started := s.started + 1
        child := Function.update s.child ⟨s.started, h⟩ .running }
    else none
  -- the child calls its receiver
  | .signal i sig =>
    match s.child i with
    | .running => some (s.goto i sig sig.first)
    | _ => none
  -- set_value
  | .store i =>
    match s.child i with
    | .signalled (.value v) .storing =>
      some ({ s with d_result := Function.update s.d_result i (some v) }.goto i (.value v) .counting)
    | _ => none
  -- set_error and set_stopped
  | .won i =>
    match s.child i with
    | .signalled sig .deciding =>
      if s.d_kind = .set_value then
        some ({ s with d_kind := sig.kind, winner := some i }.goto i sig .stopping)
      else none
    | _ => none
  | .lost i =>
    match s.child i with
    | .signalled sig .deciding =>
      if s.d_kind = .set_value then none else some (s.goto i sig .counting)
    | _ => none
  | .stopCall i =>
    match s.child i with
    | .signalled sig .stopping =>
      if s.requested then some (s.goto i sig sig.afterStop)
      else some ({ s with requested := true }.goto i sig .notifying)
    | _ => none
  | .stopReturn i =>
    match s.child i with
    | .signalled sig .notifying => some (s.goto i sig sig.afterStop)
    | _ => none
  | .emplace i =>
    match s.child i with
    | .signalled (.error e) .emplacing =>
      some ({ s with d_error := some e }.goto i (.error e) .counting)
    | _ => none
  -- complete()
  | .count i =>
    match s.child i with
    | .signalled sig .counting =>
      some ({ s with d_count := s.d_count - 1 }.goto i sig
        (if s.d_count - 1 = 0 then .completing else .done))
    | _ => none
  | .complete i =>
    match s.child i with
    | .signalled sig .completing =>
      s.do_complete.map fun c => { s with completions := s.completions ++ [c] }.goto i sig .done
    | _ => none
  -- on_stop; the callback is destroyed with the state
  | .onStop =>
    if s.onStop = .idle ∧ s.completions = [] then some { s with onStop := .running } else none
  | .onStopCall =>
    if s.onStop = .running then
      if s.requested then some { s with onStop := .done }
      else some { s with requested := true, onStop := .notifying }
    else none
  | .onStopReturn => if s.onStop = .notifying then some { s with onStop := .done } else none

def system (n : Nat) (ν ε : Type) : System (State n ν ε) (Label n ν ε) where
  init s := s = State.initial
  step s l s' := next s l = some s'

/-! ## 1. The invariant -/

def Child.counted : Child ν ε → Bool
  | .signalled _ .completing | .signalled _ .done => true
  | _ => false

/-- The number of children that have not decremented `d_count`. -/
def uncounted (child : Fin n → Child ν ε) : Nat :=
  (Finset.univ.filter fun i => (child i).counted = false).card

def Child.kind : Child ν ε → CompletionKind
  | .signalled sig _ => sig.kind
  | _ => .set_value

/-- What is known while child `i` is at the given point. -/
def Ok (s : State n ν ε) (i : Fin n) : Child ν ε → Prop
  | .idle | .running => s.winner ≠ some i
  | .signalled (.value _) .storing => s.winner ≠ some i
  | .signalled (.value v) .counting | .signalled (.value v) .completing
  | .signalled (.value v) .done => s.winner ≠ some i ∧ s.d_result i = some v
  | .signalled (.value _) _ => False
  | .signalled _ .storing => False
  | .signalled _ .deciding => s.winner ≠ some i
  | .signalled _ .stopping => s.winner = some i
  | .signalled _ .notifying => s.winner = some i ∧ s.requested = true
  | .signalled (.error _) .emplacing => s.winner = some i ∧ s.requested = true
  | .signalled .stopped .emplacing => False
  | .signalled (.error e) _ =>
    s.winner ≠ none ∧ (s.winner = some i → s.requested = true ∧ s.d_error = some e)
  | .signalled .stopped _ => s.winner ≠ none ∧ (s.winner = some i → s.requested = true)

/-- What a step may change that child `i` does not take. -/
structure Rely (s s' : State n ν ε) (i : Fin n) : Prop where
  winner : s'.winner = s.winner ∨ s.winner = none ∧ s'.winner ≠ none ∧ s'.winner ≠ some i
  requested : s.requested = true → s'.requested = true
  error : s.winner = some i → s'.d_error = s.d_error
  result : s'.d_result i = s.d_result i

theorem Rely.refl {s s' : State n ν ε} {i : Fin n} (hw : s'.winner = s.winner)
    (hr : s.requested = true → s'.requested = true) (he : s'.d_error = s.d_error)
    (hres : s'.d_result i = s.d_result i) : Rely s s' i :=
  ⟨.inl hw, hr, fun _ => he, hres⟩

section

variable {s s' : State n ν ε} {i : Fin n}

/-- Another child does not win in the name of child `i`. -/
theorem Rely.lost (hr : Rely s s' i) (h : s.winner ≠ some i) : s'.winner ≠ some i := by
  rcases hr.winner with hw | ⟨-, -, hne⟩
  · rwa [hw]
  · exact hne

theorem Rely.won (hr : Rely s s' i) (h : s.winner = some i) : s'.winner = some i := by
  rcases hr.winner with hw | ⟨hnone, -⟩
  · rwa [hw]
  · rw [hnone] at h
    cases h

theorem Rely.decided (hr : Rely s s' i) (h : s.winner ≠ none) : s'.winner ≠ none := by
  rcases hr.winner with hw | ⟨hnone, -⟩
  · rwa [hw]
  · exact absurd hnone h

/-- What is known of a child that has won, if it has. -/
theorem Rely.of_won {P P' : Prop} (hr : Rely s s' i) (h : s.winner ≠ none ∧ (s.winner = some i → P))
    (hP : s.winner = some i → P → P') : s'.winner ≠ none ∧ (s'.winner = some i → P') := by
  refine ⟨hr.decided h.1, fun hw => ?_⟩
  have hwon : s.winner = some i := by
    by_contra hlost
    exact hr.lost hlost hw
  exact hP hwon (h.2 hwon)

/-- What is known of child `i` stays true while others take steps. -/
theorem Ok.rely {x : Child ν ε} (h : Ok s i x) (hr : Rely s s' i) : Ok s' i x := by
  have herror : ∀ e, s.winner = some i → s.requested = true ∧ s.d_error = some e →
      s'.requested = true ∧ s'.d_error = some e :=
    fun e hw he => ⟨hr.requested he.1, (hr.error hw).trans he.2⟩
  cases x with
  | idle | running => exact hr.lost h
  | signalled sig p =>
    cases sig with
    | value v =>
      cases p with
      | storing => exact hr.lost h
      | counting | completing | done => exact ⟨hr.lost h.1, hr.result.trans h.2⟩
      | deciding | stopping | notifying | emplacing => exact h
    | error e =>
      cases p with
      | storing => exact h
      | deciding => exact hr.lost h
      | stopping => exact hr.won h
      | notifying | emplacing => exact ⟨hr.won h.1, hr.requested h.2⟩
      | counting | completing | done => exact hr.of_won h (herror e)
    | stopped =>
      cases p with
      | storing | emplacing => exact h
      | deciding => exact hr.lost h
      | stopping => exact hr.won h
      | notifying => exact ⟨hr.won h.1, hr.requested h.2⟩
      | counting | completing | done => exact hr.of_won h fun _ => hr.requested

end

/-- What the receiver has to be completed with. -/
def State.Expected (s : State n ν ε) : Signal ν ε → Prop
  | .value vs => ∃ v : Fin n → List ν,
      (∀ i, ∃ p, s.child i = .signalled (.value (v i)) p) ∧ vs = (List.ofFn v).flatten
  | .error e => ∃ i p, s.winner = some i ∧ s.child i = .signalled (.error e) p
  | .stopped => ∃ i p, s.winner = some i ∧ s.child i = .signalled .stopped p

def State.done (s : State n ν ε) (i : Fin n) : Prop := ∃ sig, s.child i = .signalled sig .done

structure Inv (s : State n ν ε) : Prop where
  ok : ∀ i, Ok s i (s.child i)
  kind : s.d_kind = match s.winner with
    | none => .set_value
    | some i => (s.child i).kind
  started : ∀ i : Fin n, s.child i = .idle ↔ s.started ≤ i
  onStop : s.onStop = .notifying ∨ s.onStop = .done → s.requested = true
  count : s.d_count = uncounted s.child
  counting : 0 < s.d_count → s.completions = [] ∧ ∀ i sig, s.child i ≠ .signalled sig .completing
  completing : 0 < n → s.d_count = 0 → s.completions = [] →
    ∃ i sig, s.child i = .signalled sig .completing ∧ ∀ j, j ≠ i → s.done j
  completed : s.completions ≠ [] → ∀ i, s.done i
  once : s.completions.length ≤ 1
  expected : ∀ c ∈ s.completions, s.Expected c

namespace WhenAllLemmas

theorem uncounted_same {child : Fin n → Child ν ε} {i : Fin n} {x : Child ν ε}
    (h : x.counted = (child i).counted) :
    uncounted (Function.update child i x) = uncounted child := by
  unfold uncounted
  congr 1
  ext j
  rcases eq_or_ne j i with rfl | hne
  · simp [h]
  · simp [hne]

theorem uncounted_pos {child : Fin n → Child ν ε} {i : Fin n} (h : (child i).counted = false) :
    0 < uncounted child :=
  Finset.card_pos.mpr ⟨i, by simp [h]⟩

theorem uncounted_update {child : Fin n → Child ν ε} {i : Fin n} {x : Child ν ε}
    (h : (child i).counted = false) (hx : x.counted = true) :
    uncounted (Function.update child i x) = uncounted child - 1 := by
  unfold uncounted
  rw [← Finset.card_erase_of_mem (a := i) (by simp [h])]
  congr 1
  ext j
  rcases eq_or_ne j i with rfl | hne
  · simp [hx]
  · simp [hne]

/-- A child that has not decremented `d_count` takes a step before that. -/
theorem inv_move {s s' : State n ν ε} {i : Fin n} {x : Child ν ε} (h : Inv s)
    (hi : (s.child i).counted = false) (hx : x.counted = false)
    (hchild : s'.child = Function.update s.child i x) (hok : Ok s' i x)
    (hrely : ∀ j, j ≠ i → Rely s s' j)
    (hkind : s'.d_kind = match s'.winner with
      | none => .set_value
      | some i => (s'.child i).kind)
    (hstarted : ∀ j : Fin n, s'.child j = .idle ↔ s'.started ≤ j)
    (honStop : s'.onStop = .notifying ∨ s'.onStop = .done → s'.requested = true)
    (hcount : s'.d_count = s.d_count) (hcompletions : s'.completions = s.completions) : Inv s' := by
  have hpos : 0 < s.d_count := by
    rw [h.count]
    exact uncounted_pos hi
  obtain ⟨hnil, hcompleting⟩ := h.counting hpos
  rw [hnil] at hcompletions
  refine ⟨fun j => ?_, hkind, hstarted, honStop, ?_, fun _ => ⟨hcompletions, fun j sig hj => ?_⟩,
    fun _ hz => by omega, fun hne => absurd hcompletions hne, by rw [hcompletions]; exact Nat.zero_le 1,
    fun c hc => by rw [hcompletions] at hc; cases hc⟩
  · rw [hchild]
    rcases eq_or_ne j i with rfl | hne
    · simpa using hok
    · simpa [hne] using (h.ok j).rely (hrely j hne)
  · rw [hcount, hchild, uncounted_same (hx.trans hi.symm), h.count]
  · rw [hchild] at hj
    rcases eq_or_ne j i with rfl | hne
    · simp only [Function.update_self] at hj
      rw [hj] at hx
      cases hx
    · exact hcompleting j sig (by simpa [hne] using hj)

/-- Which signal a child has sent does not change. -/
theorem kind_goto {s s' : State n ν ε} {i : Fin n} {sig : Signal ν ε} {p p' : Point} (h : Inv s)
    (hc : s.child i = .signalled sig p)
    (hchild : s'.child = Function.update s.child i (.signalled sig p'))
    (hk : s'.d_kind = s.d_kind) (hw : s'.winner = s.winner) :
    s'.d_kind = match s'.winner with
      | none => .set_value
      | some i => (s'.child i).kind := by
  rw [hk, hw, h.kind]
  cases s.winner with
  | none => rfl
  | some j =>
    rcases eq_or_ne j i with rfl | hne
    · simp [hchild, hc, Child.kind]
    · simp [hchild, hne]

theorem started_goto {s s' : State n ν ε} {i : Fin n} {x : Child ν ε} (h : Inv s)
    (hi : s.child i ≠ .idle) (hx : x ≠ .idle) (hchild : s'.child = Function.update s.child i x)
    (hs : s'.started = s.started) (j : Fin n) : s'.child j = .idle ↔ s'.started ≤ j := by
  rw [hs, ← h.started j, hchild]
  rcases eq_or_ne j i with rfl | hne
  · simp [hi, hx]
  · simp [hne]

/-- The exchange of `d_kind` has not been won yet. -/
theorem winner_of_kind {s : State n ν ε} (h : Inv s) (hk : s.d_kind = .set_value) :
    s.winner = none := by
  cases hw : s.winner with
  | none => rfl
  | some i =>
    have hkind := h.kind
    have hok := h.ok i
    rw [hk, hw] at hkind
    simp only at hkind
    cases hc : s.child i with
    | idle | running =>
      rw [hc] at hok
      exact absurd hw hok
    | signalled sig p =>
      rw [hc] at hok hkind
      cases sig with
      | value v => cases p <;> simp_all [Ok]
      | error e => cases hkind
      | stopped => cases hkind

theorem winner_of_kind_ne {s : State n ν ε} (h : Inv s) (hk : s.d_kind ≠ .set_value) :
    s.winner ≠ none := by
  intro hw
  have hkind := h.kind
  rw [hw] at hkind
  exact hk hkind

section Steps

variable {s s' : State n ν ε} {i : Fin n}

theorem inv_start (h : Inv s) (hs : next s .start = some s') : Inv s' := by
  simp only [next, Option.dite_none_right_eq_some, Option.some.injEq] at hs
  obtain ⟨hn, rfl⟩ := hs
  have hidle : s.child ⟨s.started, hn⟩ = .idle := (h.started _).mpr le_rfl
  have hok := h.ok ⟨s.started, hn⟩
  rw [hidle] at hok
  refine inv_move h (by rw [hidle]; rfl) rfl rfl hok
    (fun j _ => .refl rfl id rfl rfl) ?_ (fun j => ?_) h.onStop rfl rfl
  · have hkind := h.kind
    simp only at hkind ⊢
    cases hw : s.winner with
    | none =>
      rw [hw] at hkind
      exact hkind
    | some j =>
      have hne : j ≠ ⟨s.started, hn⟩ := by
        rintro rfl
        exact hok hw
      rw [hw] at hkind
      simpa [hne] using hkind
  · rcases eq_or_ne j ⟨s.started, hn⟩ with rfl | hne
    · simp
    · have : (j : Nat) ≠ s.started := fun he => hne (Fin.ext he)
      simp only [ne_eq, hne, not_false_eq_true, Function.update_of_ne, h.started j]
      omega

theorem inv_signal {sig : Signal ν ε} (h : Inv s) (hs : next s (.signal i sig) = some s') :
    Inv s' := by
  simp only [next] at hs
  split at hs
  · next hc =>
    cases hs
    have hok := h.ok i
    rw [hc] at hok
    refine inv_move h (by rw [hc]; rfl) ?_ rfl ?_ (fun j _ => .refl rfl id rfl rfl) ?_
      (started_goto h (by rw [hc]; simp) (by simp) rfl rfl) h.onStop rfl rfl
    · cases sig <;> rfl
    · cases sig <;> exact hok
    · have hkind := h.kind
      simp only [State.goto] at hkind ⊢
      cases hw : s.winner with
      | none =>
        rw [hw] at hkind
        exact hkind
      | some j =>
        have hne : j ≠ i := by
          rintro rfl
          exact hok hw
        rw [hw] at hkind
        simpa [hne] using hkind
  · cases hs

theorem inv_store (h : Inv s) (hs : next s (.store i) = some s') : Inv s' := by
  simp only [next] at hs
  split at hs
  · next v hc =>
    cases hs
    have hok := h.ok i
    rw [hc] at hok
    refine inv_move h (by rw [hc]; rfl) rfl rfl ⟨hok, by simp [State.goto]⟩
      (fun j hne => .refl rfl id rfl (by simp [State.goto, hne])) (kind_goto h hc rfl rfl rfl)
      (started_goto h (by rw [hc]; simp) (by simp) rfl rfl) h.onStop rfl rfl
  · cases hs

theorem inv_won (h : Inv s) (hs : next s (.won i) = some s') : Inv s' := by
  simp only [next] at hs
  split at hs
  · next sig hc =>
    simp only [Option.ite_none_right_eq_some, Option.some.injEq] at hs
    obtain ⟨hk, rfl⟩ := hs
    have hw := winner_of_kind h hk
    have hok := h.ok i
    rw [hc] at hok
    refine inv_move h (by rw [hc]; rfl) rfl rfl ?_ (fun j hne => ?_) ?_
      (started_goto h (by rw [hc]; simp) (by simp) rfl rfl) h.onStop rfl rfl
    · cases sig with
      | value v => exact hok
      | error e | stopped => rfl
    · refine ⟨.inr ⟨hw, by simp [State.goto], by simp [State.goto, hne.symm]⟩, id, ?_, rfl⟩
      rw [hw]
      intro hj
      cases hj
    · simp [State.goto, Child.kind]
  · cases hs

theorem inv_lost (h : Inv s) (hs : next s (.lost i) = some s') : Inv s' := by
  simp only [next] at hs
  split at hs
  · next sig hc =>
    simp only [Option.ite_none_left_eq_some, Option.some.injEq] at hs
    obtain ⟨hk, rfl⟩ := hs
    have hw := winner_of_kind_ne h hk
    have hok := h.ok i
    rw [hc] at hok
    refine inv_move h (by rw [hc]; rfl) rfl rfl ?_ (fun j _ => .refl rfl id rfl rfl)
      (kind_goto h hc rfl rfl rfl) (started_goto h (by rw [hc]; simp) (by simp) rfl rfl) h.onStop
      rfl rfl
    cases sig with
    | value v => exact hok.elim
    | error e | stopped => exact ⟨hw, fun hi => absurd hi hok⟩
  · cases hs

/-- The return of `stop()`. -/
theorem ok_afterStop {sig : Signal ν ε} (hsig : sig.kind ≠ .set_value) (hw : s.winner = some i)
    (hr : s.requested = true) : Ok s i (.signalled sig sig.afterStop) := by
  cases sig with
  | value v => exact absurd rfl hsig
  | error e => exact ⟨hw, hr⟩
  | stopped => exact ⟨by rw [hw]; simp, fun _ => hr⟩

theorem counted_afterStop (sig : Signal ν ε) :
    (Child.signalled sig sig.afterStop).counted = false := by
  cases sig <;> rfl

theorem inv_stopCall (h : Inv s) (hs : next s (.stopCall i) = some s') : Inv s' := by
  simp only [next] at hs
  split at hs
  · next sig hc =>
    have hok := h.ok i
    rw [hc] at hok
    have hsig : sig.kind ≠ .set_value := by
      cases sig with
      | value v => exact hok.elim
      | error e | stopped => exact fun he => by cases he
    have hw : s.winner = some i := by cases sig <;> first | exact hok.elim | exact hok
    split at hs
    · next hr =>
      cases hs
      exact inv_move h (by rw [hc]; rfl) (counted_afterStop sig) rfl
        (ok_afterStop (s := s.goto i sig _) hsig hw hr) (fun j _ => .refl rfl id rfl rfl)
        (kind_goto h hc rfl rfl rfl) (started_goto h (by rw [hc]; simp) (by simp) rfl rfl) h.onStop
        rfl rfl
    · cases hs
      refine inv_move h (by rw [hc]; rfl) rfl rfl ?_ (fun j _ => .refl rfl (fun _ => rfl) rfl rfl)
        (kind_goto h hc rfl rfl rfl) (started_goto h (by rw [hc]; simp) (by simp) rfl rfl)
        (fun _ => rfl) rfl rfl
      cases sig with
      | value v => exact hok.elim
      | error e | stopped => exact ⟨hw, rfl⟩
  · cases hs

theorem inv_stopReturn (h : Inv s) (hs : next s (.stopReturn i) = some s') : Inv s' := by
  simp only [next] at hs
  split at hs
  · next sig hc =>
    cases hs
    have hok := h.ok i
    rw [hc] at hok
    refine inv_move h (by rw [hc]; rfl) (counted_afterStop sig) rfl ?_
      (fun j _ => .refl rfl id rfl rfl) (kind_goto h hc rfl rfl rfl)
      (started_goto h (by rw [hc]; simp) (by simp) rfl rfl) h.onStop rfl rfl
    cases sig with
    | value v => exact hok.elim
    | error e => exact hok
    | stopped => exact ⟨by rw [State.goto, hok.1]; simp, fun _ => hok.2⟩
  · cases hs

theorem inv_emplace (h : Inv s) (hs : next s (.emplace i) = some s') : Inv s' := by
  simp only [next] at hs
  split at hs
  · next e hc =>
    cases hs
    have hok := h.ok i
    rw [hc] at hok
    refine inv_move h (by rw [hc]; rfl) rfl rfl ?_ (fun j hne => ?_) (kind_goto h hc rfl rfl rfl)
      (started_goto h (by rw [hc]; simp) (by simp) rfl rfl) h.onStop rfl rfl
    · exact ⟨by rw [State.goto, hok.1]; simp, fun _ => ⟨hok.2, rfl⟩⟩
    · refine ⟨.inl rfl, id, fun hj => ?_, rfl⟩
      rw [hok.1] at hj
      exact absurd (Option.some.inj hj).symm hne
  · cases hs

/-- `on_stop` only calls `stop()`. -/
theorem inv_onStop (h : Inv s) {c : OnStop} {b : Bool} (hb : s.requested = true → b = true)
    (hc : c = .notifying ∨ c = .done → b = true) :
    Inv { s with requested := b, onStop := c } where
  ok j := (h.ok j).rely (.refl rfl hb rfl rfl)
  kind := h.kind
  started := h.started
  onStop := hc
  count := h.count
  counting := h.counting
  completing := h.completing
  completed := h.completed
  once := h.once
  expected := h.expected

theorem counted_of_zero {child : Fin n → Child ν ε} (h : uncounted child = 0) (j : Fin n) :
    (child j).counted = true := by
  by_contra hj
  have : 0 < uncounted child := uncounted_pos (i := j) (by simpa using hj)
  omega

theorem counted_cases {x : Child ν ε} (h : x.counted = true) :
    (∃ sig, x = .signalled sig .completing) ∨ ∃ sig, x = .signalled sig .done := by
  cases x with
  | idle | running => cases h
  | signalled sig p =>
    cases p with
    | completing => exact .inl ⟨sig, rfl⟩
    | done => exact .inr ⟨sig, rfl⟩
    | _ => cases h

theorem inv_count (h : Inv s) (hs : next s (.count i) = some s') : Inv s' := by
  simp only [next] at hs
  split at hs
  · next sig hc =>
    cases hs
    have hi : (s.child i).counted = false := by rw [hc]; rfl
    have hpos : 0 < s.d_count := by
      rw [h.count]
      exact uncounted_pos hi
    obtain ⟨hnil, hcompleting⟩ := h.counting hpos
    have hok := h.ok i
    rw [hc] at hok
    have hx : (Child.signalled sig (if s.d_count - 1 = 0 then .completing else .done)).counted =
        true := by split <;> rfl
    have hcount : s.d_count - 1 = uncounted (Function.update s.child i
        (.signalled sig (if s.d_count - 1 = 0 then .completing else .done))) := by
      rw [uncounted_update hi hx, h.count]
    refine ⟨fun j => ?_, kind_goto h hc rfl rfl rfl,
      started_goto h (by rw [hc]; simp) (by simp) rfl rfl, h.onStop, hcount, fun hpos' => ?_,
      fun _ hz _ => ?_, fun hne => absurd hnil hne, h.once, fun c hc => ?_⟩
    · rcases eq_or_ne j i with rfl | hne
      · simp only [State.goto_child, if_true]
        split <;> cases sig <;> exact hok
      · simp only [State.goto_child, if_neg hne]
        exact (h.ok j).rely (.refl rfl id rfl rfl)
    · have hp : s.d_count - 1 ≠ 0 := (show 0 < s.d_count - 1 from hpos').ne'
      refine ⟨hnil, fun j sig' => ?_⟩
      rcases eq_or_ne j i with rfl | hne
      · simp [State.goto_child, hp]
      · simpa [State.goto_child, hne] using hcompleting j sig'
    · have hz : s.d_count - 1 = 0 := hz
      refine ⟨i, sig, by simp [State.goto_child, hz], fun j hne => ?_⟩
      rw [hz] at hcount
      have hj := counted_of_zero hcount.symm j
      rw [Function.update_of_ne hne] at hj
      rcases counted_cases hj with ⟨sig', hj⟩ | ⟨sig', hj⟩
      · exact absurd hj (hcompleting j sig')
      · exact ⟨sig', by simp [State.goto_child, hne, hj]⟩
    · rw [State.goto, hnil] at hc
      cases hc
  · cases hs

/-- When all children have decremented `d_count`, the members that
`do_complete()` reads have been written. -/
theorem do_complete_expected (h : Inv s) (hall : ∀ j, (s.child j).counted = true) :
    ∃ c, s.do_complete = some c ∧ s.Expected c := by
  have hsig : ∀ j, ∃ sig p, s.child j = .signalled sig p ∧ (p = .completing ∨ p = .done) := by
    intro j
    rcases counted_cases (hall j) with ⟨sig, hj⟩ | ⟨sig, hj⟩
    · exact ⟨sig, _, hj, .inl rfl⟩
    · exact ⟨sig, _, hj, .inr rfl⟩
  cases hk : s.d_kind with
  | set_value =>
    have hw := winner_of_kind h hk
    -- without a winner nobody has failed
    have hvalue : ∀ j, ∃ v, (∃ p, s.child j = .signalled (.value v) p) ∧ s.d_result j = some v := by
      intro j
      obtain ⟨sig, p, hj, hp⟩ := hsig j
      have hok := h.ok j
      rw [hj] at hok
      cases sig with
      | value v => rcases hp with rfl | rfl <;> exact ⟨v, ⟨_, hj⟩, hok.2⟩
      | error e | stopped => rcases hp with rfl | rfl <;> exact absurd hw hok.1
    choose v hv hres using hvalue
    refine ⟨.value (List.ofFn v).flatten, ?_, v, hv, rfl⟩
    simp [State.do_complete, hk, hres]
  | set_error | set_stopped =>
    have hw := winner_of_kind_ne h (by rw [hk]; simp)
    obtain ⟨w, hw⟩ := Option.ne_none_iff_exists'.mp hw
    obtain ⟨sig, p, hc, hp⟩ := hsig w
    have hok := h.ok w
    have hkind := h.kind
    rw [hc] at hok
    rw [hk, hw] at hkind
    simp only [hc, Child.kind] at hkind
    cases sig with
    | value v => cases hkind
    | error e =>
      first
      | cases hkind; done
      | refine ⟨.error e, ?_, w, p, hw, hc⟩
        have herror : s.d_error = some e := by
          rcases hp with rfl | rfl <;> exact (hok.2 hw).2
        simp [State.do_complete, hk, herror]
    | stopped =>
      first
      | cases hkind; done
      | exact ⟨.stopped, by simp [State.do_complete, hk], w, p, hw, hc⟩

theorem expected_goto {sig c : Signal ν ε} {p p' : Point} {s₁ : State n ν ε} (h : s.Expected c)
    (hc : s.child i = .signalled sig p) (hw : s₁.winner = s.winner)
    (hchild : s₁.child = Function.update s.child i (.signalled sig p')) : s₁.Expected c := by
  have keep : ∀ j sig', (∃ q, s.child j = .signalled sig' q) → ∃ q, s₁.child j = .signalled sig' q := by
    rintro j sig' ⟨q, hj⟩
    rw [hchild]
    rcases eq_or_ne j i with rfl | hne
    · rw [hc] at hj
      cases hj
      exact ⟨p', by simp⟩
    · exact ⟨q, by simpa [hne] using hj⟩
  cases c with
  | value vs =>
    obtain ⟨v, hv, hvs⟩ := h
    exact ⟨v, fun j => keep j _ (hv j), hvs⟩
  | error e =>
    obtain ⟨w, q, hwin, hq⟩ := h
    obtain ⟨q', hq'⟩ := keep w _ ⟨q, hq⟩
    exact ⟨w, q', by rw [hw, hwin], hq'⟩
  | stopped =>
    obtain ⟨w, q, hwin, hq⟩ := h
    obtain ⟨q', hq'⟩ := keep w _ ⟨q, hq⟩
    exact ⟨w, q', by rw [hw, hwin], hq'⟩

/-- While a child is completing the receiver all others are done. -/
theorem completing_others {sig : Signal ν ε} (h : Inv s)
    (hc : s.child i = .signalled sig .completing) :
    s.d_count = 0 ∧ s.completions = [] ∧ ∀ j, j ≠ i → s.done j := by
  have hzero : s.d_count = 0 := by
    by_contra hne
    exact (h.counting (Nat.pos_of_ne_zero hne)).2 i sig hc
  have hnil : s.completions = [] := by
    by_contra hne
    obtain ⟨sig', hd⟩ := h.completed hne i
    rw [hc] at hd
    cases hd
  refine ⟨hzero, hnil, fun j hne => ?_⟩
  obtain ⟨i', sig', hc', hothers⟩ := h.completing i.pos hzero hnil
  have hi : i = i' := by
    by_contra hne
    obtain ⟨sig'', hd⟩ := hothers i hne
    rw [hc] at hd
    cases hd
  exact hothers j (hi ▸ hne)

theorem counted_of_completing {sig : Signal ν ε} (h : Inv s)
    (hc : s.child i = .signalled sig .completing) (j : Fin n) : (s.child j).counted = true := by
  rcases eq_or_ne j i with rfl | hne
  · rw [hc]
    rfl
  · obtain ⟨sig', hd⟩ := (completing_others h hc).2.2 j hne
    rw [hd]
    rfl

theorem inv_complete (h : Inv s) (hs : next s (.complete i) = some s') : Inv s' := by
  simp only [next] at hs
  split at hs
  · next sig hc =>
    obtain ⟨hzero, hnil, hothers⟩ := completing_others h hc
    obtain ⟨c, hdo, hexp⟩ := do_complete_expected h (counted_of_completing h hc)
    rw [hdo, Option.map_some, Option.some.injEq] at hs
    subst hs
    have hok := h.ok i
    rw [hc] at hok
    refine ⟨fun j => ?_, kind_goto h hc rfl rfl rfl,
      started_goto h (by rw [hc]; simp) (by simp) rfl rfl, h.onStop, ?_, fun hpos => ?_,
      fun _ _ hne => ?_, fun _ j => ?_, ?_, fun c' hc' => ?_⟩
    · rcases eq_or_ne j i with rfl | hne
      · simp only [State.goto_child, if_true]
        cases sig <;> exact hok
      · simp only [State.goto_child, if_neg hne]
        exact (h.ok j).rely (.refl rfl id rfl rfl)
    · have hcounted : (Child.signalled sig Point.done).counted = (s.child i).counted := by
        rw [hc]
        rfl
      exact h.count.trans (uncounted_same hcounted).symm
    · exact absurd hzero hpos.ne'
    · simp [State.goto] at hne
    · rcases eq_or_ne j i with rfl | hne
      · exact ⟨sig, by simp [State.goto_child]⟩
      · obtain ⟨sig', hd⟩ := hothers j hne
        exact ⟨sig', by simp [State.goto_child, hne, hd]⟩
    · simp [State.goto, hnil]
    · have hc' : c' = c := by simpa [State.goto, hnil] using hc'
      rw [hc']
      exact expected_goto hexp hc rfl rfl
  · cases hs

end Steps

end WhenAllLemmas

open WhenAllLemmas

/-- Every atomic step keeps the invariant. -/
theorem inv_step {s s' : State n ν ε} {l : Label n ν ε} (h : Inv s) (hs : next s l = some s') :
    Inv s' := by
  cases l with
  | start => exact inv_start h hs
  | signal i sig => exact inv_signal h hs
  | store i => exact inv_store h hs
  | won i => exact inv_won h hs
  | lost i => exact inv_lost h hs
  | stopCall i => exact inv_stopCall h hs
  | stopReturn i => exact inv_stopReturn h hs
  | emplace i => exact inv_emplace h hs
  | count i => exact inv_count h hs
  | complete i => exact inv_complete h hs
  | onStop =>
    simp only [next, Option.ite_none_right_eq_some, Option.some.injEq] at hs
    obtain ⟨_, rfl⟩ := hs
    exact inv_onStop h id (by simp)
  | onStopCall =>
    simp only [next, Option.ite_none_right_eq_some] at hs
    obtain ⟨_, hs⟩ := hs
    split at hs
    · next hr =>
      cases hs
      exact inv_onStop h id fun _ => hr
    · cases hs
      exact inv_onStop h (fun _ => rfl) fun _ => rfl
  | onStopReturn =>
    simp only [next, Option.ite_none_right_eq_some, Option.some.injEq] at hs
    obtain ⟨hc, rfl⟩ := hs
    exact inv_onStop h id fun _ => h.onStop (.inl hc)

theorem inv_initial : Inv (State.initial : State n ν ε) where
  ok _ := by simp [State.initial, Ok]
  kind := rfl
  started _ := by simp [State.initial]
  onStop h := by simp [State.initial] at h
  count := by simp [State.initial, uncounted, Child.counted]
  counting _ := ⟨rfl, fun _ _ h => by cases h⟩
  completing hn hz := absurd hz hn.ne'
  completed h := absurd rfl h
  once := Nat.zero_le 1
  expected _ h := by cases h

theorem inv_run {s : State n ν ε} {tr : List (Label n ν ε)}
    (h : Run (system n ν ε) State.initial tr s) : Inv s :=
  h.invariant_state inv_initial fun _ _ _ => inv_step

/-! ## 2. Completion -/

/-- Nothing is left to do, apart from a stop request that nobody makes. -/
def Quiescent (s : State n ν ε) : Prop := ∀ l, l ≠ .onStop → next s l = none

namespace WhenAllLemmas

/-- The winner is who won the exchange of `d_kind`. -/
theorem winner_iff {s : State n ν ε} {tr : List (Label n ν ε)}
    (h : Run (system n ν ε) State.initial tr s) (i : Fin n) :
    s.winner = some i ↔ .won i ∈ tr := by
  have key : Inv s ∧ (s.winner = some i ↔ .won i ∈ tr) := by
    refine h.invariant (I := fun tr s => Inv s ∧ (s.winner = some i ↔ .won i ∈ tr)) ?_ ?_
    · exact ⟨inv_initial, by simp [State.initial]⟩
    · rintro tr s l s' ⟨hi, ih⟩ hs
      refine ⟨inv_step hi hs, ?_⟩
      rw [List.mem_append, List.mem_singleton, ← ih]
      have hs : next s l = some s' := hs
      cases l with
      | won j =>
        simp only [next] at hs
        split at hs
        · simp only [Option.ite_none_right_eq_some, Option.some.injEq] at hs
          obtain ⟨hk, rfl⟩ := hs
          simp [State.goto, winner_of_kind hi hk, eq_comm]
        · cases hs
      | complete j =>
        simp only [next] at hs
        split at hs
        · obtain ⟨c, _, rfl⟩ := Option.map_eq_some_iff.mp hs
          simp [State.goto]
        · cases hs
      | start =>
        simp only [next, Option.dite_none_right_eq_some, Option.some.injEq] at hs
        obtain ⟨_, rfl⟩ := hs
        simp
      | signal j | store j | lost j | stopCall j | stopReturn j | emplace j | count j =>
        simp only [next] at hs
        repeat' split at hs
        all_goals first | cases hs; done | (cases hs; simp [State.goto])
      | onStop | onStopCall | onStopReturn =>
        simp only [next] at hs
        repeat' split at hs
        all_goals first | cases hs; done | (cases hs; simp)
  exact key.2

/-- When nothing is left to do all children are done. -/
theorem quiescent_done {s : State n ν ε} (hq : Quiescent s) (h : Inv s) (i : Fin n) : s.done i := by
  have enabled : ∀ l s', next s l = some s' → l ≠ .onStop → False := fun l s' hs hl => by
    rw [hq l hl] at hs
    cases hs
  have hall : n ≤ s.started := by
    by_contra hlt
    exact enabled .start _ (dif_pos (Nat.lt_of_not_le hlt)) (by simp)
  have hok := h.ok i
  cases hc : s.child i with
  | idle =>
    have := (h.started i).mp hc
    omega
  | running =>
    exact (enabled (.signal i .stopped) _ (by simp only [next, hc]; rfl) (by simp)).elim
  | signalled sig p =>
    rw [hc] at hok
    cases p with
    | done => exact ⟨sig, hc⟩
    | storing =>
      cases sig with
      | value v => exact (enabled (.store i) _ (by simp only [next, hc]; rfl) (by simp)).elim
      | error e | stopped => exact hok.elim
    | deciding =>
      by_cases hk : s.d_kind = .set_value
      · exact (enabled (.won i) _ (by simp only [next, hc, if_pos hk]; rfl) (by simp)).elim
      · exact (enabled (.lost i) _ (by simp only [next, hc, if_neg hk]; rfl) (by simp)).elim
    | stopping =>
      cases hr : s.requested with
      | true => exact (enabled (.stopCall i) _ (by simp only [next, hc, hr]; rfl) (by simp)).elim
      | false => exact (enabled (.stopCall i) _ (by simp only [next, hc, hr]; rfl) (by simp)).elim
    | notifying => exact (enabled (.stopReturn i) _ (by simp only [next, hc]; rfl) (by simp)).elim
    | emplacing =>
      cases sig with
      | error e => exact (enabled (.emplace i) _ (by simp only [next, hc]; rfl) (by simp)).elim
      | value v | stopped => exact hok.elim
    | counting => exact (enabled (.count i) _ (by simp only [next, hc]; rfl) (by simp)).elim
    | completing =>
      obtain ⟨c, hdo, _⟩ := do_complete_expected h (counted_of_completing h hc)
      exact (enabled (.complete i) _ (by simp only [next, hc, hdo]; rfl) (by simp)).elim

theorem done_counted {s : State n ν ε} {i : Fin n} (h : s.done i) :
    (s.child i).counted = true := by
  obtain ⟨sig, hd⟩ := h
  rw [hd]
  rfl

theorem uncounted_zero {child : Fin n → Child ν ε} (h : ∀ j, (child j).counted = true) :
    uncounted child = 0 := by
  simp [uncounted, h]

/-- A child that has failed was not the last to know: either the token is
stopped or the winner is about to stop it. -/
theorem stopped_of_failed {s : State n ν ε} (h : Inv s) {i : Fin n} {sig : Signal ν ε}
    (hd : s.child i = .signalled sig .done) (hsig : sig.kind ≠ .set_value) :
    s.requested = true ∨ ∃ w sig', s.winner = some w ∧ s.child w = .signalled sig' .stopping := by
  have hok := h.ok i
  rw [hd] at hok
  have hw : s.winner ≠ none := by
    cases sig with
    | value v => exact absurd rfl hsig
    | error e | stopped => exact hok.1
  obtain ⟨w, hw⟩ := Option.ne_none_iff_exists'.mp hw
  have hokw := h.ok w
  cases hc : s.child w with
  | idle | running =>
    rw [hc] at hokw
    exact absurd hw hokw
  | signalled sig' p =>
    rw [hc] at hokw
    cases p <;> cases sig' <;> simp_all [Ok]

end WhenAllLemmas

open WhenAllLemmas

/-- In every interleaving the receiver is completed at most once: by the child
that decremented `d_count` to 0, when all other children are done. It gets the
values of all children in order if all of them completed with values, and
otherwise the error of the child that won the exchange of `d_kind`, or
`set_stopped` if that child was stopped. A child that has completed without a
value finds the token stopped, unless the winner has yet to call `stop()`. When
nothing is left to do the receiver has been completed. -/
theorem completes_after_children (hn : 0 < n) {s : State n ν ε} {tr : List (Label n ν ε)}
    (h : Run (system n ν ε) State.initial tr s) :
    s.completions.length ≤ 1 ∧
    (∀ i sig, s.child i = .signalled sig .completing →
      s.d_count = 0 ∧ s.completions = [] ∧ ∀ j, j ≠ i → s.done j) ∧
    (s.completions ≠ [] → ∀ i, s.done i) ∧
    (∀ c ∈ s.completions, s.Expected c ∧
      ((∃ vs, c = .value vs) ↔ ∀ i, ∃ v p, s.child i = .signalled (.value v) p)) ∧
    (∀ i, s.winner = some i ↔ .won i ∈ tr) ∧
    (∀ i sig, s.child i = .signalled sig .done → sig.kind ≠ .set_value →
      s.requested = true ∨ ∃ w sig', .won w ∈ tr ∧ s.child w = .signalled sig' .stopping) ∧
    (s.onStop = .done → s.requested = true) ∧
    (Quiescent s → s.completions.length = 1) := by
  have hi := inv_run h
  refine ⟨hi.once, fun i sig hc => completing_others hi hc, hi.completed, fun c hc => ?_,
    winner_iff h, fun i sig hd hsig => ?_, fun hd => hi.onStop (.inr hd), fun hq => ?_⟩
  · have hexp := hi.expected c hc
    refine ⟨hexp, ?_, fun hv => ?_⟩
    · rintro ⟨vs, rfl⟩ i
      obtain ⟨v, hv, _⟩ := hexp
      exact ⟨v i, hv i⟩
    · cases c with
      | value vs => exact ⟨vs, rfl⟩
      | error e | stopped =>
        obtain ⟨w, p, _, hw⟩ := hexp
        obtain ⟨v, q, hw'⟩ := hv w
        rw [hw] at hw'
        cases hw'
  · rcases stopped_of_failed hi hd hsig with hr | ⟨w, sig', hw, hc⟩
    · exact .inl hr
    · exact .inr ⟨w, sig', (winner_iff h w).mp hw, hc⟩
  · have hdone := quiescent_done hq hi
    have hne : s.completions ≠ [] := by
      intro hnil
      have hzero : s.d_count = 0 := by
        rw [hi.count, uncounted_zero fun j => done_counted (hdone j)]
      obtain ⟨i, sig, hc, _⟩ := hi.completing hn hzero hnil
      obtain ⟨sig', hd⟩ := hdone i
      rw [hc] at hd
      cases hd
    have := hi.once
    have := List.length_pos_iff.mpr hne
    omega

/-- One child that is stopped. -/
def exStopped : List (Label 1 Nat Nat) :=
  [.start, .signal 0 .stopped, .won 0, .stopCall 0, .stopReturn 0, .count 0, .complete 0]

theorem completes_after_children_example : ∃ s : State 1 Nat Nat,
    Run (system 1 Nat Nat) State.initial exStopped s ∧ s.winner = some 0 ∧
      s.completions.length ≤ 1 := by
  have hrun := run_replay (S := system 1 Nat Nat) (fun _ _ _ => id)
    (show (replay next State.initial exStopped).isSome from rfl)
  have h := completes_after_children (by decide) hrun
  exact ⟨_, hrun, (h.2.2.2.2.1 0).mpr (by simp [exStopped]), h.1⟩

/-- Two children that are stopped: the second one has completed before the first
one, which has won the exchange, calls `stop()`. -/
def exLate : List (Label 2 Nat Nat) :=
  [.start, .start, .signal 0 .stopped, .won 0, .signal 1 .stopped, .lost 1, .count 1]

theorem not_stopped_yet : ∃ s : State 2 Nat Nat,
    Run (system 2 Nat Nat) State.initial exLate s ∧ s.child 1 = .signalled .stopped .done ∧
      s.requested = false :=
  ⟨_, run_replay (fun _ _ _ => id) (show (replay next State.initial exLate).isSome from rfl), rfl,
    rfl⟩

end Kuhllib.WhenAll
