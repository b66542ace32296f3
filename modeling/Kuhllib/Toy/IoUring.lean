import Kuhllib.Toy.EventKind
import Kuhllib.Lib.Transition
import Mathlib.Data.List.Nodup

/-!
# The io_uring context

Operations are submitted to the kernel together with the address of the object that is to be
told about the result. An operation whose stop token is triggered submits a second entry, for
its member `cancel`; the kernel answers the entries in any order. `outstanding` is meant to
count the entries without an answer and ends the loop of `run`.

* `Inv`: what holds between the objects, the entries that are not answered and `outstanding`.
* `completions`: every operation completes its receiver once, with the kernel's result for it,
  and when nothing of it is left in the kernel.
* `run_ends_iff`: the loop cannot end any more once a result has arrived before that of the
  `cancel` of its operation.
-/

namespace Kuhllib.Toy.IoUring

open Transition

def ECANCELED : ℤ := 125

/-- The object whose address is the `user_data` of an entry. -/
inductive Entry
  | io (i : ℕ)
  | cancel (i : ℕ)
  deriving DecidableEq, Repr

def Entry.op : Entry → ℕ
  | io i => i
  | cancel i => i

/-- `io_state` for `poll_t`, `io_state` for anything else, and `time_state`. -/
inductive Kind
  | poll
  | io
  | time
  deriving DecidableEq, Repr

inductive Signal
  | value (res : ℤ)
  | event (e : EventKind)
  | none
  | stopped
  | error (code : ℤ)
  deriving DecidableEq, Repr

/-- What the receiver is told about a result. -/
def signal (k : Kind) (res : ℤ) : Signal :=
  match k with
  | .time => if -res = ECANCELED then .stopped else .none
  | .poll =>
    if 0 ≤ res then .event (to_event_kind res.toNat)
    else if -res = ECANCELED then .stopped
    else .error (-res)
  | .io =>
    if 0 ≤ res then .value res
    else if -res = ECANCELED then .stopped
    else .error (-res)

/-- The members of `io_state` and `time_state`. -/
structure Op where
  kind : Kind
  /-- `cb` holds a callback that was not called yet -/
  cb : Bool
  /-- `cancel.state` is not null -/
  state : Bool
  /-- `cancel.rc` -/
  rc : Option ℤ
  deriving DecidableEq, Repr

/-- A call of `complete`: the object, what the receiver got and what is returned. -/
structure Completed where
  op : Op
  signal : Option Signal
  returned : ℕ

/-- `io_state::complete` and `time_state::complete` -/
def Op.complete (o : Op) (res : ℤ) : Completed :=
  if o.state then ⟨{ o with cb := false, rc := some res }, none, 0⟩
  else ⟨{ o with cb := false }, some (signal o.kind res), 1⟩

/-- `cancel_state::complete`, where `state` is dereferenced -/
def Op.cancel_complete (o : Op) : Option Completed :=
  if o.state then
    match o.rc with
    | some rc => some { Op.complete { o with state := false } rc with returned := 1 }
    | none => some ⟨{ o with state := false }, none, 1⟩
  else none

structure State where
  /-- the operations in the order in which they were started -/
  ops : List Op
  /-- what the kernel has not answered -/
  pending : List Entry
  outstanding : ℕ
  /-- a call of `complete` that `run` has made, and what it returns -/
  running : Option ℕ
  /-- what the receivers got -/
  delivered : List (ℕ × Signal)

def init : State := ⟨[], [], 0, none, []⟩

/-- `context::submit` -/
def State.submit (s : State) (e : Entry) : State :=
  { s with pending := s.pending ++ [e], outstanding := s.outstanding + 1 }

/-- `start`: the callback is called at once if stop was requested. -/
def State.start (s : State) (k : Kind) (stopped : Bool) : State :=
  let i := s.ops.length
  let s := { s with ops := s.ops ++ [Op.mk k (!stopped) stopped none] }
  let s := if stopped then s.submit (.cancel i) else s
  s.submit (.io i)

/-- `cancel_callback::operator()` -/
def State.stop (s : State) (i : ℕ) : Option State := do
  let o ← s.ops[i]?
  if o.cb then
    some ({ s with ops := s.ops.set i { o with cb := false, state := true } }.submit (.cancel i))
  else none

/-- The virtual function `complete` of the object at `user_data`. -/
def State.call (s : State) (e : Entry) (res : ℤ) : Option Completed := do
  let o ← s.ops[e.op]?
  match e with
  | .io _ => some (o.complete res)
  | .cancel _ => o.cancel_complete

/-- The kernel answers an entry and `run` calls `complete`. -/
def State.complete (s : State) (e : Entry) (res : ℤ) : Option State :=
  if s.outstanding ≠ 0 ∧ s.running = none ∧ e ∈ s.pending then do
    let c ← s.call e res
    some { s with
      ops := s.ops.set e.op c.op
      pending := s.pending.erase e
      running := some c.returned
      delivered := s.delivered ++ (c.signal.map fun x => (e.op, x)).toList }
  else none

/-- `complete` returns. -/
def State.leave (s : State) : Option State := do
  let n ← s.running
  some { s with outstanding := s.outstanding - n, running := none }

inductive Action
  | start (k : Kind) (stopped : Bool)
  | stop (i : ℕ)
  | complete (e : Entry) (res : ℤ)
  | leave
  deriving DecidableEq, Repr

/-- Operations are started and stopped before `run` and by what the receivers do inside of
`complete`. -/
def next (s : State) : Action → Option State
  | .start k stopped => some (s.start k stopped)
  | .stop i => s.stop i
  | .complete e res => s.complete e res
  | .leave => s.leave

def system : System State Action where
  init s := s = IoUring.init
  step s a s' := next s a = some s'

/-! ## One operation -/

/-- An operation, whether its entries are with the kernel, and whether its receiver was
completed. -/
structure OpInv (o : Op) (io cancel done : Prop) : Prop where
  state : o.state = true ↔ cancel
  done : done ↔ ¬io ∧ ¬cancel
  rc : io → o.rc = none
  overtaken : ¬io → cancel → o.rc.isSome = true
  cb : o.cb = true → io ∧ ¬cancel

section OneOperation

variable {o : Op} {io cancel done : Prop}

theorem OpInv.congr {io' cancel' done' : Prop} (h : OpInv o io cancel done) (hio : io' ↔ io)
    (hcancel : cancel' ↔ cancel) (hdone : done' ↔ done) : OpInv o io' cancel' done' := by
  rw [propext hio, propext hcancel, propext hdone]
  exact h

theorem OpInv.started (k : Kind) (stopped : Bool) :
    OpInv (Op.mk k (!stopped) stopped none) True (stopped = true) False := by
  constructor <;> simp

theorem OpInv.stopped (h : OpInv o io cancel done) (hcb : o.cb = true) :
    OpInv { o with cb := false, state := true } io True done := by
  obtain ⟨hio, hcancel⟩ := h.cb hcb
  refine ⟨by simp, ?_, h.rc, fun hn => absurd hio hn, by simp⟩
  rw [h.done]
  tauto

/-- The result arrives behind that of `cancel`, or there was none. -/
theorem OpInv.completed (h : OpInv o True cancel done) (hcancel : ¬cancel) (res : ℤ) :
    o.complete res = ⟨{ o with cb := false }, some (signal o.kind res), 1⟩ ∧
      OpInv (o.complete res).op False cancel True := by
  have hstate : o.state = false := by
    rw [← Bool.not_eq_true, h.state]
    exact hcancel
  have hcall : o.complete res = ⟨{ o with cb := false }, some (signal o.kind res), 1⟩ := by
    rw [Op.complete, hstate]
    rfl
  refine ⟨hcall, ?_⟩
  rw [hcall]
  exact ⟨h.state, by simpa using hcancel, by simp, fun _ hc => absurd hc hcancel, by simp⟩

/-- The result arrives before that of `cancel`. -/
theorem OpInv.overtakes (h : OpInv o True cancel done) (hcancel : cancel) (res : ℤ) :
    o.complete res = ⟨{ o with cb := false, rc := some res }, none, 0⟩ ∧
      OpInv (o.complete res).op False cancel done := by
  have hstate : o.state = true := h.state.mpr hcancel
  have hcall : o.complete res = ⟨{ o with cb := false, rc := some res }, none, 0⟩ := by
    rw [Op.complete, hstate]
    rfl
  refine ⟨hcall, ?_⟩
  rw [hcall]
  refine ⟨h.state, ?_, by simp, by simp, by simp⟩
  rw [h.done]
  tauto

theorem OpInv.cancelled_first (h : OpInv o io True done) (hio : io) :
    o.cancel_complete = some ⟨{ o with state := false }, none, 1⟩ ∧
      OpInv { o with state := false } io False done := by
  have hstate : o.state = true := h.state.mpr trivial
  refine ⟨by rw [Op.cancel_complete, hstate, h.rc hio]; rfl, by simp, ?_, h.rc,
    fun hn => absurd hio hn, fun hcb => absurd trivial (h.cb hcb).2⟩
  rw [h.done]
  tauto

theorem OpInv.cancelled_last (h : OpInv o io True done) (hio : ¬io) :
    ∃ rc, o.rc = some rc ∧
      o.cancel_complete =
        some ⟨{ o with state := false, cb := false }, some (signal o.kind rc), 1⟩ ∧
      OpInv { o with state := false, cb := false } io False True := by
  have hstate : o.state = true := h.state.mpr trivial
  obtain ⟨rc, hrc⟩ := Option.isSome_iff_exists.mp (h.overtaken hio trivial)
  refine ⟨rc, hrc, by rw [Op.cancel_complete, hstate, hrc]; rfl, by simp, by simpa using hio,
    fun hp => absurd hp hio, by simp, by simp⟩

end OneOperation

/-! ## The context -/

/-- What the kernel has answered. -/
def answer : Action → Option (Entry × ℤ)
  | .complete e res => some (e, res)
  | _ => none

def answers (tr : List Action) : List (Entry × ℤ) := tr.filterMap answer

def Op.early (o : Op) : Bool := o.rc.isSome

structure Inv (tr : List Action) (s : State) : Prop where
  op : ∀ i o, s.ops[i]? = some o →
    OpInv o (.io i ∈ s.pending) (.cancel i ∈ s.pending) (i ∈ s.delivered.map Prod.fst)
  nodup : s.pending.Nodup
  started : ∀ e ∈ s.pending, e.op < s.ops.length
  once : (s.delivered.map Prod.fst).Nodup
  delivered : ∀ x ∈ s.delivered, ∃ o res, s.ops[x.1]? = some o ∧
    (.io x.1, res) ∈ answers tr ∧ x.2 = signal o.kind res
  rc : ∀ i o res, s.ops[i]? = some o → o.rc = some res → (.io i, res) ∈ answers tr
  answered : ∀ i res, (.io i, res) ∈ answers tr → i < s.ops.length ∧ .io i ∉ s.pending
  unique : ∀ i res res', (.io i, res) ∈ answers tr → (.io i, res') ∈ answers tr → res = res'
  count : s.outstanding = s.pending.length + s.running.getD 0 + s.ops.countP Op.early

section Context

variable {tr : List Action} {s s' : State} {e : Entry} {o : Op} {i : ℕ} {res : ℤ}

theorem answers_append (a : Action) : answers (tr ++ [a]) = answers tr ++ (answer a).toList := by
  rw [answers, List.filterMap_append, answers]
  cases h : answer a <;> simp [h]

theorem countP_set_add {α : Type*} {l : List α} {i : ℕ} {x y : α} (p : α → Bool)
    (h : l[i]? = some x) :
    (l.set i y).countP p + (p x).toNat = l.countP p + (p y).toNat := by
  induction l generalizing i with
  | nil => simp at h
  | cons z l ih =>
    cases i with
    | zero =>
      obtain rfl : z = x := by simpa using h
      rw [List.set_cons_zero, List.countP_cons, List.countP_cons]
      cases p z <;> cases p y <;> simp
    | succ i =>
      have hi := ih (by simpa using h)
      simp only [List.set_cons_succ, List.countP_cons]
      omega

/-- An element of a list in which one was replaced. -/
theorem eq_of_set {α : Type*} {l : List α} {i j : ℕ} {x y : α} (hi : i < l.length)
    (hj : (l.set i x)[j]? = some y) : (j = i ∧ y = x) ∨ (j ≠ i ∧ l[j]? = some y) := by
  obtain rfl | hne := eq_or_ne j i
  · rw [List.getElem?_set_self hi] at hj
    exact .inl ⟨rfl, (Option.some.inj hj).symm⟩
  · rw [List.getElem?_set_ne hne.symm] at hj
    exact .inr ⟨hne, hj⟩

theorem Inv.mem_delivered (h : Inv tr s) (hi : i ∈ s.delivered.map Prod.fst) :
    i < s.ops.length := by
  obtain ⟨x, hx, rfl⟩ := List.mem_map.mp hi
  obtain ⟨o, -, ho, -⟩ := h.delivered x hx
  exact (List.getElem?_eq_some_iff.mp ho).1

theorem Inv.init : Inv [] IoUring.init := by
  constructor <;> simp [IoUring.init, answers]

/-- The entries that `start` submits. -/
def submitted (i : ℕ) (stopped : Bool) : List Entry :=
  (if stopped then [.cancel i] else []) ++ [.io i]

theorem start_eq (s : State) (k : Kind) (stopped : Bool) :
    s.start k stopped = { s with
      ops := s.ops ++ [Op.mk k (!stopped) stopped none]
      pending := s.pending ++ submitted s.ops.length stopped
      outstanding := s.outstanding + (submitted s.ops.length stopped).length } := by
  cases stopped <;> simp [State.start, State.submit, submitted]

theorem mem_submitted {stopped : Bool} (h : e ∈ submitted i stopped) : e.op = i := by
  cases stopped <;> simp [submitted] at h
  · rw [h]; rfl
  · obtain rfl | rfl := h <;> rfl

theorem Inv.start (h : Inv tr s) (k : Kind) (stopped : Bool) :
    Inv (tr ++ [.start k stopped]) (s.start k stopped) := by
  have hanswers : answers (tr ++ [.start k stopped]) = answers tr := by
    rw [answers_append]
    exact List.append_nil _
  have hold : ∀ e, e.op < s.ops.length → e ∉ submitted s.ops.length stopped :=
    fun e he hn => absurd (mem_submitted hn) he.ne
  rw [start_eq]
  refine ⟨fun i o ho => ?_, ?_, fun e he => ?_, h.once, fun x hx => ?_, fun i o res ho hrc => ?_,
    fun i res hi => ?_, fun i res res' hi hi' => ?_, ?_⟩
  · dsimp only at ho ⊢
    obtain hlt | rfl | hgt := Nat.lt_trichotomy i s.ops.length
    · rw [List.getElem?_append_left hlt] at ho
      refine (h.op i o ho).congr ?_ ?_ Iff.rfl
      · rw [List.mem_append]
        exact or_iff_left (hold (.io i) hlt)
      · rw [List.mem_append]
        exact or_iff_left (hold (.cancel i) hlt)
    · rw [List.getElem?_concat_length] at ho
      cases ho
      refine (OpInv.started k stopped).congr ?_ ?_ ?_
      · simp [submitted]
      · have hnew : Entry.cancel s.ops.length ∉ s.pending :=
          fun hm => absurd (h.started _ hm) (Nat.lt_irrefl _)
        cases stopped <;> simp [submitted, hnew]
      · exact iff_false_intro fun hd => absurd (h.mem_delivered hd) (Nat.lt_irrefl _)
    · rw [List.getElem?_eq_none (by rw [List.length_append]; exact hgt)] at ho
      cases ho
  · refine h.nodup.append (by cases stopped <;> simp [submitted]) fun e he hn => ?_
    exact hold e (h.started e he) hn
  · rw [List.length_append]
    obtain he | he := List.mem_append.mp he
    · exact Nat.lt_succ_of_lt (h.started e he)
    · rw [mem_submitted he]
      exact Nat.lt_succ_self _
  · obtain ⟨o, res, ho, hr, hs⟩ := h.delivered x hx
    refine ⟨o, res, ?_, hanswers ▸ hr, hs⟩
    rw [List.getElem?_append_left (List.getElem?_eq_some_iff.mp ho).1]
    exact ho
  · rw [hanswers]
    obtain hlt | hge := Nat.lt_or_ge i s.ops.length
    · rw [List.getElem?_append_left hlt] at ho
      exact h.rc i o res ho hrc
    · rw [List.getElem?_append_right hge] at ho
      rw [List.mem_singleton.mp (List.mem_of_getElem? ho)] at hrc
      cases hrc
  · rw [hanswers] at hi
    obtain ⟨hlt, hp⟩ := h.answered i res hi
    refine ⟨by rw [List.length_append]; exact Nat.lt_succ_of_lt hlt, fun hm => ?_⟩
    exact (List.mem_append.mp hm).elim hp (hold (.io i) hlt)
  · rw [hanswers] at hi hi'
    exact h.unique i res res' hi hi'
  · dsimp only
    rw [h.count, List.length_append, List.countP_append]
    simp only [List.countP_singleton, Op.early, Option.isSome_none]
    simp only [Bool.false_eq_true, if_false]
    omega

theorem Inv.stop (h : Inv tr s) (hs : s.stop i = some s') : Inv (tr ++ [.stop i]) s' := by
  have hanswers : answers (tr ++ [.stop i]) = answers tr := by
    rw [answers_append]
    exact List.append_nil _
  simp only [State.stop, Option.bind_eq_bind, Option.bind_eq_some_iff, Option.ite_none_right_eq_some]
    at hs
  obtain ⟨o, ho, hcb, hs⟩ := hs
  cases hs
  have hop := h.op i o ho
  have hlt : i < s.ops.length := (List.getElem?_eq_some_iff.mp ho).1
  have hnew : Entry.cancel i ∉ s.pending := (hop.cb hcb).2
  refine ⟨fun j o' hj => ?_, ?_, fun e he => ?_, h.once, fun x hx => ?_, fun j o' res hj hrc => ?_,
    fun j res hj => ?_, fun j res res' hj hj' => ?_, ?_⟩
  · dsimp only [State.submit] at hj ⊢
    obtain ⟨rfl, rfl⟩ | ⟨hne, hj⟩ := eq_of_set hlt hj
    · refine (hop.stopped hcb).congr ?_ ?_ Iff.rfl
      · simp
      · simp
    · refine (h.op j o' hj).congr ?_ ?_ Iff.rfl
      · simp
      · simp [hne]
  · exact List.nodup_append.mpr ⟨h.nodup, List.nodup_singleton _, fun a ha b hb hab => by
      rw [List.mem_singleton.mp hb] at hab
      exact hnew (hab ▸ ha)⟩
  · dsimp only [State.submit] at he ⊢
    rw [List.length_set]
    obtain he | he := List.mem_append.mp he
    · exact h.started e he
    · rw [List.mem_singleton.mp he]
      exact hlt
  · obtain ⟨o', res, ho', hr, hx'⟩ := h.delivered x hx
    rw [hanswers]
    obtain hne | hne := eq_or_ne x.1 i
    · rw [hne, ho] at ho'
      cases ho'
      refine ⟨{ o with cb := false, state := true }, res, ?_, hr, hx'⟩
      dsimp only [State.submit]
      rw [hne, List.getElem?_set_self hlt]
    · refine ⟨o', res, ?_, hr, hx'⟩
      dsimp only [State.submit]
      rw [List.getElem?_set_ne hne.symm]
      exact ho'
  · rw [hanswers]
    obtain ⟨rfl, rfl⟩ | ⟨-, hj⟩ := eq_of_set hlt hj
    · exact h.rc j o res ho hrc
    · exact h.rc j o' res hj hrc
  · rw [hanswers] at hj
    obtain ⟨hlt', hp⟩ := h.answered j res hj
    refine ⟨by dsimp only [State.submit]; rw [List.length_set]; exact hlt', ?_⟩
    simpa [State.submit] using hp
  · rw [hanswers] at hj hj'
    exact h.unique j res res' hj hj'
  · have hset := countP_set_add (y := { o with cb := false, state := true }) Op.early ho
    dsimp only [State.submit]
    rw [List.length_append, List.length_singleton, h.count]
    have hsame : Op.early { o with cb := false, state := true } = Op.early o := rfl
    rw [hsame] at hset
    omega

/-- What a call of `complete` does to the state is seen from what it does to the object. -/
theorem Inv.completed {c : Completed} (h : Inv tr s) (hrun : s.running = none)
    (he : e ∈ s.pending) (ho : s.ops[e.op]? = some o) (hkind : c.op.kind = o.kind)
    (hop : OpInv c.op (.io e.op ∈ s.pending.erase e) (.cancel e.op ∈ s.pending.erase e)
      (e.op ∈ s.delivered.map Prod.fst ∨ c.signal.isSome))
    (hsignal : ∀ x, c.signal = some x → e.op ∉ s.delivered.map Prod.fst ∧
      ∃ r, (.io e.op, r) ∈ answers (tr ++ [.complete e res]) ∧ x = signal o.kind r)
    (hrc : ∀ r, c.op.rc = some r → (.io e.op, r) ∈ answers (tr ++ [.complete e res]))
    (hcount : c.returned + c.op.early.toNat = 1 + o.early.toNat) :
    Inv (tr ++ [.complete e res]) { s with
      ops := s.ops.set e.op c.op
      pending := s.pending.erase e
      running := some c.returned
      delivered := s.delivered ++ (c.signal.map fun x => (e.op, x)).toList } := by
  have hanswers : answers (tr ++ [.complete e res]) = answers tr ++ [(e, res)] := answers_append _
  have hlt : e.op < s.ops.length := (List.getElem?_eq_some_iff.mp ho).1
  have herase : ∀ e', e'.op ≠ e.op → (e' ∈ s.pending.erase e ↔ e' ∈ s.pending) := by
    intro e' hne
    exact List.mem_erase_of_ne fun heq => hne (heq ▸ rfl)
  have hmem : ∀ j, j ∈ (s.delivered ++ (c.signal.map fun x => (e.op, x)).toList).map Prod.fst ↔
      j ∈ s.delivered.map Prod.fst ∨ j = e.op ∧ c.signal.isSome := by
    intro j
    rw [List.map_append, List.mem_append]
    cases c.signal <;> simp
  refine ⟨fun j o' hj => ?_, h.nodup.erase e, fun e' he' => ?_, ?_, fun x hx => ?_,
    fun j o' r hj hr => ?_, fun j r hj => ?_, fun j r r' hj hj' => ?_, ?_⟩
  · dsimp only at hj ⊢
    obtain ⟨rfl, rfl⟩ | ⟨hne, hj⟩ := eq_of_set hlt hj
    · refine hop.congr Iff.rfl Iff.rfl ?_
      rw [hmem]
      simp
    · refine (h.op j o' hj).congr (herase (.io j) hne) (herase (.cancel j) hne) ?_
      rw [hmem]
      simp [hne]
  · dsimp only at he' ⊢
    rw [List.length_set]
    exact h.started e' (List.mem_of_mem_erase he')
  · dsimp only
    cases hs : c.signal with
    | none => simpa using h.once
    | some x =>
      rw [List.map_append]
      refine List.nodup_append.mpr ⟨h.once, by simp, fun a ha b hb hab => ?_⟩
      have hb' : b = e.op := by simpa using hb
      exact (hsignal x hs).1 (hb' ▸ hab ▸ ha)
  · dsimp only at hx ⊢
    obtain hx | hx := List.mem_append.mp hx
    · obtain ⟨o', r, ho', hr, hx'⟩ := h.delivered x hx
      rw [hanswers]
      obtain heq | hne := eq_or_ne x.1 e.op
      · rw [heq, ho] at ho'
        cases ho'
        refine ⟨c.op, r, ?_, List.mem_append_left _ hr, hkind ▸ hx'⟩
        rw [heq, List.getElem?_set_self hlt]
      · refine ⟨o', r, ?_, List.mem_append_left _ hr, hx'⟩
        rw [List.getElem?_set_ne hne.symm]
        exact ho'
    · cases hs : c.signal with
      | none => simp [hs] at hx
      | some y =>
        rw [hs] at hx
        obtain rfl : x = (e.op, y) := by simpa using hx
        obtain ⟨-, r, hr, hy⟩ := hsignal y hs
        exact ⟨c.op, r, List.getElem?_set_self hlt, hr, hkind ▸ hy⟩
  · obtain ⟨rfl, rfl⟩ | ⟨-, hj⟩ := eq_of_set hlt hj
    · exact hrc r hr
    · rw [hanswers]
      exact List.mem_append_left _ (h.rc j o' r hj hr)
  · dsimp only
    rw [List.length_set]
    rw [hanswers] at hj
    obtain hj | hj := List.mem_append.mp hj
    · obtain ⟨hlt', hp⟩ := h.answered j r hj
      exact ⟨hlt', fun hm => hp (List.mem_of_mem_erase hm)⟩
    · obtain ⟨rfl, -⟩ : Entry.io j = e ∧ r = res := by simpa using hj
      exact ⟨h.started _ he, h.nodup.not_mem_erase⟩
  · have hnew : ∀ j r, (Entry.io j, r) ∈ answers tr → Entry.io j ≠ e :=
      fun j r hj heq => (h.answered j r hj).2 (heq ▸ he)
    rw [hanswers, List.mem_append, List.mem_singleton, Prod.mk.injEq] at hj hj'
    obtain hj | ⟨heq, rfl⟩ := hj <;> obtain hj' | ⟨heq', rfl⟩ := hj'
    · exact h.unique j r r' hj hj'
    · exact absurd heq' (hnew j r hj)
    · exact absurd heq (hnew j r' hj')
    · rfl
  · have hset := countP_set_add (y := c.op) Op.early ho
    have hpos : 0 < s.pending.length := List.length_pos_of_mem he
    dsimp only
    rw [h.count, List.length_erase_of_mem he, hrun]
    simp only [Option.getD_none, Option.getD_some]
    omega

/-- An answer for an operation itself. -/
theorem Inv.complete_io (h : Inv tr s) (hrun : s.running = none) (he : .io i ∈ s.pending)
    (ho : s.ops[i]? = some o) :
    Inv (tr ++ [.complete (.io i) res]) { s with
      ops := s.ops.set i (o.complete res).op
      pending := s.pending.erase (.io i)
      running := some (o.complete res).returned
      delivered := s.delivered ++ ((o.complete res).signal.map fun x => (i, x)).toList } := by
  have hop := (h.op i o ho).congr (iff_of_true trivial he) Iff.rfl Iff.rfl
  have hio : Entry.io i ∈ s.pending.erase (.io i) ↔ False :=
    iff_false_intro h.nodup.not_mem_erase
  have hcancel : Entry.cancel i ∈ s.pending.erase (.io i) ↔ Entry.cancel i ∈ s.pending :=
    List.mem_erase_of_ne nofun
  have hanswer : (Entry.io i, res) ∈ answers (tr ++ [.complete (.io i) res]) := by
    rw [answers_append]
    exact List.mem_append_right _ List.mem_cons_self
  have hkept : ∀ {r}, (Entry.io i, r) ∈ answers tr →
      (Entry.io i, r) ∈ answers (tr ++ [.complete (.io i) res]) := by
    intro r hr
    rw [answers_append]
    exact List.mem_append_left _ hr
  by_cases hc : Entry.cancel i ∈ s.pending
  · obtain ⟨hcall, hinv⟩ := hop.overtakes hc res
    have hnone : o.rc = none := hop.rc trivial
    refine Inv.completed (e := .io i) h hrun he ho (by rw [hcall]) ?_ ?_ ?_ ?_
    · refine hinv.congr hio hcancel ?_
      rw [hcall]
      simp [Entry.op]
    · rw [hcall]
      nofun
    · rw [hcall]
      rintro r hr
      cases hr
      exact hanswer
    · rw [hcall, Op.early, Op.early, hnone]
      rfl
  · obtain ⟨hcall, hinv⟩ := hop.completed hc res
    refine Inv.completed (e := .io i) h hrun he ho (by rw [hcall]) ?_ ?_ ?_ ?_
    · refine hinv.congr hio hcancel ?_
      rw [hcall]
      simp
    · rw [hcall]
      rintro x hx
      cases hx
      exact ⟨fun hd => (hop.done.mp hd).1 trivial, res, hanswer, rfl⟩
    · rw [hcall]
      exact fun r hr => hkept (h.rc i o r ho hr)
    · rw [hcall]
      rfl

/-- An answer for a cancellation. -/
theorem Inv.complete_cancel (h : Inv tr s) (hrun : s.running = none)
    (he : .cancel i ∈ s.pending) (ho : s.ops[i]? = some o) (res : ℤ) :
    ∃ c, o.cancel_complete = some c ∧ Inv (tr ++ [.complete (.cancel i) res]) { s with
      ops := s.ops.set i c.op
      pending := s.pending.erase (.cancel i)
      running := some c.returned
      delivered := s.delivered ++ (c.signal.map fun x => (i, x)).toList } := by
  have hop := (h.op i o ho).congr Iff.rfl (iff_of_true trivial he) Iff.rfl
  have hio : Entry.io i ∈ s.pending.erase (.cancel i) ↔ Entry.io i ∈ s.pending :=
    List.mem_erase_of_ne nofun
  have hcancel : Entry.cancel i ∈ s.pending.erase (.cancel i) ↔ False :=
    iff_false_intro h.nodup.not_mem_erase
  have hkept : ∀ {r}, (Entry.io i, r) ∈ answers tr →
      (Entry.io i, r) ∈ answers (tr ++ [.complete (.cancel i) res]) := by
    intro r hr
    rw [answers_append]
    exact List.mem_append_left _ hr
  by_cases hi : Entry.io i ∈ s.pending
  · obtain ⟨hcall, hinv⟩ := hop.cancelled_first hi
    refine ⟨_, hcall, Inv.completed (e := .cancel i) h hrun he ho rfl ?_ nofun ?_ ?_⟩
    · exact hinv.congr hio hcancel (by simp [Entry.op])
    · exact fun r hr => hkept (h.rc i o r ho hr)
    · rfl
  · obtain ⟨rc, hrc, hcall, hinv⟩ := hop.cancelled_last hi
    refine ⟨_, hcall, Inv.completed (e := .cancel i) h hrun he ho rfl ?_ ?_ ?_ ?_⟩
    · exact hinv.congr hio hcancel (by simp)
    · rintro x hx
      cases hx
      exact ⟨fun hd => (hop.done.mp hd).2 trivial, rc, hkept (h.rc i o rc ho hrc), rfl⟩
    · exact fun r hr => hkept (h.rc i o r ho hr)
    · rfl

theorem Inv.leave (h : Inv tr s) (hs : s.leave = some s') : Inv (tr ++ [.leave]) s' := by
  have hanswers : answers (tr ++ [.leave]) = answers tr := by
    rw [answers_append]
    exact List.append_nil _
  simp only [State.leave, Option.bind_eq_bind, Option.bind_eq_some_iff, Option.some.injEq] at hs
  obtain ⟨n, hn, rfl⟩ := hs
  refine ⟨h.op, h.nodup, h.started, h.once, ?_, ?_, ?_, ?_, ?_⟩
  · rw [hanswers]
    exact h.delivered
  · rw [hanswers]
    exact h.rc
  · rw [hanswers]
    exact h.answered
  · rw [hanswers]
    exact h.unique
  · have hcount := h.count
    rw [hn] at hcount
    simp only [Option.getD_some, Option.getD_none] at hcount ⊢
    omega

/-- Whatever the kernel answers next, the objects it refers to are there. -/
theorem Inv.complete_defined (h : Inv tr s) (hrun : s.running = none) (he : e ∈ s.pending)
    (res : ℤ) : ∃ s', s.complete e res = some s' ∧ Inv (tr ++ [.complete e res]) s' := by
  have hout : s.outstanding ≠ 0 := by
    have hpos : 0 < s.pending.length := List.length_pos_of_mem he
    rw [h.count]
    omega
  obtain ⟨o, ho⟩ : ∃ o, s.ops[e.op]? = some o := ⟨_, List.getElem?_eq_getElem (h.started e he)⟩
  have hcall : ∀ c, s.call e res = some c → s.complete e res = some { s with
      ops := s.ops.set e.op c.op
      pending := s.pending.erase e
      running := some c.returned
      delivered := s.delivered ++ (c.signal.map fun x => (e.op, x)).toList } := by
    intro c hc
    rw [State.complete, if_pos ⟨hout, hrun, he⟩, hc]
    rfl
  cases e with
  | io i => exact ⟨_, hcall (o.complete res) (by simp [State.call, ho]), h.complete_io hrun he ho⟩
  | cancel i =>
    obtain ⟨c, hc, hinv⟩ := h.complete_cancel hrun he ho res
    exact ⟨_, hcall c (by simp [State.call, ho, hc]), hinv⟩

theorem Inv.next {a : Action} (h : Inv tr s) (hs : next s a = some s') : Inv (tr ++ [a]) s' := by
  cases a with
  | start k stopped =>
    cases hs
    exact h.start k stopped
  | stop i => exact h.stop hs
  | complete e res =>
    have hguard : s.outstanding ≠ 0 ∧ s.running = none ∧ e ∈ s.pending := by
      by_contra hn
      simp [IoUring.next, State.complete, if_neg hn] at hs
    obtain ⟨s₁, hs₁, hinv⟩ := h.complete_defined hguard.2.1 hguard.2.2 res
    rw [IoUring.next, hs₁] at hs
    cases hs
    exact hinv
  | leave => exact h.leave hs

theorem Inv.run (h : Run system IoUring.init tr s) : Inv tr s :=
  h.invariant Inv.init fun _ _ _ _ hi hs => hi.next hs

/-- An operation whose result was there before that of its `cancel`. -/
def State.Early (s : State) (i : ℕ) : Prop := ∃ o, s.ops[i]? = some o ∧ o.early = true

theorem early_append (o' : Op) (ho : o'.early = false) :
    State.Early { s with ops := s.ops ++ [o'] } i ↔ s.Early i := by
  constructor
  · rintro ⟨o, hget, hearly⟩
    obtain hlt | hge := Nat.lt_or_ge i s.ops.length
    · exact ⟨o, by rwa [List.getElem?_append_left hlt] at hget, hearly⟩
    · rw [List.getElem?_append_right hge] at hget
      rw [List.mem_singleton.mp (List.mem_of_getElem? hget), ho] at hearly
      cases hearly
  · rintro ⟨o, hget, hearly⟩
    refine ⟨o, ?_, hearly⟩
    rw [List.getElem?_append_left (List.getElem?_eq_some_iff.mp hget).1]
    exact hget

theorem early_set {j : ℕ} {o' : Op} (hj : s.ops[j]? = some o) :
    State.Early { s with ops := s.ops.set j o' } i ↔
      i ≠ j ∧ s.Early i ∨ i = j ∧ o'.early = true := by
  have hlt : j < s.ops.length := (List.getElem?_eq_some_iff.mp hj).1
  constructor
  · rintro ⟨o, hget, hearly⟩
    obtain ⟨rfl, rfl⟩ | ⟨hne, hget⟩ := eq_of_set hlt hget
    · exact .inr ⟨rfl, hearly⟩
    · exact .inl ⟨hne, o, hget, hearly⟩
  · rintro (⟨hne, o, hget, hearly⟩ | ⟨rfl, hearly⟩)
    · exact ⟨o, by rw [List.getElem?_set_ne hne.symm]; exact hget, hearly⟩
    · exact ⟨o', List.getElem?_set_self hlt, hearly⟩

/-- An operation that is replaced by one that is as early. -/
theorem early_set_same {j : ℕ} (o' : Op) (hj : s.ops[j]? = some o) (he : o'.early = o.early) :
    State.Early { s with ops := s.ops.set j o' } i ↔ s.Early i := by
  rw [early_set hj]
  obtain rfl | hne := eq_or_ne i j
  · simp [State.Early, hj, he]
  · simp [hne]

theorem Inv.early_next {a : Action} (h : Inv tr s) (hs : IoUring.next s a = some s') :
    s'.Early i ↔ s.Early i ∨ (∃ res, a = .complete (.io i) res) ∧ .cancel i ∈ s.pending := by
  cases a with
  | start k stopped =>
    cases hs
    rw [start_eq]
    exact (early_append (Op.mk k (!stopped) stopped none) rfl).trans (by simp)
  | stop j =>
    simp only [IoUring.next, State.stop, Option.bind_eq_bind, Option.bind_eq_some_iff,
      Option.ite_none_right_eq_some] at hs
    obtain ⟨o, ho, -, hs⟩ := hs
    cases hs
    exact (early_set_same { o with cb := false, state := true } ho rfl).trans (by simp)
  | complete e res =>
    simp only [IoUring.next, State.complete, Option.ite_none_right_eq_some, State.call,
      Option.bind_eq_bind, Option.bind_eq_some_iff] at hs
    obtain ⟨⟨-, -, he⟩, c, ⟨o, ho, hcall⟩, hs⟩ := hs
    cases hs
    have hop := h.op e.op o ho
    cases e with
    | io j =>
      cases hcall
      have hop := hop.congr (iff_of_true trivial he) Iff.rfl Iff.rfl
      by_cases hc : Entry.cancel j ∈ s.pending
      · obtain ⟨hcomplete, -⟩ := hop.overtakes hc res
        refine (early_set ho).trans ?_
        rw [hcomplete]
        simp only [Op.early, Option.isSome_some, Entry.op]
        constructor
        · rintro (⟨-, hearly⟩ | ⟨rfl, -⟩)
          · exact .inl hearly
          · exact .inr ⟨⟨res, rfl⟩, hc⟩
        · rintro (hearly | ⟨⟨r, hr⟩, -⟩)
          · by_cases hij : i = j
            · exact .inr ⟨hij, trivial⟩
            · exact .inl ⟨hij, hearly⟩
          · cases hr
            exact .inr ⟨rfl, trivial⟩
      · obtain ⟨hcomplete, -⟩ := hop.completed hc res
        refine (early_set_same (o.complete res).op ho (by rw [hcomplete]; rfl)).trans ?_
        refine (or_iff_left ?_).symm
        rintro ⟨⟨r, hr⟩, hi⟩
        cases hr
        exact hc hi
    | cancel j =>
      have hop := hop.congr Iff.rfl (iff_of_true trivial he) Iff.rfl
      have hsame : c.op.early = o.early := by
        by_cases hi : Entry.io j ∈ s.pending
        · rw [(hop.cancelled_first hi).1] at hcall
          cases hcall
          rfl
        · obtain ⟨rc, -, hcancel, -⟩ := hop.cancelled_last hi
          rw [hcancel] at hcall
          cases hcall
          rfl
      exact (early_set_same c.op ho hsame).trans (by simp)
  | leave =>
    simp only [IoUring.next, State.leave, Option.bind_eq_bind, Option.bind_eq_some_iff,
      Option.some.injEq] at hs
    obtain ⟨n, -, rfl⟩ := hs
    simp [State.Early]

theorem step_functional (s : State) (a : Action) (s₁ s₂ : State) (h₁ : system.step s a s₁)
    (h₂ : system.step s a s₂) : s₁ = s₂ :=
  Option.some.inj (h₁.symm.trans h₂)

/-- The kernel has answered the operation `i` while its `cancel` was not answered. -/
def Overtaken (tr : List Action) (i : ℕ) : Prop :=
  ∃ p res s, p ++ [.complete (.io i) res] <+: tr ∧ Run system init p s ∧ .cancel i ∈ s.pending

theorem overtaken_append {a : Action} (h : Run system init tr s) :
    Overtaken (tr ++ [a]) i ↔
      Overtaken tr i ∨ (∃ res, a = .complete (.io i) res) ∧ .cancel i ∈ s.pending := by
  constructor
  · rintro ⟨p, res, s₁, hp, hrun, hc⟩
    obtain heq | hp := List.prefix_concat_iff.mp hp
    · obtain ⟨rfl, ha⟩ := List.append_inj' heq rfl
      cases hrun.eq_of_functional step_functional h
      exact .inr ⟨⟨res, (List.cons.inj ha).1.symm⟩, hc⟩
    · exact .inl ⟨p, res, s₁, hp, hrun, hc⟩
  · rintro (⟨p, res, s₁, hp, hrun, hc⟩ | ⟨⟨res, rfl⟩, hc⟩)
    · exact ⟨p, res, s₁, hp.trans (List.prefix_append _ _), hrun, hc⟩
    · exact ⟨tr, res, s, List.prefix_rfl, h, hc⟩

theorem early_iff_overtaken (h : Run system init tr s) : s.Early i ↔ Overtaken tr i := by
  induction h with
  | nil =>
    refine iff_of_false (fun ⟨o, ho, _⟩ => by simp [init] at ho) ?_
    rintro ⟨p, res, s₁, hp, -⟩
    simp at hp
  | snoc hr hs ih => rw [(Inv.run hr).early_next hs, overtaken_append hr, ih]

/-! ## Whole runs -/

/-- A receiver is completed once, when the kernel has answered everything of its operation, and
with the signal for the kernel's result. No answer refers to an object that may be gone. -/
theorem completions (h : Run system init tr s) :
    (s.delivered.map Prod.fst).Nodup ∧
      (∀ i x, (i, x) ∈ s.delivered ↔ Entry.io i ∉ s.pending ∧ Entry.cancel i ∉ s.pending ∧
        ∃ o res, s.ops[i]? = some o ∧ (Entry.io i, res) ∈ answers tr ∧ x = signal o.kind res) ∧
      ∀ e ∈ s.pending, e.op ∉ s.delivered.map Prod.fst ∧
        ∀ res, s.running = none → (s.complete e res).isSome := by
  have hinv := Inv.run h
  refine ⟨hinv.once, fun i x => ⟨fun hx => ?_, ?_⟩, fun e he => ⟨fun hd => ?_, fun res hrun => ?_⟩⟩
  · obtain ⟨o, res, ho, hres, hsignal⟩ := hinv.delivered _ hx
    obtain ⟨hio, hcancel⟩ := (hinv.op i o ho).done.mp (List.mem_map_of_mem hx)
    exact ⟨hio, hcancel, o, res, ho, hres, hsignal⟩
  · rintro ⟨hio, hcancel, o, res, ho, hres, rfl⟩
    obtain ⟨⟨j, y⟩, hy, rfl⟩ := List.mem_map.mp ((hinv.op i o ho).done.mpr ⟨hio, hcancel⟩)
    obtain ⟨o', res', ho', hres', rfl⟩ := hinv.delivered _ hy
    cases ho.symm.trans ho'
    cases hinv.unique _ _ _ hres hres'
    exact hy
  · obtain ⟨o, ho⟩ : ∃ o, s.ops[e.op]? = some o := ⟨_, List.getElem?_eq_getElem (hinv.started e he)⟩
    obtain ⟨hio, hcancel⟩ := (hinv.op e.op o ho).done.mp hd
    cases e with
    | io i => exact hio he
    | cancel i => exact hcancel he
  · obtain ⟨s', hs', -⟩ := hinv.complete_defined hrun he res
    rw [hs']
    rfl

/-- The loop of `run` ends only if the kernel has answered everything, and if no operation ever
had its result before its `cancel` had. -/
theorem run_ends_iff (h : Run system init tr s) (hrun : s.running = none) :
    s.outstanding = 0 ↔ s.pending = [] ∧ ∀ i, ¬Overtaken tr i := by
  have hcount := (Inv.run h).count
  have hearly : s.ops.countP Op.early = 0 ↔ ∀ i, ¬s.Early i := by
    rw [List.countP_eq_zero]
    constructor
    · rintro hall i ⟨o, ho, he⟩
      exact hall o (List.mem_of_getElem? ho) he
    · intro hall o ho he
      obtain ⟨i, hi⟩ := List.getElem?_of_mem ho
      exact hall i ⟨o, hi, he⟩
  simp only [← early_iff_overtaken h, ← hearly, ← List.length_eq_zero_iff]
  rw [hrun, Option.getD_none] at hcount
  omega

end Context

/-- An operation that is stopped, and whose result arrives before that of the cancellation. -/
def overtaking : List Action :=
  [.start .io false, .stop 0, .complete (.io 0) (-125), .leave, .complete (.cancel 0) 0, .leave]

/-- The receiver is told, nothing is with the kernel, and the loop goes on. -/
theorem overtaking_run : Run system init overtaking
    ⟨[⟨.io, false, false, some (-125)⟩], [], 1, none, [(0, .stopped)]⟩ :=
  @run_replay _ _ system next (fun _ _ _ hs => hs) init overtaking rfl

theorem completions_overtaking :
    ([(0, Signal.stopped)].map Prod.fst).Nodup ∧
      ∀ i x, (i, x) ∈ [(0, Signal.stopped)] ↔ Entry.io i ∉ [] ∧ Entry.cancel i ∉ [] ∧
        ∃ o res, [Op.mk .io false false (some (-125))][i]? = some o ∧
          (Entry.io i, res) ∈ answers overtaking ∧ x = signal o.kind res :=
  ⟨(completions overtaking_run).1, (completions overtaking_run).2.1⟩

theorem run_ends_iff_overtaking : ∃ i, Overtaken overtaking i := by
  by_contra hn
  have h := (run_ends_iff overtaking_run rfl).mpr ⟨rfl, fun i hi => hn ⟨i, hi⟩⟩
  cases h

end Kuhllib.Toy.IoUring
