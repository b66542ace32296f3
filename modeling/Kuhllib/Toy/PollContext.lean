import Kuhllib.Toy.EventKind
import Kuhllib.Lib.Transition
import Mathlib.Data.List.Nodup
import Mathlib.Data.Int.Order.Basic
import Mathlib.Data.List.TakeWhile
import Mathlib.Data.List.InsertIdx

/-!
# The context that uses `poll`

The operations that wait for a descriptor are kept in `ios` and, at the same place, in `fds`;
those that wait for a time are kept in the `timer_queue`. `run` completes what is due and what
is ready, and the receivers may start and stop operations while it goes through its containers.
`Shape` says what holds between the containers, in front of every turn of every loop.
-/

namespace Kuhllib.Toy.PollContext

open Transition

structure Pollfd where
  fd : ℤ
  events : ℕ
  revents : ℕ
  deriving DecidableEq, Repr

/-- `fds[i].events & fds[i].revents` -/
def Pollfd.ready (p : Pollfd) : Bool := p.events &&& p.revents != 0

/-! ## `timer_queue` -/

/-- `std::lower_bound` with `compare_t` finds the first entry whose time is not greater. -/
def push (times : List (ℤ × ℕ)) (time : ℤ) (op : ℕ) : List (ℤ × ℕ) :=
  times.takeWhile (fun p => time < p.1) ++ (time, op) :: times.dropWhile fun p => time < p.1

/-! ## The context -/

/-- What an operation waits for. -/
inductive Task
  | io (fd : ℤ) (events : EventKind)
  | time (deadline : ℤ)
  deriving DecidableEq, Repr

structure Op where
  task : Task
  /-- stop was requested before `start` -/
  late : Bool
  /-- `cb` holds a callback that was not called yet -/
  cb : Bool
  deriving DecidableEq, Repr

/-- What a receiver is told: `event` is what `operation` is called with. -/
inductive Signal
  | stopped
  | event (e : EventKind)
  | timeout
  deriving DecidableEq, Repr

/-- Where `run` is: at the condition of its loop, going through the timers, or in front of the
index `i` of the loop over `fds`. -/
inductive Loop
  | idle
  | timers (now : ℤ) (timed : Bool)
  | sweep (i : ℕ)
  deriving DecidableEq, Repr

structure State where
  /-- the operations in the order in which they were started -/
  ops : List Op
  ios : List ℕ
  fds : List Pollfd
  times : List (ℤ × ℕ)
  loop : Loop
  /-- what the receivers got -/
  delivered : List (ℕ × Signal)

def init : State := ⟨[], [], [], [], .idle, []⟩

/-- `context::add`, for both kinds of operations -/
def State.add (s : State) (i : ℕ) : Task → State
  | .io fd events =>
    { s with ios := s.ios ++ [i], fds := s.fds ++ [⟨fd, to_poll events, 0⟩] }
  | .time deadline => { s with times := push s.times deadline i }

def State.erase (s : State) (i : ℕ) : State :=
  if i ∈ s.ios then
    { s with fds := s.fds.eraseIdx (s.ios.idxOf i), ios := s.ios.eraseIdx (s.ios.idxOf i) }
  else s

/-- `scheduler::erase_timer` -/
def State.erase_timer (s : State) (i : ℕ) : State := s.erase i

/-- The receiver of `i` is completed, and the callback is not called any more. -/
def State.deliver (s : State) (i : ℕ) (x : Signal) : State :=
  { s with
    ops := s.ops.modify i fun o => { o with cb := false }
    delivered := s.delivered ++ [(i, x)] }

/-- `stop_callback::callback::operator()` -/
def State.call (s : State) (i : ℕ) : Task → State
  | .io _ _ => (s.erase i).deliver i .stopped
  | .time _ => (s.erase_timer i).deliver i .stopped

/-- `start` of `io_state` and `time_state` -/
def State.start (s : State) (task : Task) (stopped : Bool) : State :=
  let i := s.ops.length
  let s := { s with ops := s.ops ++ [Op.mk task stopped true] }
  let s := if stopped then s.call i task else s
  s.add i task

/-- The stop token of an operation is triggered. -/
def State.stop (s : State) (i : ℕ) : Option State := do
  let o ← s.ops[i]?
  if o.cb then some (s.call i o.task) else none

/-- `v[i] = v.back(); v.pop_back()` -/
def remove {α : Type*} (v : List α) (i : ℕ) : List α :=
  match v.getLast? with
  | some x => (v.set i x).dropLast
  | none => v

/-- `!times.empty() && times.top().first <= now` -/
def due (times : List (ℤ × ℕ)) (now : ℤ) : Bool := times.head?.any fun p => p.1 ≤ now

/-- The time that `poll` waits at most, and `-1` for no limit. -/
def wait (times : List (ℤ × ℕ)) (now : ℤ) : ℤ := times.head?.elim (-1) fun p => p.1 - now

inductive Action
  | start (task : Task) (stopped : Bool)
  | stop (i : ℕ)
  /-- the condition of the loop, and the clock -/
  | begin (now : ℤ)
  | fire
  | again
  /-- `::poll` with the events that it reports -/
  | poll (revents : List ℕ)
  | visit
  | done
  deriving DecidableEq, Repr

def State.begin (s : State) (now : ℤ) : Option State :=
  if s.loop = .idle ∧ (s.ios ≠ [] ∨ s.times ≠ []) then
    some { s with loop := .timers now false }
  else none

/-- The first timer is completed. -/
def State.fire (s : State) : Option State :=
  match s.loop, s.times with
  | .timers now _, (time, i) :: times =>
    if time ≤ now then
      some (State.deliver { s with times := times, loop := .timers now true } i .timeout)
    else none
  | _, _ => none

/-- `continue` after timers were completed. -/
def State.again (s : State) : Option State :=
  match s.loop with
  | .timers now true => if due s.times now then none else some { s with loop := .idle }
  | _ => none

def State.poll (s : State) (revents : List ℕ) : Option State :=
  match s.loop with
  | .timers now false =>
    if due s.times now = false ∧ revents.length = s.fds.length then
      some { s with
        fds := s.fds.zipWith (fun p r => { p with revents := r }) revents
        loop := if ∃ r ∈ revents, r ≠ 0 then .sweep s.fds.length else .idle }
    else none
  | _ => none

/-- The event that `operation` is called with: `run` calls `complete(int(to_event_kind(revents)))`,
which takes its argument for flags. -/
def reported (revents : ℕ) : EventKind := to_event_kind (to_event_kind revents).toNat

/-- One turn of the loop over `fds`. -/
def State.visit (s : State) : Option State :=
  match s.loop with
  | .sweep (i + 1) =>
    match s.fds[i]? with
    | some p =>
      if p.ready then do
        let c ← s.ios[i]?
        some (State.deliver
          { s with fds := remove s.fds i, ios := remove s.ios i, loop := .sweep i } c
          (.event (reported p.revents)))
      else some { s with loop := .sweep i }
    | none => some { s with loop := .sweep i }
  | _ => none

def State.done (s : State) : Option State :=
  if s.loop = .sweep 0 then some { s with loop := .idle } else none

def next (s : State) : Action → Option State
  | .start task stopped => some (s.start task stopped)
  | .stop i => s.stop i
  | .begin now => s.begin now
  | .fire => s.fire
  | .again => s.again
  | .poll revents => s.poll revents
  | .visit => s.visit
  | .done => s.done

def system : System State Action where
  init s := s = PollContext.init
  step s a s' := next s a = some s'

/-! ## The containers -/

/-- `es` are the descriptors with their operations. -/
structure Shape (s : State) (es : List (ℕ × Pollfd)) : Prop where
  ios : s.ios = es.map Prod.fst
  fds : s.fds = es.map Prod.snd
  nodup : (es.map Prod.fst).Nodup
  entry : ∀ e ∈ es, ∃ o fd events, s.ops[e.1]? = some o ∧ o.task = .io fd events ∧
    e.2.fd = fd ∧ e.2.events = to_poll events
  timers : (s.times.map Prod.snd).Nodup
  sorted : s.times.Pairwise fun p q => q.1 ≤ p.1
  timer : ∀ p ∈ s.times, ∃ o, s.ops[p.2]? = some o ∧ o.task = .time p.1
  seen : ∀ n, s.loop = .sweep n → ∀ k e, es[k]? = some e → n ≤ k → e.2.ready = false

section Containers

variable {s s' : State} {es : List (ℕ × Pollfd)} {i j : ℕ} {x : Signal}

theorem Shape.init : Shape init [] := by
  constructor <;> simp [PollContext.init]

theorem getElem?_deliver_self :
    (s.deliver i x).ops[i]? = s.ops[i]?.map fun o => { o with cb := false } := by
  rw [State.deliver, List.getElem?_modify_eq]
  rfl

theorem getElem?_deliver_ne (h : i ≠ j) : (s.deliver i x).ops[j]? = s.ops[j]? := by
  rw [State.deliver, List.getElem?_modify_ne _ _ h]

theorem getElem?_deliver {o : Op} (h : s.ops[j]? = some o) :
    ∃ o', (s.deliver i x).ops[j]? = some o' ∧ o'.task = o.task ∧ o'.late = o.late := by
  obtain rfl | hne := eq_or_ne i j
  · exact ⟨{ o with cb := false }, by rw [getElem?_deliver_self, h]; rfl, rfl, rfl⟩
  · exact ⟨o, by rw [getElem?_deliver_ne hne, h], rfl, rfl⟩

theorem Shape.deliver (h : Shape s es) : Shape (s.deliver i x) es := by
  refine ⟨h.ios, h.fds, h.nodup, fun e he => ?_, h.timers, h.sorted, fun p hp => ?_, h.seen⟩
  · obtain ⟨o, fd, events, ho, htask, hfd, hevents⟩ := h.entry e he
    obtain ⟨o', ho', htask', -⟩ := getElem?_deliver (i := i) (x := x) ho
    exact ⟨o', fd, events, ho', htask'.trans htask, hfd, hevents⟩
  · obtain ⟨o, ho, htask⟩ := h.timer p hp
    obtain ⟨o', ho', htask', -⟩ := getElem?_deliver (i := i) (x := x) ho
    exact ⟨o', ho', htask'.trans htask⟩

/-- Some descriptors are taken out, and those that were looked at stay behind the index. -/
theorem Shape.restrict {es' : List (ℕ × Pollfd)} {l : Loop} (h : Shape s es)
    (hsub : es' ⊆ es) (hnodup : (es'.map Prod.fst).Nodup)
    (hseen : ∀ n, l = .sweep n → ∀ k e, es'[k]? = some e → n ≤ k → e.2.ready = false) :
    Shape { s with ios := es'.map Prod.fst, fds := es'.map Prod.snd, loop := l } es' :=
  ⟨rfl, rfl, hnodup, fun e he => h.entry e (hsub he), h.timers, h.sorted, h.timer, hseen⟩

/-- Without `i` and its descriptor the others are left. -/
theorem Shape.erase (h : Shape s es) (i : ℕ) :
    ∃ es', Shape (s.erase i) es' ∧ es' ⊆ es ∧ ∀ j, j ∈ (s.erase i).ios ↔ j ∈ s.ios ∧ j ≠ i := by
  by_cases hi : i ∈ s.ios
  · have hios : s.ios.eraseIdx (s.ios.idxOf i) = (es.eraseIdx (s.ios.idxOf i)).map Prod.fst := by
      rw [← List.eraseIdx_map, ← h.ios]
    have hfds : s.fds.eraseIdx (s.ios.idxOf i) = (es.eraseIdx (s.ios.idxOf i)).map Prod.snd := by
      rw [← List.eraseIdx_map, ← h.fds]
    have herase : s.ios.eraseIdx (s.ios.idxOf i) = s.ios.erase i := by
      rw [List.erase_eq_eraseIdx_of_idxOf]
      rfl
    have hnodup : s.ios.Nodup := h.ios ▸ h.nodup
    refine ⟨es.eraseIdx (s.ios.idxOf i), ?_, (List.eraseIdx_sublist es _).subset, fun j => ?_⟩
    · rw [State.erase, if_pos hi, hios, hfds]
      refine h.restrict (List.eraseIdx_sublist es _).subset ?_ fun n hn k e hk hle => ?_
      · rw [← hios, herase]
        exact hnodup.erase i
      · rw [List.getElem?_eraseIdx] at hk
        split at hk
        · exact h.seen n hn k e hk hle
        · exact h.seen n hn (k + 1) e hk (Nat.le_succ_of_le hle)
    · rw [State.erase, if_pos hi]
      dsimp only
      rw [herase, hnodup.mem_erase_iff, and_comm]
  · refine ⟨es, ?_, fun _ he => he, fun j => ?_⟩
    · rw [State.erase, if_neg hi]
      exact h
    · rw [State.erase, if_neg hi]
      exact ⟨fun hj => ⟨hj, fun heq => hi (heq ▸ hj)⟩, And.left⟩

theorem erase_times : (s.erase i).times = s.times := by
  unfold State.erase
  split <;> rfl

theorem erase_ops : (s.erase i).ops = s.ops := by
  unfold State.erase
  split <;> rfl

theorem erase_loop : (s.erase i).loop = s.loop := by
  unfold State.erase
  split <;> rfl

theorem erase_delivered : (s.erase i).delivered = s.delivered := by
  unfold State.erase
  split <;> rfl

/-! ### `timer_queue` -/

theorem push_perm (times : List (ℤ × ℕ)) (time : ℤ) (op : ℕ) :
    (push times time op).Perm ((time, op) :: times) := by
  rw [push]
  refine List.perm_middle.trans (List.Perm.cons _ ?_)
  rw [List.takeWhile_append_dropWhile]

/-- The latest timer stays in front. -/
theorem push_sorted {times : List (ℤ × ℕ)} (h : times.Pairwise fun p q => q.1 ≤ p.1) (time : ℤ)
    (op : ℕ) : (push times time op).Pairwise fun p q => q.1 ≤ p.1 := by
  have hsplit := h
  rw [← List.takeWhile_append_dropWhile (p := fun p : ℤ × ℕ => time < p.1) (l := times),
    List.pairwise_append] at hsplit
  obtain ⟨hfront, hback, hbetween⟩ := hsplit
  have hgreater : ∀ p ∈ times.takeWhile (fun p => time < p.1), time < p.1 := fun p hp => by
    simpa using List.mem_takeWhile_imp hp
  have hle : ∀ p ∈ times.dropWhile (fun p => time < p.1), p.1 ≤ time := by
    intro p hp
    cases hd : times.dropWhile (fun p => time < p.1) with
    | nil => simp [hd] at hp
    | cons q rest =>
      have hq : ¬time < q.1 := by
        have hhead := List.head?_dropWhile_not (fun p : ℤ × ℕ => decide (time < p.1)) times
        rw [hd] at hhead
        simpa using hhead
      rw [hd] at hp hback
      obtain rfl | hp := List.mem_cons.mp hp
      · exact Int.not_lt.mp hq
      · exact ((List.pairwise_cons.mp hback).1 p hp).trans (Int.not_lt.mp hq)
  rw [push, List.pairwise_append]
  refine ⟨hfront, List.pairwise_cons.mpr ⟨hle, hback⟩, fun p hp q hq => ?_⟩
  obtain rfl | hq := List.mem_cons.mp hq
  · exact (hgreater p hp).le
  · exact hbetween p hp q hq

/-! ### `v[i] = v.back(); v.pop_back()` -/

theorem remove_map {α β : Type*} (f : α → β) (v : List α) (k : ℕ) :
    (remove v k).map f = remove (v.map f) k := by
  unfold remove
  rw [List.getLast?_map]
  cases v.getLast? with
  | none => rfl
  | some x => simp [List.map_set, List.map_dropLast]

theorem remove_concat {α : Type*} (l : List α) (x : α) (k : ℕ) :
    remove (l ++ [x]) k = if k < l.length then l.set k x else l := by
  rw [remove, List.getLast?_concat]
  dsimp only
  split
  · rename_i hk
    rw [List.set_append_left _ _ hk, List.dropLast_concat]
  · rename_i hk
    rw [List.set_append_right _ _ (Nat.le_of_not_lt hk)]
    cases k - l.length <;> simp

theorem set_perm {α : Type*} {l : List α} {k : ℕ} {y : α} (x : α) (h : l[k]? = some y) :
    (y :: l.set k x).Perm (x :: l) := by
  induction l generalizing k with
  | nil => simp at h
  | cons z l ih =>
    cases k with
    | zero =>
      obtain rfl : z = y := by simpa using h
      exact .swap _ _ _
    | succ k =>
      have hk := ih (by simpa using h)
      exact (List.Perm.swap _ _ _).trans ((hk.cons z).trans (.swap _ _ _))

/-- Exactly the element at the index is gone. -/
theorem remove_perm {α : Type*} {v : List α} {k : ℕ} {y : α} (h : v[k]? = some y) :
    (y :: remove v k).Perm v := by
  obtain rfl | ⟨l, x, rfl⟩ := v.eq_nil_or_concat'
  · simp at h
  rw [remove_concat]
  have hk : k < (l ++ [x]).length := (List.getElem?_eq_some_iff.mp h).1
  split
  · rename_i hlt
    rw [List.getElem?_append_left hlt] at h
    exact (set_perm x h).trans (List.perm_append_singleton x l).symm
  · rename_i hlt
    obtain rfl : k = l.length := by
      rw [List.length_append, List.length_singleton] at hk
      exact Nat.le_antisymm (Nat.le_of_lt_succ hk) (Nat.le_of_not_lt hlt)
    rw [List.getElem?_concat_length] at h
    cases h
    exact (List.perm_append_singleton _ l).symm

/-- What is found behind the index was behind it before. -/
theorem getElem?_remove {α : Type*} {v : List α} {k m : ℕ} {y : α}
    (h : (remove v k)[m]? = some y) (hle : k ≤ m) : ∃ m', k < m' ∧ v[m']? = some y := by
  obtain rfl | ⟨l, x, rfl⟩ := v.eq_nil_or_concat'
  · simp [remove] at h
  rw [remove_concat] at h
  split at h
  · rename_i hlt
    obtain rfl | hne := Nat.eq_or_lt_of_le hle
    · rw [List.getElem?_set_self hlt] at h
      cases h
      exact ⟨l.length, hlt, List.getElem?_concat_length ..⟩
    · rw [List.getElem?_set_ne hne.ne] at h
      refine ⟨m, hne, ?_⟩
      rw [List.getElem?_append_left (List.getElem?_eq_some_iff.mp h).1]
      exact h
  · rename_i hge
    exact absurd (hle.trans_lt (List.getElem?_eq_some_iff.mp h).1) hge

/-! ### Steps on the containers -/

theorem Shape.set_loop (h : Shape s es) {l : Loop} (hl : ∀ n, l ≠ .sweep n) :
    Shape { s with loop := l } es := by
  have hs := h.restrict (fun _ he => he) h.nodup fun n hn => absurd hn (hl n)
  rwa [← h.ios, ← h.fds] at hs

theorem Shape.grow (h : Shape s es) (os : List Op) (xs : List (ℕ × Signal)) :
    Shape { s with ops := s.ops ++ os, delivered := s.delivered ++ xs } es := by
  have hold : ∀ {i : ℕ} {o : Op}, s.ops[i]? = some o → (s.ops ++ os)[i]? = some o := fun ho => by
    rw [List.getElem?_append_left (List.getElem?_eq_some_iff.mp ho).1]
    exact ho
  refine ⟨h.ios, h.fds, h.nodup, fun e he => ?_, h.timers, h.sorted, fun p hp => ?_, h.seen⟩
  · obtain ⟨o, fd, events, ho, hrest⟩ := h.entry e he
    exact ⟨o, fd, events, hold ho, hrest⟩
  · obtain ⟨o, ho, htask⟩ := h.timer p hp
    exact ⟨o, hold ho, htask⟩

theorem not_ready {p : Pollfd} (h : p.revents = 0) : p.ready = false := by
  simp [Pollfd.ready, h]

theorem Shape.add_io {o : Op} {fd : ℤ} {events : EventKind} (h : Shape s es)
    (ho : s.ops[i]? = some o) (htask : o.task = .io fd events) (hnew : i ∉ s.ios) :
    Shape (s.add i (.io fd events)) (es ++ [(i, ⟨fd, to_poll events, 0⟩)]) := by
  refine ⟨?_, ?_, ?_, fun e he => ?_, h.timers, h.sorted, h.timer, fun n hn k e hk hle => ?_⟩
  · rw [State.add, List.map_append, ← h.ios]
    rfl
  · rw [State.add, List.map_append, ← h.fds]
    rfl
  · rw [List.map_append, ← h.ios]
    exact (h.ios ▸ h.nodup).append (List.nodup_singleton i)
      (List.disjoint_singleton.mpr hnew)
  · obtain he | he := List.mem_append.mp he
    · exact h.entry e he
    · cases List.mem_singleton.mp he
      exact ⟨o, fd, events, ho, htask, rfl, rfl⟩
  · obtain hlt | hge := Nat.lt_or_ge k es.length
    · rw [List.getElem?_append_left hlt] at hk
      exact h.seen n hn k e hk hle
    · rw [List.getElem?_append_right hge] at hk
      cases List.mem_singleton.mp (List.mem_of_getElem? hk)
      exact not_ready rfl

theorem Shape.add_time {o : Op} {deadline : ℤ} (h : Shape s es) (ho : s.ops[i]? = some o)
    (htask : o.task = .time deadline) (hnew : i ∉ s.times.map Prod.snd) :
    Shape (s.add i (.time deadline)) es := by
  have hperm := push_perm s.times deadline i
  refine ⟨h.ios, h.fds, h.nodup, h.entry, ?_, push_sorted h.sorted deadline i, fun p hp => ?_,
    h.seen⟩
  · exact (hperm.map Prod.snd).nodup_iff.mpr (List.nodup_cons.mpr ⟨hnew, h.timers⟩)
  · obtain rfl | hp := List.mem_cons.mp (hperm.mem_iff.mp hp)
    · exact ⟨o, ho, htask⟩
    · exact h.timer p hp

theorem Shape.fire {time : ℤ} {rest : List (ℤ × ℕ)} (h : Shape s es)
    (htimes : s.times = (time, i) :: rest) (now : ℤ) :
    Shape { s with times := rest, loop := .timers now true } es := by
  have htimers := h.timers
  have hsorted := h.sorted
  rw [htimes] at htimers hsorted
  have hloop := h.set_loop (l := .timers now true) nofun
  exact ⟨h.ios, h.fds, h.nodup, h.entry, (List.nodup_cons.mp htimers).2,
    (List.pairwise_cons.mp hsorted).2, fun p hp => h.timer p (htimes ▸ List.mem_cons_of_mem _ hp),
    hloop.seen⟩

/-- What `poll` reports is written to the entries. -/
theorem Shape.poll {revents : List ℕ} {l : Loop} (h : Shape s es)
    (hlength : revents.length = s.fds.length) (hl : ∀ n, l = .sweep n → n = s.fds.length) :
    Shape { s with fds := s.fds.zipWith (fun p r => { p with revents := r }) revents, loop := l }
      (es.zipWith (fun e r => (e.1, { e.2 with revents := r })) revents) := by
  have hes : revents.length = es.length := by rw [hlength, h.fds, List.length_map]
  have hfst : (es.zipWith (fun e r => (e.1, { e.2 with revents := r })) revents).map Prod.fst =
      es.map Prod.fst :=
    List.ext_getElem (by simp [hes]) (by simp)
  refine ⟨h.ios.trans hfst.symm, ?_, hfst ▸ h.nodup, fun e he => ?_, h.timers, h.sorted, h.timer,
    fun n hn k e hk hle => ?_⟩
  · dsimp only
    rw [h.fds, List.zipWith_map_left, List.map_zipWith]
  · obtain ⟨k, hk, rfl⟩ := List.getElem_of_mem he
    have hlt : k < es.length := by
      rw [List.length_zipWith] at hk
      exact Nat.lt_of_lt_of_le hk (Nat.min_le_left ..)
    rw [List.getElem_zipWith]
    have hentry := h.entry es[k] (List.getElem_mem _)
    exact hentry
  · have hk' := (List.getElem?_eq_some_iff.mp hk).1
    rw [List.length_zipWith, hes, Nat.min_self] at hk'
    rw [hl n hn, h.fds, List.length_map] at hle
    exact absurd hk' (Nat.not_lt.mpr hle)

theorem Shape.skip (h : Shape s es) (hloop : s.loop = .sweep (i + 1))
    (hi : ∀ e, es[i]? = some e → e.2.ready = false) : Shape { s with loop := .sweep i } es := by
  have hs := h.restrict (l := .sweep i) (fun _ he => he) h.nodup fun n hn k e hk hle => by
    cases hn
    obtain rfl | hlt := Nat.eq_or_lt_of_le hle
    · exact hi e hk
    · exact h.seen _ hloop k e hk hlt
  rwa [← h.ios, ← h.fds] at hs

theorem Shape.take {c : ℕ} {p : Pollfd} (h : Shape s es) (hloop : s.loop = .sweep (i + 1))
    (hi : es[i]? = some (c, p)) :
    Shape { s with fds := remove s.fds i, ios := remove s.ios i, loop := .sweep i }
      (remove es i) := by
  have hperm := remove_perm hi
  have hs := h.restrict (l := .sweep i)
    (fun e he => hperm.mem_iff.mp (List.mem_cons_of_mem _ he))
    (List.nodup_cons.mp ((hperm.map Prod.fst).nodup_iff.mpr h.nodup)).2
    fun n hn k e hk hle => by
      cases hn
      obtain ⟨m, hlt, hm⟩ := getElem?_remove hk hle
      exact h.seen _ hloop m e hm hlt
  rwa [remove_map, remove_map, ← h.ios, ← h.fds] at hs

end Containers

end Kuhllib.Toy.PollContext
