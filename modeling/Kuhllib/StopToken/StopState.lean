import Kuhllib.Lib.Stacks
import Kuhllib.Lib.Transition

/-!
# `nstd::stop_token_ns::stop_source` and `stop_callback`

Any number of threads run `insert`, `erase` and `request_stop` on one
`stop_state`. A thread is a stack of frames, innermost first; a frame is a point
of one of the functions, in front of an access of the state. The sections
between `d_busy.exchange(true)` and `d_busy = false` are taken apart too: user
code runs in them, as a frame `body`, and it may start further operations.

`State.phase` is the discipline of the clients: the constructor of a
`stop_callback` inserts it, and its destructor erases it once the constructor
has returned.

`inv_step`: in every run the lock, the winning `request_stop` and the operation on
a callback have one thread each, and callbacks run in a section.
-/

namespace Kuhllib.StopState

open Stacks Transition

/-- `d_list`, as a sequence, and the two flags. -/
structure Memory (κ : Type) where
  d_list : List κ
  d_stop_requested : Bool
  d_busy : Bool

/-- Who calls `call()` of a callback. -/
inductive Caller
  | insert
  | call
  deriving DecidableEq, Repr

/-- What a step does, as far as a client or the list of callbacks can tell. -/
inductive Event (κ : Type)
  | insertStart (c : κ)
  | link (c : κ)
  | insertReturn (c : κ)
  | eraseStart (c : κ)
  | unlink (c : κ)
  | eraseReturn (c : κ)
  | requestStart
  | requestWin
  | pop
  | requestReturn (won : Bool)
  | call (by' : Caller) (c : κ)
  | bodyReturn (c : κ)
  | tau
  deriving DecidableEq, Repr

/-- The points of the functions. -/
inductive Frame (κ : Type)
  | insertLock (c : κ)
  | insertLink (c : κ)
  | insertCheck (c : κ)
  | insertUnlock (c : κ)
  | insertReturn (c : κ)
  | eraseLock (c : κ)
  | eraseUnlink (c : κ)
  | eraseUnlock (c : κ)
  | eraseReturn (c : κ)
  | requestExchange
  | callLock
  | callTest
  | callPop
  | callUnlock
  | requestReturn (won : Bool)
  | body (c : κ)
  deriving DecidableEq, Repr

/-- The life of a callback; an operation in progress knows its thread. -/
inductive Phase (τ : Type)
  | fresh
  | inserting (t : τ)
  | inserted
  | erasing (t : τ)
  | erased
  deriving DecidableEq, Repr

variable {κ τ : Type} [DecidableEq κ] [DecidableEq τ]

/-- One round of `while (d_busy.exchange(true))`. -/
def Memory.lock (m : Memory κ) (spin locked : Frame κ) : Event κ × Memory κ × List (Frame κ) :=
  if m.d_busy then (.tau, m, [spin]) else (.tau, { m with d_busy := true }, [locked])

/-- One frame up to its next access: the event, the new memory, and the frames
that replace it. -/
def exec (m : Memory κ) : Frame κ → Event κ × Memory κ × List (Frame κ)
  -- insert(callback)
  | .insertLock c => m.lock (.insertLock c) (.insertLink c)
  | .insertLink c => (.link c, { m with d_list := m.d_list ++ [c] }, [.insertCheck c])
  | .insertCheck c =>
    if m.d_stop_requested then (.call .insert c, m, [.body c, .insertUnlock c])
    else (.tau, m, [.insertUnlock c])
  | .insertUnlock c => (.tau, { m with d_busy := false }, [.insertReturn c])
  | .insertReturn c => (.insertReturn c, m, [])
  -- erase(it)
  | .eraseLock c => m.lock (.eraseLock c) (.eraseUnlink c)
  | .eraseUnlink c => (.unlink c, { m with d_list := m.d_list.erase c }, [.eraseUnlock c])
  | .eraseUnlock c => (.tau, { m with d_busy := false }, [.eraseReturn c])
  | .eraseReturn c => (.eraseReturn c, m, [])
  -- request_stop() and call()
  | .requestExchange =>
    if m.d_stop_requested then (.tau, m, [.requestReturn false])
    else (.requestWin, { m with d_stop_requested := true }, [.callLock])
  | .callLock => m.lock .callLock .callTest
  | .callTest =>
    match m.d_list with
    | [] => (.tau, m, [.callUnlock])
    | c :: _ => (.call .call c, m, [.body c, .callPop])
  | .callPop => (.pop, { m with d_list := m.d_list.tail }, [.callTest])
  | .callUnlock => (.tau, { m with d_busy := false }, [.requestReturn true])
  | .requestReturn won => (.requestReturn won, m, [])
  -- the callback returns
  | .body c => (.bodyReturn c, m, [])

structure State (τ κ : Type) where
  mem : Memory κ
  threads : τ → List (Frame κ)
  phase : κ → Phase τ

def State.initial : State τ κ where
  mem := ⟨[], false, false⟩
  threads _ := []
  phase _ := .fresh

/-- User code is running: outside of all operations or in a callback. -/
def userCode : List (Frame κ) → Bool
  | [] => true
  | .body _ :: _ => true
  | _ => false

/-- What a thread does next: run its innermost frame, or, from user code, start
an operation. -/
inductive Choice (κ : Type)
  | run
  | insert (c : κ)
  | erase (c : κ)
  | request_stop
  deriving DecidableEq, Repr

def phaseAfter (ph : κ → Phase τ) (t : τ) : Event κ → κ → Phase τ
  | .insertStart c => Function.update ph c (.inserting t)
  | .insertReturn c => Function.update ph c .inserted
  | .eraseStart c => Function.update ph c (.erasing t)
  | .eraseReturn c => Function.update ph c .erased
  | _ => ph

/-- Push the first frame of an operation. -/
def State.start (s : State τ κ) (t : τ) (e : Event κ) (f : Frame κ) : Event κ × State τ κ :=
  (e, ⟨s.mem, set s.threads t ([f] ++ s.threads t), phaseAfter s.phase t e⟩)

/-- The step of thread `t`, if it can make the choice. -/
def next (s : State τ κ) (t : τ) : Choice κ → Option (Event κ × State τ κ)
  | .run =>
    match s.threads t with
    | [] => none
    | f :: fs =>
      let r := exec s.mem f
      some (r.1, ⟨r.2.1, set s.threads t (r.2.2 ++ fs), phaseAfter s.phase t r.1⟩)
  | .insert c =>
    if userCode (s.threads t) ∧ s.phase c = .fresh then
      some (s.start t (.insertStart c) (.insertLock c))
    else none
  | .erase c =>
    if userCode (s.threads t) ∧ s.phase c = .inserted then
      some (s.start t (.eraseStart c) (.eraseLock c))
    else none
  | .request_stop =>
    if userCode (s.threads t) then some (s.start t .requestStart .requestExchange) else none

/-- The state under any number of threads. A label is a thread and what it did. -/
def system (τ κ : Type) [DecidableEq κ] [DecidableEq τ] : System (State τ κ) (τ × Event κ) where
  init s := s = State.initial
  step s l s' := ∃ ch, next s l.1 ch = some (l.2, s')

/-- The state under a list of choices, each made by a thread. -/
def run (s : State τ κ) : List (τ × Choice κ) → Option (List (τ × Event κ) × State τ κ) :=
  play (fun s (l : τ × Choice κ) => (next s l.1 l.2).map fun r => ((l.1, r.1), r.2)) s

theorem step_of_next {s s' : State τ κ} {l : τ × Choice κ} {e : τ × Event κ}
    (h : (next s l.1 l.2).map (fun r => ((l.1, r.1), r.2)) = some (e, s')) :
    (system τ κ).step s e s' := by
  obtain ⟨⟨e', s''⟩, hn, he⟩ := Option.map_eq_some_iff.mp h
  cases he
  exact ⟨l.2, hn⟩

/-- The run along a list of choices. -/
theorem run_play {s : State τ κ} (ls : List (τ × Choice κ)) (h : (run s ls).isSome) :
    Run (system τ κ) s ((run s ls).get h).1 ((run s ls).get h).2 :=
  play_run (fun _ _ _ _ => step_of_next) (Option.some_get h).symm

/-- A step either runs the innermost frame of a thread or starts an operation. -/
theorem step_cases {s s' : State τ κ} {t : τ} {e : Event κ} (h : (system τ κ).step s (t, e) s') :
    (∃ f fs, s.threads t = f :: fs ∧ e = (exec s.mem f).1 ∧
      s' = ⟨(exec s.mem f).2.1, set s.threads t ((exec s.mem f).2.2 ++ fs),
        phaseAfter s.phase t e⟩) ∨
    (userCode (s.threads t) = true ∧ ∃ f, (e, s') = s.start t e f ∧
      ((∃ c, e = .insertStart c ∧ f = .insertLock c ∧ s.phase c = .fresh) ∨
        (∃ c, e = .eraseStart c ∧ f = .eraseLock c ∧ s.phase c = .inserted) ∨
        (e = .requestStart ∧ f = .requestExchange))) := by
  obtain ⟨ch, hn⟩ := h
  cases ch with
  | run =>
    simp only [next] at hn
    split at hn
    · cases hn
    · next f fs hf =>
      simp only [Option.some.injEq, Prod.mk.injEq] at hn
      exact .inl ⟨f, fs, hf, hn.1.symm, by rw [← hn.2, ← hn.1]⟩
  | insert c =>
    simp only [next, Option.ite_none_right_eq_some, Option.some.injEq] at hn
    obtain ⟨⟨hu, hp⟩, hn⟩ := hn
    obtain rfl : Event.insertStart c = e := congrArg Prod.fst hn
    exact .inr ⟨hu, _, hn.symm, .inl ⟨c, rfl, rfl, hp⟩⟩
  | erase c =>
    simp only [next, Option.ite_none_right_eq_some, Option.some.injEq] at hn
    obtain ⟨⟨hu, hp⟩, hn⟩ := hn
    obtain rfl : Event.eraseStart c = e := congrArg Prod.fst hn
    exact .inr ⟨hu, _, hn.symm, .inr (.inl ⟨c, rfl, rfl, hp⟩)⟩
  | request_stop =>
    simp only [next, Option.ite_none_right_eq_some, Option.some.injEq] at hn
    obtain ⟨hu, hn⟩ := hn
    obtain rfl : Event.requestStart = e := congrArg Prod.fst hn
    exact .inr ⟨hu, _, hn.symm, .inr (.inr ⟨rfl, rfl⟩)⟩

/-! ## 1. Threads -/

/-- The frames from the lock of `d_busy` to its release. -/
def Frame.holding : Frame κ → Bool
  | .insertLink _ | .insertCheck _ | .insertUnlock _ | .eraseUnlink _ | .eraseUnlock _ | .callTest
  | .callPop | .callUnlock => true
  | .insertLock _ | .insertReturn _ | .eraseLock _ | .eraseReturn _ | .requestExchange | .callLock
  | .requestReturn _ | .body _ => false

/-- The frames of the `request_stop` that set `d_stop_requested`. -/
def Frame.winning : Frame κ → Bool
  | .callLock | .callTest | .callPop | .callUnlock | .requestReturn true => true
  | .insertLock _ | .insertLink _ | .insertCheck _ | .insertUnlock _ | .insertReturn _ | .eraseLock _
  | .eraseUnlink _ | .eraseUnlock _ | .eraseReturn _ | .requestExchange | .requestReturn false
  | .body _ => false

def Frame.inserts : Frame κ → Option κ
  | .insertLock c | .insertLink c | .insertCheck c | .insertUnlock c | .insertReturn c => some c
  | .eraseLock _ | .eraseUnlink _ | .eraseUnlock _ | .eraseReturn _ | .requestExchange | .callLock
  | .callTest | .callPop | .callUnlock | .requestReturn _ | .body _ => none

def Frame.erases : Frame κ → Option κ
  | .eraseLock c | .eraseUnlink c | .eraseUnlock c | .eraseReturn c => some c
  | .insertLock _ | .insertLink _ | .insertCheck _ | .insertUnlock _ | .insertReturn _
  | .requestExchange | .callLock | .callTest | .callPop | .callUnlock | .requestReturn _
  | .body _ => none

/-- The operations on a callback. -/
def Frame.isOn (c : κ) (f : Frame κ) : Bool := f.inserts = some c ∨ f.erases = some c

def Phase.thread : Phase τ → Option τ
  | .inserting t | .erasing t => some t
  | .fresh | .inserted | .erased => none

/-- A callback runs above the frame that called it, which holds `d_busy`, and what
it starts neither gets the lock nor calls back. -/
inductive Shape : List (Frame κ) → Prop
  | nil : Shape []
  | single {f : Frame κ} : (∀ c, f ≠ .body c) → Shape [f]
  | body {c : κ} {g : Frame κ} : g = .insertUnlock c ∨ g = .callPop → Shape [.body c, g]
  | nested {f g : Frame κ} {c : κ} :
      (∃ c', f = .insertLock c' ∨ f = .eraseLock c') ∨ f = .requestExchange ∨
        f = .requestReturn false →
      g = .insertUnlock c ∨ g = .callPop → Shape [f, .body c, g]

structure Inv (s : State τ κ) : Prop where
  busy : ∃ o, Sole Frame.holding s.threads o ∧ s.mem.d_busy = o.isSome
  winner : ∃ o, Sole Frame.winning s.threads o ∧ (o ≠ none → s.mem.d_stop_requested = true)
  on : ∀ c, Sole (Frame.isOn c) s.threads (s.phase c).thread
  inserts : ∀ t, ∀ f ∈ s.threads t, ∀ c, f.inserts = some c → s.phase c = .inserting t
  erases : ∀ t, ∀ f ∈ s.threads t, ∀ c, f.erases = some c → s.phase c = .erasing t
  shape : ∀ t, Shape (s.threads t)
  bodies : ∀ t c, .body c ∈ s.threads t → s.mem.d_stop_requested = true

namespace StopStateLemmas

omit [DecidableEq τ]

/-- How a frame changes `d_busy`. -/
theorem exec_busy (m : Memory κ) (f : Frame κ) :
    ((exec m f).2.1.d_busy = m.d_busy ∧
      (exec m f).2.2.countP Frame.holding = [f].countP Frame.holding) ∨
    (m.d_busy = false ∧ (exec m f).2.1.d_busy = true ∧ f.holding = false ∧
      (exec m f).2.2.countP Frame.holding = 1) ∨
    ((exec m f).2.1.d_busy = false ∧ f.holding = true ∧
      (exec m f).2.2.countP Frame.holding = 0) := by
  cases f with
  | insertLock c | eraseLock c | callLock =>
    cases hb : m.d_busy with
    | true => exact .inl (by simp [exec, Memory.lock, hb])
    | false => exact .inr (.inl (by simp [exec, Memory.lock, hb, Frame.holding]))
  | insertUnlock c | eraseUnlock c | callUnlock =>
    exact .inr (.inr (by simp [exec, Frame.holding]))
  | insertCheck c =>
    left
    cases hr : m.d_stop_requested <;> simp [exec, hr, List.countP_cons, Frame.holding]
  | requestExchange =>
    left
    cases hr : m.d_stop_requested <;> simp [exec, hr, Frame.holding]
  | callTest =>
    left
    cases hl : m.d_list <;> simp [exec, hl, List.countP_cons, Frame.holding]
  | insertLink c | insertReturn c | eraseUnlink c | eraseReturn c | callPop | requestReturn won
  | body c => exact .inl (by simp [exec, List.countP_cons, Frame.holding])

/-- How a frame changes `d_stop_requested`. -/
theorem exec_winner (m : Memory κ) (f : Frame κ) :
    ((exec m f).2.1.d_stop_requested = m.d_stop_requested ∧
      (exec m f).2.2.countP Frame.winning = [f].countP Frame.winning) ∨
    (m.d_stop_requested = false ∧ (exec m f).2.1.d_stop_requested = true ∧ f.winning = false ∧
      (exec m f).2.2.countP Frame.winning = 1) ∨
    ((exec m f).2.1.d_stop_requested = m.d_stop_requested ∧ f.winning = true ∧
      (exec m f).2.2.countP Frame.winning = 0) := by
  cases f with
  | insertLock c | eraseLock c | callLock =>
    left
    cases hb : m.d_busy <;> simp [exec, Memory.lock, hb, List.countP_cons, Frame.winning]
  | insertCheck c =>
    left
    cases hr : m.d_stop_requested <;> simp [exec, hr, Frame.winning]
  | requestExchange =>
    cases hr : m.d_stop_requested with
    | true => exact .inl (by simp [exec, hr, Frame.winning])
    | false => exact .inr (.inl (by simp [exec, hr, Frame.winning]))
  | callTest =>
    left
    cases hl : m.d_list <;> simp [exec, hl, List.countP_cons, Frame.winning]
  | requestReturn won =>
    cases won with
    | true => exact .inr (.inr (by simp [exec, Frame.winning]))
    | false => exact .inl (by simp [exec, Frame.winning])
  | insertLink c | insertUnlock c | insertReturn c | eraseUnlink c | eraseUnlock c | eraseReturn c
  | callPop | callUnlock | body c => exact .inl (by simp [exec, List.countP_cons, Frame.winning])

theorem exec_requested (m : Memory κ) (f : Frame κ) (h : m.d_stop_requested = true) :
    (exec m f).2.1.d_stop_requested = true := by
  rcases exec_winner m f with ⟨he, -⟩ | ⟨-, he, -⟩ | ⟨he, -⟩
  · rw [he, h]
  · exact he
  · rw [he, h]

/-- The frames that replace a frame belong to the same operation. -/
theorem exec_operation (m : Memory κ) (f : Frame κ) :
    ∀ g ∈ (exec m f).2.2, (∀ c, g.inserts = some c → f.inserts = some c) ∧
      ∀ c, g.erases = some c → f.erases = some c := by
  cases f with
  | insertLock c | eraseLock c | callLock =>
    cases hb : m.d_busy <;> simp [exec, Memory.lock, hb, Frame.inserts, Frame.erases]
  | insertCheck c =>
    cases hr : m.d_stop_requested <;> simp [exec, hr, Frame.inserts, Frame.erases]
  | requestExchange =>
    cases hr : m.d_stop_requested <;> simp [exec, hr, Frame.inserts, Frame.erases]
  | callTest => cases hl : m.d_list <;> simp [exec, hl, Frame.inserts, Frame.erases]
  | insertLink c | insertUnlock c | insertReturn c | eraseUnlink c | eraseUnlock c | eraseReturn c
  | callPop | callUnlock | requestReturn won | body c =>
    simp [exec, Frame.inserts, Frame.erases]

/-- Only the return of `insert` and `erase` ends an operation on a callback. -/
theorem exec_phase (ph : κ → Phase τ) (t : τ) (m : Memory κ) (f : Frame κ) :
    (phaseAfter ph t (exec m f).1 = ph ∧
      ∀ c, (exec m f).2.2.countP (Frame.isOn c) = [f].countP (Frame.isOn c)) ∨
    (∃ c, f = .insertReturn c ∧ exec m f = (.insertReturn c, m, [])) ∨
    ∃ c, f = .eraseReturn c ∧ exec m f = (.eraseReturn c, m, []) := by
  cases f with
  | insertReturn c => exact .inr (.inl ⟨c, rfl, rfl⟩)
  | eraseReturn c => exact .inr (.inr ⟨c, rfl, rfl⟩)
  | insertLock c | eraseLock c | callLock =>
    left
    cases hb : m.d_busy <;>
      simp [exec, Memory.lock, hb, phaseAfter, Frame.isOn, Frame.inserts, Frame.erases, List.countP_cons]
  | insertCheck c =>
    left
    cases hr : m.d_stop_requested <;>
      simp [exec, hr, phaseAfter, Frame.isOn, Frame.inserts, Frame.erases, List.countP_cons]
  | requestExchange =>
    left
    cases hr : m.d_stop_requested <;>
      simp [exec, hr, phaseAfter, Frame.isOn, Frame.inserts, Frame.erases]
  | callTest =>
    left
    cases hl : m.d_list <;> simp [exec, hl, phaseAfter, Frame.isOn, Frame.inserts, Frame.erases]
  | insertLink c | insertUnlock c | eraseUnlink c | eraseUnlock c | callPop | callUnlock
  | requestReturn won | body c =>
    exact .inl (by simp [exec, phaseAfter, Frame.isOn, Frame.inserts, Frame.erases, List.countP_cons])

/-- A frame that is alone on its stack. -/
theorem shape_exec (m : Memory κ) {f : Frame κ} (hf : ∀ c, f ≠ .body c) :
    Shape (exec m f).2.2 := by
  cases f with
  | insertLock c | eraseLock c | callLock =>
    cases hb : m.d_busy <;> simp only [exec, Memory.lock, hb] <;> exact .single (by simp)
  | insertCheck c =>
    cases hr : m.d_stop_requested with
    | true =>
      simp only [exec, hr, if_true]
      exact .body (.inl rfl)
    | false =>
      simp only [exec, hr]
      exact .single (by simp)
  | requestExchange =>
    cases hr : m.d_stop_requested <;> simp only [exec, hr] <;> exact .single (by simp)
  | callTest =>
    cases hl : m.d_list with
    | nil =>
      simp only [exec, hl]
      exact .single (by simp)
    | cons c cs =>
      simp only [exec, hl]
      exact .body (.inr rfl)
  | insertReturn c | eraseReturn c | requestReturn won => exact .nil
  | insertLink c | insertUnlock c | eraseUnlink c | eraseUnlock c | callPop | callUnlock =>
    exact .single (by simp)
  | body c => exact absurd rfl (hf c)

end StopStateLemmas

namespace StopStateLemmas

theorem shape_step {s : State τ κ} {t : τ} {f : Frame κ} {fs : List (Frame κ)} (h : Inv s)
    (hst : s.threads t = f :: fs) : Shape ((exec s.mem f).2.2 ++ fs) := by
  have hshape := h.shape t
  rw [hst] at hshape
  generalize hl : f :: fs = l at hshape
  cases hshape with
  | nil => cases hl
  | @single f' hf =>
    cases hl
    rw [List.append_nil]
    exact shape_exec s.mem hf
  | @body c g hg =>
    cases hl
    rcases hg with rfl | rfl <;> exact .single (by simp)
  | @nested f' g c hf hg =>
    cases hl
    -- the frame below holds the lock
    have hbusy : s.mem.d_busy = true := by
      obtain ⟨o, ho, hb⟩ := h.busy
      have hholding : g.holding = true := by rcases hg with rfl | rfl <;> rfl
      rw [hb, ho.owner (t := t) (by rw [hst]; simp) hholding]
      rfl
    have hrequested := h.bodies t c (by rw [hst]; simp)
    rcases hf with ⟨c', rfl | rfl⟩ | rfl | rfl
    · simp only [exec, Memory.lock, hbusy, if_true]
      exact .nested (.inl ⟨c', .inl rfl⟩) hg
    · simp only [exec, Memory.lock, hbusy, if_true]
      exact .nested (.inl ⟨c', .inr rfl⟩) hg
    · simp only [exec, hrequested, if_true]
      exact .nested (.inr (.inr rfl)) hg
    · exact .body hg

/-- The callbacks that a frame calls. -/
theorem exec_bodies {s : State τ κ} {t : τ} {f : Frame κ} {fs : List (Frame κ)} (h : Inv s)
    (hst : s.threads t = f :: fs) {c : κ} (hc : .body c ∈ (exec s.mem f).2.2) :
    s.mem.d_stop_requested = true := by
  cases f with
  | insertCheck c' =>
    cases hr : s.mem.d_stop_requested with
    | true => rfl
    | false => simp [exec, hr] at hc
  | callTest =>
    obtain ⟨o, ho, hr⟩ := h.winner
    have := ho.owner (t := t) (f := .callTest) (by rw [hst]; exact List.mem_cons_self) rfl
    exact hr (by simp [this])
  | insertLock c' | eraseLock c' | callLock =>
    cases hb : s.mem.d_busy <;> simp [exec, Memory.lock, hb] at hc
  | requestExchange => cases hr : s.mem.d_stop_requested <;> simp [exec, hr] at hc
  | insertLink c' | insertUnlock c' | insertReturn c' | eraseUnlink c' | eraseUnlock c'
  | eraseReturn c' | callPop | callUnlock | requestReturn won | body c' => simp [exec] at hc

end StopStateLemmas

open StopStateLemmas

theorem inv_initial : Inv (State.initial : State τ κ) where
  busy := ⟨none, fun _ => rfl, rfl⟩
  winner := ⟨none, fun _ => rfl, fun h => absurd rfl h⟩
  on _ _ := rfl
  inserts _ _ hf := absurd hf List.not_mem_nil
  erases _ _ hf := absurd hf List.not_mem_nil
  shape _ := .nil
  bodies _ _ hf := absurd hf List.not_mem_nil

namespace StopStateLemmas

omit [DecidableEq κ] in
/-- The frames after a step. -/
theorem mem_exec {s : State τ κ} {t t' : τ} {f g : Frame κ} {fs gs : List (Frame κ)}
    (hst : s.threads t = f :: fs) (hg : g ∈ set s.threads t (gs ++ fs) t') :
    (t' = t ∧ g ∈ gs) ∨ g ∈ s.threads t' := by
  rcases mem_set hg with ⟨ht, hg'⟩ | ⟨ht, hg'⟩ | ⟨-, hg'⟩
  · exact .inl ⟨ht, hg'⟩
  · exact .inr (by rw [ht, hst]; exact List.mem_cons_of_mem _ hg')
  · exact .inr hg'

/-- The return of an operation on `c'`. -/
theorem on_return {s : State τ κ} {t : τ} {f : Frame κ} {fs : List (Frame κ)} {c' : κ}
    {p : Phase τ} (h : Inv s) (hst : s.threads t = f :: fs) (hp : p.thread = none)
    (hf : ∀ c, f.isOn c = decide (c = c')) (c : κ) :
    Sole (Frame.isOn c) (set s.threads t ([] ++ fs)) (Function.update s.phase c' p c).thread := by
  have hon := h.on c
  rcases eq_or_ne c c' with rfl | hne
  · rw [Function.update_self, hp]
    exact hon.release hst (by simp [hf]) rfl
  · rw [Function.update_of_ne hne]
    exact hon.keep hst (by simp [hf, hne])

theorem inserts_isOn {f : Frame κ} {c : κ} (h : f.inserts = some c) : f.isOn c = true := by
  simp [Frame.isOn, h]

theorem erases_isOn {f : Frame κ} {c : κ} (h : f.erases = some c) : f.isOn c = true := by
  simp [Frame.isOn, h]

end StopStateLemmas

/-- A frame takes a step. -/
theorem inv_exec {s : State τ κ} {t : τ} {f : Frame κ} {fs : List (Frame κ)} (h : Inv s)
    (hst : s.threads t = f :: fs) :
    Inv ⟨(exec s.mem f).2.1, set s.threads t ((exec s.mem f).2.2 ++ fs),
      phaseAfter s.phase t (exec s.mem f).1⟩ := by
  have hmem : f ∈ s.threads t := by rw [hst]; exact List.mem_cons_self
  have hon : ∀ c, Sole (Frame.isOn c) (set s.threads t ((exec s.mem f).2.2 ++ fs))
      (phaseAfter s.phase t (exec s.mem f).1 c).thread := by
    intro c
    rcases exec_phase s.phase t s.mem f with ⟨hp, hc⟩ | ⟨c', rfl, he⟩ | ⟨c', rfl, he⟩
    · rw [hp]
      exact (h.on c).keep hst (hc c)
    · rw [he]
      exact on_return h hst rfl (fun c => by simp [Frame.isOn, Frame.inserts, Frame.erases, eq_comm]) c
    · rw [he]
      exact on_return h hst rfl (fun c => by simp [Frame.isOn, Frame.inserts, Frame.erases, eq_comm]) c
  -- the phase of a callback that an operation is on does not change
  have hphase : ∀ t' g, g ∈ set s.threads t ((exec s.mem f).2.2 ++ fs) t' → ∀ c,
      g.isOn c = true → phaseAfter s.phase t (exec s.mem f).1 c = s.phase c := by
    intro t' g hg c hc
    have howner := (hon c).owner hg hc
    rcases exec_phase s.phase t s.mem f with ⟨hp, -⟩ | ⟨c', rfl, he⟩ | ⟨c', rfl, he⟩
    · rw [hp]
    · rw [he] at howner ⊢
      rcases eq_or_ne c c' with rfl | hne
      · simp [phaseAfter, Phase.thread] at howner
      · exact Function.update_of_ne hne _ _
    · rw [he] at howner ⊢
      rcases eq_or_ne c c' with rfl | hne
      · simp [phaseAfter, Phase.thread] at howner
      · exact Function.update_of_ne hne _ _
  refine ⟨?_, ?_, hon, fun t' g hg c hc => ?_, fun t' g hg c hc => ?_, fun t' => ?_,
    fun t' c hc => ?_⟩
  · obtain ⟨o, ho, hb⟩ := h.busy
    rcases exec_busy s.mem f with ⟨he, hc⟩ | ⟨hfree, he, hf, hc⟩ | ⟨he, hf, hc⟩
    · exact ⟨o, ho.keep hst hc, he.trans hb⟩
    · obtain rfl : o = none := by
        rw [hb] at hfree
        simpa using hfree
      exact ⟨some t, ho.acquire hst hf hc, he⟩
    · exact ⟨none, ho.release hst hf hc, he⟩
  · obtain ⟨o, ho, hr⟩ := h.winner
    rcases exec_winner s.mem f with ⟨he, hc⟩ | ⟨hnot, he, hf, hc⟩ | ⟨he, hf, hc⟩
    · exact ⟨o, ho.keep hst hc, fun hne => he.trans (hr hne)⟩
    · obtain rfl : o = none := by
        by_contra hne
        rw [hr hne] at hnot
        cases hnot
      exact ⟨some t, ho.acquire hst hf hc, fun _ => he⟩
    · exact ⟨none, ho.release hst hf hc, fun hne => absurd rfl hne⟩
  · show phaseAfter s.phase t (exec s.mem f).1 c = _
    rw [hphase t' g hg c (inserts_isOn hc)]
    rcases mem_exec hst hg with ⟨rfl, hg'⟩ | hg'
    · exact h.inserts t' f hmem c ((exec_operation s.mem f g hg').1 c hc)
    · exact h.inserts t' g hg' c hc
  · show phaseAfter s.phase t (exec s.mem f).1 c = _
    rw [hphase t' g hg c (erases_isOn hc)]
    rcases mem_exec hst hg with ⟨rfl, hg'⟩ | hg'
    · exact h.erases t' f hmem c ((exec_operation s.mem f g hg').2 c hc)
    · exact h.erases t' g hg' c hc
  · rcases eq_or_ne t' t with rfl | hne
    · simpa using shape_step h hst
    · simpa [hne] using h.shape t'
  · refine exec_requested s.mem f ?_
    rcases mem_exec hst hc with ⟨-, hc'⟩ | hc'
    · exact exec_bodies h hst hc'
    · exact h.bodies t' c hc'

namespace StopStateLemmas

omit [DecidableEq κ] [DecidableEq τ] in
theorem shape_start {st : List (Frame κ)} {f : Frame κ} (h : Shape st) (hu : userCode st = true)
    (hf : (∃ c', f = .insertLock c' ∨ f = .eraseLock c') ∨ f = .requestExchange) :
    Shape (f :: st) := by
  cases h with
  | nil =>
    refine .single fun c => ?_
    rcases hf with ⟨c', rfl | rfl⟩ | rfl <;> simp
  | @single g hg =>
    cases g with
    | body c => exact absurd rfl (hg c)
    | _ => cases hu
  | body hg => exact .nested (hf.imp id .inl) hg
  | nested hf' _ => rcases hf' with ⟨c', rfl | rfl⟩ | rfl | rfl <;> cases hu

/-- What the start of an operation leaves unchanged. -/
theorem inv_push {s : State τ κ} {t : τ} {f : Frame κ} {ph : κ → Phase τ} (h : Inv s)
    (hu : userCode (s.threads t) = true)
    (hf : (∃ c', f = .insertLock c' ∨ f = .eraseLock c') ∨ f = .requestExchange)
    (hon : ∀ c, Sole (Frame.isOn c) (set s.threads t ([f] ++ s.threads t)) (ph c).thread)
    (hnew : ∀ c, (f.inserts = some c → ph c = .inserting t) ∧ (f.erases = some c → ph c = .erasing t))
    (hold : ∀ c, (∃ t, s.phase c = .inserting t ∨ s.phase c = .erasing t) → ph c = s.phase c) :
    Inv ⟨s.mem, set s.threads t ([f] ++ s.threads t), ph⟩ := by
  have hquiet : f.holding = false ∧ f.winning = false ∧ ∀ c, f ≠ .body c := by
    rcases hf with ⟨c', rfl | rfl⟩ | rfl <;> simp [Frame.holding, Frame.winning]
  have hmem : ∀ {t' g}, g ∈ set s.threads t ([f] ++ s.threads t) t' →
      (t' = t ∧ g = f) ∨ g ∈ s.threads t' := fun hg =>
    (mem_push.mp hg).imp (fun hg => ⟨hg.1, List.mem_singleton.mp hg.2⟩) id
  refine ⟨?_, ?_, hon, fun t' g hg c hc => ?_, fun t' g hg c hc => ?_, fun t' => ?_,
    fun t' c hc => ?_⟩
  · obtain ⟨o, ho, hb⟩ := h.busy
    exact ⟨o, ho.push (by simp [hquiet.1]), hb⟩
  · obtain ⟨o, ho, hr⟩ := h.winner
    exact ⟨o, ho.push (by simp [hquiet.2.1]), hr⟩
  · rcases hmem hg with ⟨rfl, rfl⟩ | hg'
    · exact (hnew c).1 hc
    · have hphase := h.inserts t' g hg' c hc
      exact (hold c ⟨t', .inl hphase⟩).trans hphase
  · rcases hmem hg with ⟨rfl, rfl⟩ | hg'
    · exact (hnew c).2 hc
    · have hphase := h.erases t' g hg' c hc
      exact (hold c ⟨t', .inr hphase⟩).trans hphase
  · rcases eq_or_ne t' t with rfl | hne
    · simpa using shape_start (h.shape t') hu hf
    · simpa [hne] using h.shape t'
  · rcases hmem hc with ⟨-, he⟩ | hc'
    · exact absurd he.symm (hquiet.2.2 c)
    · exact h.bodies t' c hc'

/-- An operation on a callback starts that no operation is on. -/
theorem on_start {s : State τ κ} {t : τ} {f : Frame κ} {c' : κ} {p : Phase τ} (h : Inv s)
    (hp : p.thread = some t) (hfree : (s.phase c').thread = none)
    (hf : ∀ c, f.isOn c = decide (c = c')) (c : κ) :
    Sole (Frame.isOn c) (set s.threads t ([f] ++ s.threads t))
      (Function.update s.phase c' p c).thread := by
  have hon := h.on c
  rcases eq_or_ne c c' with rfl | hne
  · rw [Function.update_self, hp]
    rw [hfree] at hon
    exact hon.push_acquire (by simp [hf])
  · rw [Function.update_of_ne hne]
    exact hon.push (by simp [hf, hne])

end StopStateLemmas

/-- User code starts an operation. -/
theorem inv_start {s : State τ κ} {t : τ} {e : Event κ} {f : Frame κ} (h : Inv s)
    (hu : userCode (s.threads t) = true)
    (he : (∃ c, e = .insertStart c ∧ f = .insertLock c ∧ s.phase c = .fresh) ∨
      (∃ c, e = .eraseStart c ∧ f = .eraseLock c ∧ s.phase c = .inserted) ∨
      (e = .requestStart ∧ f = .requestExchange)) :
    Inv (s.start t e f).2 := by
  rcases he with ⟨c', rfl, rfl, hp⟩ | ⟨c', rfl, rfl, hp⟩ | ⟨rfl, rfl⟩
  · refine inv_push h hu (.inl ⟨c', .inl rfl⟩) (on_start h rfl (by rw [hp]; rfl) fun c => ?_)
      (fun c => ?_) fun c hc => ?_
    · simp [Frame.isOn, Frame.inserts, Frame.erases, eq_comm]
    · simp +contextual [Frame.inserts, Frame.erases, phaseAfter]
    · have hne : c ≠ c' := by
        rintro rfl
        simp [hp] at hc
      exact Function.update_of_ne hne _ _
  · refine inv_push h hu (.inl ⟨c', .inr rfl⟩) (on_start h rfl (by rw [hp]; rfl) fun c => ?_)
      (fun c => ?_) fun c hc => ?_
    · simp [Frame.isOn, Frame.inserts, Frame.erases, eq_comm]
    · simp +contextual [Frame.inserts, Frame.erases, phaseAfter]
    · have hne : c ≠ c' := by
        rintro rfl
        simp [hp] at hc
      exact Function.update_of_ne hne _ _
  · refine inv_push h hu (.inr rfl) (fun c => (h.on c).push ?_) (fun c => ?_) fun _ _ => rfl
    · simp [Frame.isOn, Frame.inserts, Frame.erases]
    · simp [Frame.inserts, Frame.erases]

/-- Every step of every thread keeps the invariant. -/
theorem inv_step {s s' : State τ κ} {l : τ × Event κ} (h : Inv s)
    (hs : (system τ κ).step s l s') : Inv s' := by
  obtain ⟨t, e⟩ := l
  rcases step_cases hs with ⟨f, fs, hst, rfl, rfl⟩ | ⟨hu, f, hstart, he⟩
  · exact inv_exec h hst
  · obtain rfl : s' = (s.start t e f).2 := congrArg Prod.snd hstart
    exact inv_start h hu he

theorem inv_run {s : State τ κ} {tr : List (τ × Event κ)}
    (h : Run (system τ κ) State.initial tr s) : Inv s :=
  h.invariant_state inv_initial fun _ _ _ => inv_step

end Kuhllib.StopState
