import Kuhllib.Execution.Lifetime

/-!
# Who completes next

Results, for every nesting and every step:
1. `inv_step`: what is to complete next, and that it is the only one.
2. `known_step`: receivers and frames refer to connected operation states.

A call, a loop that goes on and a pending child exclude each other: a frame waits
for exactly what is above it or outside.
-/

namespace Kuhllib.Lifetime

open Transition

/-! ## 1. The invariant -/

/-- A call that has still to be made. -/
def Frame.busy : Frame → Bool
  | .start _ _ | .signal _ _ | .unwind _ => true
  | .outside | .emplaced | .loop _ | .unlock _ | .engaging _ | .callback _ => false

def Frame.isCallback : Frame → Bool
  | .callback _ => true
  | .outside | .start _ _ | .signal _ _ | .emplaced | .loop _ | .unlock _ | .unwind _
  | .engaging _ => false

/-- The state whose `d_running` is set while the frame is on the stack. -/
def Frame.locks : Frame → List Nat
  | .loop id | .unlock id | .unwind id => [id]
  | .outside | .start _ _ | .signal _ _ | .emplaced | .engaging _ | .callback _ => []

/-- The state whose callback is being engaged. -/
def Frame.engages : Frame → List Nat
  | .engaging id => [id]
  | .outside | .start _ _ | .signal _ _ | .emplaced | .loop _ | .unlock _ | .unwind _
  | .callback _ => []

def locks (st : List Frame) : List Nat := st.flatMap Frame.locks

def engagements (st : List Frame) : List Nat := st.flatMap Frame.engages

/-- The operation states that a receiver refers to have been connected. -/
def Receiver.Known (n : Nat) : Receiver → Prop
  | .outer => True
  | .then_ _ r | .let_ _ r | .add_value r | .schedule _ r | .replace r => r.Known n
  | .repeat_effect_until id | .async_io id => id < n

def Frame.Known (n : Nat) : Frame → Prop
  | .start _ r | .signal _ r => r.Known n
  | .loop id | .unlock id | .unwind id | .engaging id | .callback id => id < n
  | .outside | .emplaced => True

def Pending.Known (n : Nat) : Pending → Prop
  | .other r => r.Known n
  | .engaging id | .operation id => id < n
  | .none => True

structure Known (s : State) : Prop where
  frames : ∀ f ∈ s.stack, f.Known s.fresh
  pending : s.pending.Known s.fresh
  states : ∀ id, (s.states id).d_receiver.Known s.fresh

/-- The outer receiver has not been completed. Exactly one of the following is to
complete next: what is pending, the call on top of the stack, or a loop that goes
on. -/
structure Inv (s : State) : Prop where
  alive : s.completed = false ∧ s.dangling = false
  tail : ∀ f st, s.stack = f :: st → ∀ g ∈ st, g.busy = false ∧ g.isCallback = false
  busy : ∀ f st, s.stack = f :: st → f.busy = true → s.pending = .none
  engaging : ∀ id ∈ engagements s.stack, s.pending = .engaging id
  engaging_nodup : (engagements s.stack).Nodup
  locks_nodup : (locks s.stack).Nodup
  running : ∀ id ∈ locks s.stack, (s.states id).d_running = true
  ready : ∀ id, .loop id ∈ s.stack → (s.states id).d_ready = true →
    s.pending = .none ∧ ∀ f st, s.stack = f :: st → f.busy = false
  ready_unique : ∀ id id', .loop id ∈ s.stack → .loop id' ∈ s.stack →
    (s.states id).d_ready = true → (s.states id').d_ready = true → id = id'
  io : ∀ id, AsyncIo.Inv (s.states id).io
  counted : ∀ id, s.pending = .engaging id → (s.states id).io.upstream = .counted

namespace LifetimeLemmas

/-! ### Frames -/

@[simp, grind =]
theorem locks_cons (f : Frame) (st : List Frame) : locks (f :: st) = f.locks ++ locks st := rfl

@[simp, grind =]
theorem engagements_cons (f : Frame) (st : List Frame) :
    engagements (f :: st) = f.engages ++ engagements st := rfl

@[grind →]
theorem mem_locks_of_loop {id : Nat} {st : List Frame} (h : .loop id ∈ st) : id ∈ locks st :=
  List.mem_flatMap.mpr ⟨_, h, List.mem_singleton.mpr rfl⟩

theorem nodup_locks (f : Frame) : f.locks.Nodup := by
  cases f <;> simp [Frame.locks]

variable {s s' : State}

theorem touch_eq (h : s.completed = false) : s.touch = s := by
  obtain ⟨_, _, _, _, completed, dangling⟩ := s
  have : completed = false := h
  simp [State.touch, this]

theorem set_touch (h : s.completed = false) (id : Nat) (m : Members) :
    (s.set id m).touch = s.set id m := touch_eq h

@[simp, grind =]
theorem goto_stack (s : State) (st : List Frame) : (s.goto st).stack = st := rfl

@[simp, grind =]
theorem goto_states (s : State) (st : List Frame) : (s.goto st).states = s.states := rfl

@[simp, grind =]
theorem goto_pending (s : State) (st : List Frame) : (s.goto st).pending = s.pending := rfl

@[simp, grind =]
theorem set_pending (s : State) (id : Nat) (m : Members) : (s.set id m).pending = s.pending := rfl

@[simp, grind =]
theorem set_states (s : State) (id : Nat) (m : Members) (id' : Nat) :
    (s.set id m).states id' = if id' = id then m else s.states id' := by
  simp [State.set, Function.update_apply]

theorem inv_initial (e : Sender) : Inv (State.initial e) where
  alive := ⟨rfl, rfl⟩
  tail := by simp [State.initial, Frame.busy, Frame.isCallback]
  busy := by simp [State.initial]
  engaging := by simp [State.initial, engagements, Frame.engages]
  engaging_nodup := by simp [State.initial, engagements, Frame.engages]
  locks_nodup := by simp [State.initial, locks, Frame.locks]
  running := by simp [State.initial, locks, Frame.locks]
  ready := by simp [State.initial]
  ready_unique := by simp [State.initial]
  io _ := AsyncIo.inv_initial
  counted := by simp [State.initial]

/-- What is known of the frames below a call. -/
structure Calm (s : State) (st : List Frame) : Prop where
  alive : s.completed = false ∧ s.dangling = false
  pending : s.pending = .none
  plain : ∀ g ∈ st, g.busy = false ∧ g.isCallback = false
  engaging : engagements st = []
  locks_nodup : (locks st).Nodup
  running : ∀ id ∈ locks st, (s.states id).d_running = true
  quiet : ∀ id, .loop id ∈ st → (s.states id).d_ready = false
  io : ∀ id, AsyncIo.Inv (s.states id).io

theorem calm_of_busy {f : Frame} {st : List Frame} (h : Inv s) (hs : s.stack = f :: st)
    (hf : f.busy = true) : Calm s st ∧ ∀ id ∈ f.locks, id ∉ locks st := by
  have hpending := h.busy f st hs hf
  have hlocks := h.locks_nodup
  rw [hs, locks_cons, List.nodup_append] at hlocks
  refine ⟨⟨h.alive, hpending, h.tail f st hs, ?_, hlocks.2.1, fun id hid => ?_, fun id hid => ?_,
    h.io⟩, fun id hid hid' => hlocks.2.2 id hid id hid' rfl⟩
  · refine List.eq_nil_iff_forall_not_mem.mpr fun id hid => ?_
    have := h.engaging id (by rw [hs, engagements_cons]; exact List.mem_append_right _ hid)
    rw [hpending] at this
    cases this
  · exact h.running id (by rw [hs, locks_cons]; exact List.mem_append_right _ hid)
  · by_contra hready
    have := (h.ready id (by rw [hs]; exact List.mem_cons_of_mem _ hid) (by simpa using hready)).2 f st hs
    rw [hf] at this
    cases this

/-- The next call. -/
theorem inv_of_calm {g : Frame} (st : List Frame) (h : Calm s st) (hs : s.stack = g :: st)
    (hg : g.busy = true)
    (hlocks : ∀ id ∈ g.locks, id ∉ locks st ∧ (s.states id).d_running = true) : Inv s := by
  obtain ⟨halive, hpending, hplain, hengaging, hnodup, hrunning, hquiet, hio⟩ := h
  have hengages : g.engages = [] := by cases g <;> first | rfl | cases hg
  have hloop : ∀ id, g ≠ .loop id := by rintro id rfl; cases hg
  have := nodup_locks g
  constructor <;> grind

/-- A frame that waits for a call. -/
theorem calm_push {g : Frame} {st : List Frame} (h : Calm s st) (hg : g.busy = false)
    (hcallback : g.isCallback = false) (hengages : g.engages = [])
    (hlocks : ∀ id ∈ g.locks, id ∉ locks st ∧ (s.states id).d_running = true ∧
      (s.states id).d_ready = false) : Calm s (g :: st) := by
  obtain ⟨halive, hpending, hplain, hengaging, hnodup, hrunning, hquiet, hio⟩ := h
  have := nodup_locks g
  constructor <;> grind [Frame.locks]

/-- A step that does not change the states that the frames refer to. -/
theorem calm_states {st : List Frame} (h : Calm s st)
    (halive : s'.completed = false ∧ s'.dangling = false) (hpending : s'.pending = .none)
    (hstates : ∀ id ∈ locks st, (s'.states id).d_running = true ∧
      (s'.states id).d_ready = (s.states id).d_ready)
    (hio : ∀ id, AsyncIo.Inv (s'.states id).io) : Calm s' st where
  alive := halive
  pending := hpending
  plain := h.plain
  engaging := h.engaging
  locks_nodup := h.locks_nodup
  running id hid := (hstates id hid).1
  quiet id hid := (hstates id (mem_locks_of_loop hid)).2.trans (h.quiet id hid)
  io := hio

/-- Something is pending that was not, and a frame waits for it. -/
theorem inv_of_wait {g : Frame} {st : List Frame} (h : Calm s st)
    (halive : s'.completed = false ∧ s'.dangling = false) (hs' : s'.stack = g :: st)
    (hg : g.busy = false) (hlocks : g.locks = [])
    (hengages : ∀ id ∈ g.engages, s'.pending = .engaging id)
    (hcounted : ∀ id, s'.pending = .engaging id → (s'.states id).io.upstream = .counted)
    (hstates : ∀ id ∈ locks st, (s'.states id).d_running = true ∧
      (s'.states id).d_ready = (s.states id).d_ready)
    (hio : ∀ id, AsyncIo.Inv (s'.states id).io) : Inv s' := by
  obtain ⟨-, hpending, hplain, hengaging, hnodup, hrunning, hquiet, -⟩ := h
  have : g.engages.Nodup := by cases g <;> simp [Frame.engages]
  have hloop : ∀ id, g ≠ .loop id := by rintro id rfl; cases hlocks
  constructor <;> grind

/-- The frames below the top go on. The locks of the top are released. -/
theorem inv_pop {f : Frame} {st : List Frame} (h : Inv s) (hs : s.stack = f :: st)
    (hs' : s'.stack = st) (halive : s'.completed = false ∧ s'.dangling = false)
    (hpending : s'.pending = s.pending)
    (hengages : f.engages = [])
    (hstates : ∀ id, (id ∈ locks st → (s'.states id).d_running = true) ∧
      (s'.states id).d_ready = (s.states id).d_ready)
    (hio : ∀ id, AsyncIo.Inv (s'.states id).io ∧
      (s'.states id).io.upstream = (s.states id).io.upstream) : Inv s' := by
  have hlocks := h.locks_nodup
  have hengaging := h.engaging
  have hnodup := h.engaging_nodup
  rw [hs, locks_cons, List.nodup_append] at hlocks
  rw [hs, engagements_cons, hengages, List.nil_append] at hengaging hnodup
  have hplain := h.tail f st hs
  have hloop : ∀ id, .loop id ∈ st → .loop id ∈ s.stack := fun id hid => by
    rw [hs]
    exact List.mem_cons_of_mem _ hid
  refine ⟨halive, fun f' st' hst g hg => ?_, fun f' st' hst hf' => ?_, ?_, ?_, ?_, ?_,
    fun id hid hr => ?_, fun id id' hid hid' hr hr' => ?_, fun id => (hio id).1, fun id hp => ?_⟩
  · rw [hs'] at hst
    exact hplain g (by rw [hst]; exact List.mem_cons_of_mem _ hg)
  · rw [hs'] at hst
    rw [(hplain f' (by rw [hst]; exact List.mem_cons_self)).1] at hf'
    cases hf'
  · rw [hs', hpending]
    exact hengaging
  · rw [hs']
    exact hnodup
  · rw [hs']
    exact hlocks.2.1
  · rw [hs']
    exact fun id hid => (hstates id).1 hid
  · rw [hs'] at hid
    rw [(hstates id).2] at hr
    refine ⟨hpending.trans (h.ready id (hloop id hid) hr).1, fun f' st' hst => ?_⟩
    rw [hs'] at hst
    exact (hplain f' (by rw [hst]; exact List.mem_cons_self)).1
  · rw [hs'] at hid hid'
    rw [(hstates id).2] at hr
    rw [(hstates id').2] at hr'
    exact h.ready_unique id id' (hloop id hid) (hloop id' hid') hr hr'
  · rw [(hio id).2]
    exact h.counted id (hpending ▸ hp)

/-- A frame is put on code that waits. -/
theorem inv_push {g : Frame} {st : List Frame} (h : Inv s) (hs : s.stack = st)
    (hs' : s'.stack = g :: st) (hg : g.busy = false) (hlocks : g.locks = []) (hengages : g.engages = [])
    (htop : ∀ f st', st = f :: st' → f.busy = false ∧ f.isCallback = false)
    (halive : s'.completed = false ∧ s'.dangling = false) (hpending : s'.pending = s.pending)
    (hstates : ∀ id, (s'.states id).d_running = (s.states id).d_running ∧
      (s'.states id).d_ready = (s.states id).d_ready)
    (hio : ∀ id, AsyncIo.Inv (s'.states id).io ∧
      (s'.states id).io.upstream = (s.states id).io.upstream) : Inv s' := by
  subst hs
  have hloop : ∀ id, g ≠ .loop id := by rintro id rfl; cases hlocks
  have hplain : ∀ f ∈ s.stack, f.busy = false ∧ f.isCallback = false := by
    intro f hf
    cases hst : s.stack with
    | nil =>
      rw [hst] at hf
      cases hf
    | cons f' st' =>
      rw [hst] at hf
      rcases List.mem_cons.mp hf with rfl | hf
      · exact htop _ _ hst
      · exact h.tail f' st' hst f hf
  obtain ⟨-, -, -, hengaging, hengnodup, hlocksnodup, hrunning, hready, hunique, -, hcounted⟩ := h
  constructor <;> grind

/-- The states of `async_io` alone change. -/
theorem inv_states (h : Inv s) (hs : s'.stack = s.stack)
    (halive : s'.completed = false ∧ s'.dangling = false) (hpending : s'.pending = s.pending)
    (hstates : ∀ id, (s'.states id).d_running = (s.states id).d_running ∧
      (s'.states id).d_ready = (s.states id).d_ready)
    (hio : ∀ id, AsyncIo.Inv (s'.states id).io ∧
      (s'.states id).io.upstream = (s.states id).io.upstream) : Inv s' := by
  obtain ⟨-, htail, hbusy, hengaging, hengnodup, hlocksnodup, hrunning, hready, hunique, -,
    hcounted⟩ := h
  constructor <;> grind

/-- What is pending is going to complete its receiver. -/
theorem calm_of_pending {st : List Frame} (h : Inv s) (hs : s.stack = .outside :: st)
    (hne : s.pending ≠ .none) (hengaging : ∀ id, s.pending ≠ .engaging id)
    (halive : s'.completed = false ∧ s'.dangling = false) (hpending : s'.pending = .none)
    (hstates : ∀ id, (s'.states id).d_running = (s.states id).d_running ∧
      (s'.states id).d_ready = (s.states id).d_ready)
    (hio : ∀ id, AsyncIo.Inv (s'.states id).io) : Calm s' (.outside :: st) := by
  have heng : engagements s.stack = [] :=
    List.eq_nil_iff_forall_not_mem.mpr fun id hid => hengaging id (h.engaging id hid)
  have hplain := h.tail _ st hs
  refine ⟨halive, hpending, fun g hg => ?_, by rw [← hs, heng], by rw [← hs]; exact h.locks_nodup,
    fun id hid => ?_, fun id hid => ?_, hio⟩
  · rcases List.mem_cons.mp hg with rfl | hg
    · exact ⟨rfl, rfl⟩
    · exact hplain g hg
  · rw [(hstates id).1]
    exact h.running id (by rw [hs]; exact hid)
  · rw [(hstates id).2]
    by_contra hready
    exact hne (h.ready id (by rw [hs]; exact hid) (by simpa using hready)).1

/-- A loop that goes on. -/
theorem calm_of_ready {id : Nat} {st : List Frame} (h : Inv s) (hs : s.stack = .loop id :: st)
    (hready : (s.states id).d_ready = true) : Calm s st ∧ id ∉ locks st := by
  have hmem : Frame.loop id ∈ s.stack := by rw [hs]; exact List.mem_cons_self
  have hpending := (h.ready id hmem hready).1
  have hlocks := h.locks_nodup
  rw [hs, locks_cons, List.nodup_append] at hlocks
  have hnot : id ∉ locks st := fun hid => hlocks.2.2 id (List.mem_singleton.mpr rfl) id hid rfl
  refine ⟨⟨h.alive, hpending, h.tail _ st hs, ?_, hlocks.2.1, fun id' hid' => ?_, fun id' hid' => ?_,
    h.io⟩, hnot⟩
  · refine List.eq_nil_iff_forall_not_mem.mpr fun id' hid' => ?_
    have := h.engaging id' (by rw [hs, engagements_cons]; exact List.mem_append_right _ hid')
    rw [hpending] at this
    cases this
  · exact h.running id' (by rw [hs, locks_cons]; exact List.mem_append_right _ hid')
  · by_contra hready'
    have := h.ready_unique id id' hmem (by rw [hs]; exact List.mem_cons_of_mem _ hid') hready
      (by simpa using hready')
    subst this
    exact hnot (mem_locks_of_loop hid')

/-! ### The functions of the adaptors -/

/-- A call is made. -/
theorem inv_call {g : Frame} {st : List Frame} (h : Calm s st) (hg : g.busy = true)
    (hlocks : g.locks = []) : Inv (s.touch.goto (g :: st)) := by
  rw [touch_eq h.alive.1]
  refine inv_of_calm st ⟨h.alive, h.pending, h.plain, h.engaging, h.locks_nodup, h.running,
    h.quiet, h.io⟩ rfl hg ?_
  rw [hlocks]
  exact fun id hid => absurd hid List.not_mem_nil

theorem calm_connect {e : Sender} {r : Receiver} {st : List Frame} (h : Calm s st)
    (hfresh : s.fresh ∉ locks st) : Calm (s.connect e r) st := by
  refine calm_states h h.alive h.pending (fun id hid => ?_) fun id => ?_
  · have hne : id ≠ s.fresh := fun he => hfresh (he ▸ hid)
    simp [State.connect, hne, h.running id hid]
  · rcases eq_or_ne id s.fresh with rfl | hne
    · simpa [State.connect] using AsyncIo.inv_initial
    · simpa [State.connect, hne] using h.io id

theorem inv_start {e : Sender} {r : Receiver} {st : List Frame} (h : Calm s st)
    (hfresh : s.fresh ∉ locks st) : Inv (s.start r st e) := by
  cases e with
  | other =>
    exact inv_of_wait h h.alive rfl rfl rfl (by simp [Frame.engages]) (by simp [State.start])
      (fun id hid => ⟨h.running id hid, rfl⟩) h.io
  | then_ tag e | add_value e =>
    have hcall : ∀ r, Inv (s.touch.goto (.start e r :: st)) := fun r => inv_call h rfl rfl
    rw [touch_eq h.alive.1] at hcall
    exact hcall _
  | let_ tag e => exact inv_call h rfl rfl
  | on schedule e => exact inv_call h rfl rfl
  | repeat_effect_until e | async_io e => exact inv_call (calm_connect h hfresh) rfl rfl

/-- Nothing is called; the loop of `id` alone goes on when it is reached. -/
theorem inv_of_ready {st st' : List Frame} (id : Nat) (h : Calm s st)
    (halive : s'.completed = false ∧ s'.dangling = false) (hs' : s'.stack = st')
    (hst' : st' = st ∨ st' = .loop id :: st ∧ id ∉ locks st) (hpending : s'.pending = .none)
    (hself : (s'.states id).d_running = true ∧ (s'.states id).io = (s.states id).io)
    (hstates : ∀ id', id' ≠ id → s'.states id' = s.states id') : Inv s' := by
  obtain ⟨-, -, hplain, hengaging, hnodup, hrunning, hquiet, hio⟩ := h
  have htop : ∀ f st'', st = f :: st'' → f ∈ st ∧ ∀ g ∈ st'', g ∈ st := by
    rintro f st'' rfl
    exact ⟨List.mem_cons_self, fun g hg => List.mem_cons_of_mem _ hg⟩
  have hio' : ∀ id', AsyncIo.Inv (s'.states id').io := by
    intro id'
    rcases eq_or_ne id' id with rfl | hne
    · rw [hself.2]
      exact hio id'
    · rw [hstates id' hne]
      exact hio id'
  rcases hst' with rfl | ⟨rfl, hnot⟩
  · constructor <;> grind
  · constructor <;> grind [Frame.locks, Frame.engages, Frame.busy, Frame.isCallback]

/-- `next()` runs the loop, or the loop that is running goes on. -/
theorem inv_next_effect {id : Nat} {st : List Frame} (h : Calm s st) :
    Inv (s.next_effect id st) := by
  unfold State.next_effect
  dsimp only
  rw [set_touch h.alive.1, set_touch h.alive.1]
  split
  · next hrun =>
    exact inv_of_ready id h h.alive rfl (.inl rfl) h.pending (by simp [hrun])
      fun id' hne => by simp [hne]
  · next hrun =>
    exact inv_of_ready id h h.alive rfl
      (.inr ⟨rfl, fun hid => hrun (h.running id hid)⟩) h.pending (by simp)
      fun id' hne => by simp [hne]

/-- The operation is counted while the stop callback is being engaged. -/
theorem inv_count_operation {id : Nat} {st : List Frame} (h : Calm s st)
    (hs : s.count_operation id st = some s') : Inv s' := by
  obtain ⟨io, hio, rfl⟩ := Option.map_eq_some_iff.mp hs
  have hcounted : io.upstream = .counted := by
    simp only [AsyncIo.next, Option.ite_none_right_eq_some, Option.some.injEq] at hio
    rw [← hio.2]
  rw [set_touch h.alive.1]
  refine inv_of_wait h h.alive rfl rfl rfl ?_ ?_ (fun id' hid => ?_) fun id' => ?_
  · intro id' hid
    rw [List.mem_singleton.mp hid]
  · rintro id' he
    cases he
    simpa using hcounted
  · have := h.running id' hid
    by_cases he : id' = id <;> simp_all
  · by_cases he : id' = id
    · simpa [he] using AsyncIo.inv_step (h.io id) hio
    · simpa [he] using h.io id'

/-- The receivers of the adaptors. -/
theorem inv_signal {tag : Tag} {r : Receiver} {l : Label} {st : List Frame} (h : Calm s st)
    (hr : r ≠ .outer) (hs : s.signal tag st r l = some s') : Inv s' := by
  have hcall : ∀ tag r, Inv (s.touch.goto (.signal tag r :: st)) := fun tag r => inv_call h rfl rfl
  cases r with
  | outer => exact absurd rfl hr
  | then_ tag' r =>
    cases l <;> simp only [State.signal, Option.ite_none_right_eq_some, Option.some.injEq,
      reduceCtorEq] at hs
    case step => exact hs ▸ hcall _ _
    case throws => exact hs.2 ▸ hcall _ _
  | let_ tag' r =>
    cases l <;> simp only [State.signal, Option.ite_none_right_eq_some,
      Option.ite_none_left_eq_some, Option.some.injEq, reduceCtorEq] at hs
    case step => exact hs.2 ▸ hcall _ _
    case returns e =>
      refine hs.2 ▸ inv_call (calm_push h rfl rfl rfl fun id hid => ?_) rfl rfl
      cases hid
  | repeat_effect_until id =>
    cases l <;> simp only [State.signal, reduceCtorEq] at hs
    cases tag <;> cases hs
    · exact inv_next_effect h
    · exact hcall _ _
    · exact hcall _ _
  | add_value r =>
    cases l <;> cases hs
    exact hcall _ _
  | schedule e r =>
    cases l <;> simp only [State.signal, Option.ite_none_right_eq_some, Option.some.injEq,
      reduceCtorEq] at hs
    case step => exact hs.2 ▸ inv_call h rfl rfl
    case throws => exact hs.2 ▸ hcall _ _
  | replace r =>
    cases l <;> cases hs
    exact hcall _ _
  | async_io id =>
    cases l <;> simp only [State.signal, reduceCtorEq] at hs
    cases tag
    · exact inv_count_operation h hs
    · cases hs
      exact hcall _ _
    · cases hs
      exact hcall _ _

/-- A loop that goes on makes one call; a loop that does not releases its lock. -/
theorem inv_loop {id : Nat} {l : Label} {st : List Frame} (h : Inv s)
    (hstack : s.stack = .loop id :: st) (hs : s.loop id st l = some s') : Inv s' := by
  unfold State.loop at hs
  dsimp only at hs
  split at hs
  · next hready =>
    obtain ⟨hcalm, hnot⟩ := calm_of_ready h hstack hready
    have hrunning : (s.states id).d_running = true :=
      h.running id (by rw [hstack]; exact List.mem_cons_self)
    have hset : Calm (s.set id { s.states id with d_ready := false }) st := by
      refine calm_states hcalm h.alive hcalm.pending (fun id' hid => ?_) fun id' => ?_
      · have hne : id' ≠ id := fun he => hnot (he ▸ hid)
        simp [hne, hcalm.running id' hid]
      · rcases eq_or_ne id' id with rfl | hne
        · simpa using h.io id'
        · simpa [hne] using h.io id'
    have hlock : ∀ id' ∈ [id], id' ∉ locks st ∧
        ((s.set id { s.states id with d_ready := false }).states id').d_running = true ∧
        ((s.set id { s.states id with d_ready := false }).states id').d_ready = false := by
      intro id' hid
      cases List.mem_singleton.mp hid
      simpa using ⟨hnot, hrunning⟩
    have hunlock := calm_push (g := .unlock id) hset rfl rfl rfl hlock
    have hloop := calm_push (g := .loop id) hset rfl rfl rfl hlock
    split at hs <;> cases hs
    · exact inv_call hunlock rfl rfl
    · exact inv_call hunlock rfl rfl
    · exact inv_call hloop rfl rfl
    · rw [set_touch h.alive.1]
      exact inv_of_calm st ⟨hset.alive, hset.pending, hset.plain, hset.engaging,
        hset.locks_nodup, hset.running, hset.quiet, hset.io⟩ rfl rfl fun id' hid =>
        ⟨(hlock id' hid).1, (hlock id' hid).2.1⟩
  · next hready =>
    obtain ⟨-, hs⟩ := Option.ite_none_right_eq_some.mp hs
    cases hs
    rw [touch_eq h.alive.1]
    obtain ⟨halive, htail, hbusy, hengaging, hengnodup, hlocksnodup, hrunning, hquiet, hunique, hio,
      hcounted⟩ := h
    refine ⟨halive, fun f st' hst => ?_, fun f st' hst => ?_, ?_, ?_, ?_, ?_, ?_, ?_, hio, hcounted⟩
      <;> grind [Frame.locks, Frame.engages, Frame.busy]

/-- The destructor of the `lock_guard` runs below a loop or a handler. -/
theorem inv_unlock {id : Nat} {st : List Frame} (h : Inv s) (hstack : s.stack = .unlock id :: st) :
    Inv (s.unlock id st) := by
  unfold State.unlock
  rw [set_touch h.alive.1]
  have hnodup := h.locks_nodup
  rw [hstack, locks_cons, List.nodup_append] at hnodup
  have hnot : id ∉ locks st := fun hid => hnodup.2.2 id (List.mem_singleton.mpr rfl) id hid rfl
  refine inv_pop h hstack rfl h.alive rfl rfl (fun id' => ⟨fun hid => ?_, ?_⟩) fun id' => ?_
  · have hne : id' ≠ id := fun he => hnot (he ▸ hid)
    have := h.running id' (by rw [hstack]; exact List.mem_append_right _ hid)
    simpa [hne] using this
  · by_cases he : id' = id <;> simp [he]
  · rcases eq_or_ne id' id with rfl | hne
    · simpa using h.io id'
    · simpa [hne] using h.io id'

/-- The handler completes the receiver after the `lock_guard` is gone. -/
theorem inv_unwind {id : Nat} {r : Receiver} {st : List Frame} (h : Inv s)
    (hstack : s.stack = .unwind id :: st) : Inv (s.unlock id (.signal .set_error r :: st)) := by
  obtain ⟨hcalm, hnot⟩ := calm_of_busy h hstack rfl
  have hnot := hnot id (List.mem_singleton.mpr rfl)
  refine inv_call (calm_states hcalm h.alive hcalm.pending (fun id' hid => ?_) fun id' => ?_)
    rfl rfl
  · have hne : id' ≠ id := fun he => hnot (he ▸ hid)
    simp [hne, hcalm.running id' hid]
  · rcases eq_or_ne id' id with rfl | hne
    · simpa using h.io id'
    · simpa [hne] using h.io id'

/-- A frame without members of its own returns. -/
theorem inv_leave {f : Frame} {st : List Frame} (h : Inv s) (hstack : s.stack = f :: st)
    (hengages : f.engages = []) : Inv (s.goto st) :=
  inv_pop h hstack rfl h.alive rfl hengages
    (fun id => ⟨fun hid => h.running id (by rw [hstack]; exact List.mem_append_right _ hid), rfl⟩)
    fun id => ⟨h.io id, rfl⟩

/-! ### `async_io` -/

theorem upstream_eq {io io' : AsyncIo.State} {l : AsyncIo.Label} (h : AsyncIo.next io l = some io')
    (hl : l ≠ .set_value ∧ l ≠ .engage_callback ∧ l ≠ .start) : io'.upstream = io.upstream := by
  cases l <;> simp only [AsyncIo.next, Option.ite_none_right_eq_some, Option.some.injEq] at h <;>
    grind

/-- What a step of `async_io` leaves unchanged. -/
theorem frame_io {io : AsyncIo.State} (id : Nat) (h : ∀ id, AsyncIo.Inv (s.states id).io)
    (hio : AsyncIo.Inv io) :
    (∀ id', ((s.set id { s.states id with io := io }).states id').d_running =
        (s.states id').d_running ∧
      ((s.set id { s.states id with io := io }).states id').d_ready = (s.states id').d_ready) ∧
    ∀ id', AsyncIo.Inv ((s.set id { s.states id with io := io }).states id').io ∧
      (io.upstream = (s.states id).io.upstream →
        ((s.set id { s.states id with io := io }).states id').io.upstream =
          (s.states id').io.upstream) := by
  refine ⟨fun id' => ?_, fun id' => ?_⟩
  · rcases eq_or_ne id' id with rfl | hne
    · simp
    · simp [hne]
  · rcases eq_or_ne id' id with rfl | hne
    · simpa using hio
    · simpa [hne] using h id'

theorem setIo_eq (h : s.completed = false) (id : Nat) (io : AsyncIo.State) :
    s.setIo id io = s.set id { s.states id with io := io } := set_touch h _ _

/-- The stop callback is called on waiting code. -/
theorem inv_stop {id : Nat} {st : List Frame} (h : Inv s) (hstack : s.stack = st)
    (htop : ∀ f st', st = f :: st' → f.busy = false ∧ f.isCallback = false)
    (hs : s.stop id st = some s') : Inv s' := by
  obtain ⟨io, hio, rfl⟩ := Option.map_eq_some_iff.mp hs
  obtain ⟨hstates, hios⟩ := frame_io id h.io (AsyncIo.inv_step (h.io id) hio)
  have hup := upstream_eq hio (by decide)
  exact inv_push h hstack rfl rfl rfl rfl htop h.alive rfl hstates
    fun id' => ⟨(hios id').1, (hios id').2 hup⟩

/-- The stop callback returns, or it submits a cancel request and waits. -/
theorem inv_callback {id : Nat} {st : List Frame} (h : Inv s)
    (hstack : s.stack = .callback id :: st) (hs : s.callback id st = some s') : Inv s' := by
  have hpop : ∀ io, AsyncIo.Inv io → io.upstream = (s.states id).io.upstream →
      Inv ((s.set id { s.states id with io := io }).goto st) := by
    intro io hio hup
    obtain ⟨hstates, hios⟩ := frame_io id h.io hio
    refine inv_pop h hstack rfl h.alive rfl rfl (fun id' => ⟨fun hid => ?_, (hstates id').2⟩)
      fun id' => ⟨(hios id').1, (hios id').2 hup⟩
    rw [goto_states, (hstates id').1]
    exact h.running id' (by rw [hstack]; exact List.mem_append_right _ hid)
  simp only [State.callback, Option.bind_eq_bind, Option.bind_eq_some_iff] at hs
  obtain ⟨io, hio, hs⟩ := hs
  have hcount := AsyncIo.inv_step (h.io id) hio
  have hup := upstream_eq hio (by decide)
  split at hs
  · obtain ⟨io', hio', hs⟩ := Option.bind_eq_some_iff.mp hs
    cases hs
    rw [setIo_eq h.alive.1]
    have hup' := (upstream_eq hio' (by decide)).trans hup
    have hi := hpop io' (AsyncIo.inv_step hcount hio') hup'
    refine inv_push hi rfl rfl rfl rfl rfl (fun f st' hst => ?_) h.alive rfl
      (fun _ => ⟨rfl, rfl⟩) fun id' => ⟨hi.io id', rfl⟩
    have hst : st = f :: st' := hst
    exact h.tail _ _ hstack f (by rw [hst]; exact List.mem_cons_self)
  · cases hs
    rw [setIo_eq h.alive.1]
    exact hpop io hcount hup

/-- `engage_callback()` has returned and the operation is started. -/
theorem inv_engaged {id : Nat} {st : List Frame} (h : Inv s)
    (hstack : s.stack = .engaging id :: st) (hs : s.engaged id st = some s') : Inv s' := by
  have hpending := h.engaging id (by rw [hstack]; exact List.mem_cons_self)
  have hnodup := h.engaging_nodup
  have hengaging := h.engaging
  rw [hstack, engagements_cons] at hnodup hengaging
  have hcalm : Calm { s with pending := .none } st := by
    refine ⟨h.alive, rfl, h.tail _ st hstack, ?_, ?_, fun id' hid => ?_, fun id' hid => ?_, h.io⟩
    · refine List.eq_nil_iff_forall_not_mem.mpr fun id' hid => ?_
      -- another engaging frame would be pending too
      have := hengaging id' (List.mem_append_right _ hid)
      rw [hpending] at this
      cases this
      exact (List.nodup_cons.mp hnodup).1 hid
    · simpa [hstack, Frame.locks] using h.locks_nodup
    · exact h.running id' (by rw [hstack]; exact hid)
    · by_contra hready
      have := (h.ready id' (by rw [hstack]; exact List.mem_cons_of_mem _ hid) (by simpa using hready)).1
      rw [hpending] at this
      cases this
  simp only [State.engaged, Option.bind_eq_bind, Option.bind_eq_some_iff] at hs
  obtain ⟨io, hio, io', hio', hs⟩ := hs
  cases hs
  rw [setIo_eq h.alive.1]
  obtain ⟨hstates, hios⟩ :=
    frame_io id h.io (AsyncIo.inv_step (AsyncIo.inv_step (h.io id) hio) hio')
  refine inv_of_wait hcalm h.alive rfl rfl rfl (by simp [Frame.engages]) (by simp)
    (fun id' hid => ⟨?_, (hstates id').2⟩) fun id' => (hios id').1
  exact (hstates id').1.trans (hcalm.running id' hid)

/-- The last result completes the receiver. -/
theorem inv_complete {id : Nat} {io : AsyncIo.State} {tag : Tag} {r : Receiver} {st : List Frame}
    (h : Inv s) (hstack : s.stack = .outside :: st) (hne : s.pending ≠ .none)
    (hengaging : ∀ id, s.pending ≠ .engaging id) (hio : AsyncIo.Inv io) :
    Inv { (s.set id { s.states id with io := io }).goto (.signal tag r :: .outside :: st) with
      pending := .none } := by
  obtain ⟨hstates, hios⟩ := frame_io id h.io hio
  refine inv_of_calm (.outside :: st)
    (calm_of_pending h hstack hne hengaging h.alive rfl hstates fun id' => (hios id').1) rfl rfl ?_
  exact fun id' hid => absurd hid List.not_mem_nil

/-- Another result is to come. -/
theorem inv_stored {id : Nat} {io : AsyncIo.State} (h : Inv s) (hio : AsyncIo.Inv io)
    (hup : io.upstream = (s.states id).io.upstream) :
    Inv ((s.set id { s.states id with io := io }).goto s.stack) := by
  obtain ⟨hstates, hios⟩ := frame_io id h.io hio
  exact inv_states h rfl h.alive rfl hstates fun id' => ⟨(hios id').1, (hios id').2 hup⟩

theorem inv_result {id : Nat} {result : Int} {flags : Nat} {st : List Frame} (h : Inv s)
    (hstack : s.stack = .outside :: st) (hpending : s.pending = .operation id)
    (hs : s.result id result flags (.outside :: st) = some s') : Inv s' := by
  simp only [State.result, Option.bind_eq_bind, Option.bind_eq_some_iff] at hs
  obtain ⟨io, hio, io', hio', hs⟩ := hs
  have hi := AsyncIo.inv_step (AsyncIo.inv_step (h.io id) hio) hio'
  split at hs
  · obtain ⟨io'', hio'', hs⟩ := Option.bind_eq_some_iff.mp hs
    cases hs
    rw [setIo_eq h.alive.1]
    exact inv_complete h hstack (by simp [hpending]) (by simp [hpending]) (AsyncIo.inv_step hi hio'')
  · cases hs
    rw [setIo_eq h.alive.1, ← hstack]
    exact inv_stored h hi ((upstream_eq hio' (by decide)).trans (upstream_eq hio (by simp)))

/-- The result of the cancel request does not complete the receiver before the
operation is started: the operation still counts. -/
theorem inv_cancelled {id : Nat} {st : List Frame} (h : Inv s)
    (hstack : s.stack = .outside :: st)
    (hpending : s.pending = .engaging id ∨ s.pending = .operation id)
    (hs : s.cancelled id (.outside :: st) = some s') : Inv s' := by
  simp only [State.cancelled, Option.bind_eq_bind, Option.bind_eq_some_iff] at hs
  obtain ⟨io, hio, io', hio', hs⟩ := hs
  have hi := AsyncIo.inv_step (AsyncIo.inv_step (h.io id) hio) hio'
  have hup := (upstream_eq hio' (by decide)).trans (upstream_eq hio (by decide))
  split at hs
  · next hcompleting =>
    obtain ⟨io'', hio'', hs⟩ := Option.bind_eq_some_iff.mp hs
    cases hs
    rw [setIo_eq h.alive.1]
    have hne : s.pending ≠ .none := by rcases hpending with he | he <;> simp [he]
    refine inv_complete h hstack hne (fun id' he => ?_) (AsyncIo.inv_step hi hio'')
    have hid : id' = id := by
      rcases hpending with he' | he' <;> rw [he'] at he <;> cases he
      rfl
    have hcompleted : 0 < io'.completed := by
      unfold AsyncIo.State.completed
      rw [if_pos hcompleting]
      omega
    have hstarted := hi.operation (hi.counts_of_completed hcompleted).2.2.2
    rw [hup, ← hid, h.counted id' he] at hstarted
    cases hstarted
  · cases hs
    rw [setIo_eq h.alive.1, ← hstack]
    exact inv_stored h hi hup

/-! ### The states that are referred to -/

theorem known_initial (e : Sender) : Known (State.initial e) where
  frames := by simp [State.initial, Frame.Known, Receiver.Known]
  pending := trivial
  states _ := trivial

theorem Receiver.Known.succ {n : Nat} {r : Receiver} (h : r.Known n) : r.Known (n + 1) := by
  induction r with
  | outer => trivial
  | repeat_effect_until id | async_io id => exact Nat.lt_succ_of_lt h
  | then_ _ _ ih | let_ _ _ ih | add_value _ ih | schedule _ _ ih | replace _ ih => exact ih h

theorem Frame.Known.succ {n : Nat} {f : Frame} (h : f.Known n) : f.Known (n + 1) := by
  cases f with
  | start _ r | signal _ r => exact Receiver.Known.succ h
  | loop id | unlock id | unwind id | engaging id | callback id => exact Nat.lt_succ_of_lt h
  | outside | emplaced => trivial

/-- A step that connects nothing. -/
theorem known_of_frames (h : Known s) (hframes : ∀ f ∈ s'.stack, f ∈ s.stack ∨ f.Known s.fresh)
    (hpending : s'.pending = s.pending ∨ s'.pending.Known s.fresh)
    (hstates : ∀ id, (s'.states id).d_receiver = (s.states id).d_receiver)
    (hfresh : s'.fresh = s.fresh) : Known s' where
  frames f hf := by
    rw [hfresh]
    rcases hframes f hf with hf | hf
    · exact h.frames f hf
    · exact hf
  pending := by
    rw [hfresh]
    rcases hpending with he | he
    · rw [he]
      exact h.pending
    · exact he
  states id := by
    rw [hfresh, hstates]
    exact h.states id

theorem known_connect {e e' : Sender} {r r' : Receiver} {st : List Frame} (h : Known s)
    (hr : r.Known s.fresh) (hr' : r'.Known (s.fresh + 1)) (hst : ∀ f ∈ st, f ∈ s.stack) :
    Known ((s.connect e r).touch.goto (.start e' r' :: st)) where
  frames f hf := by
    rcases List.mem_cons.mp hf with rfl | hf
    · exact hr'
    · exact Frame.Known.succ (h.frames f (hst f hf))
  pending := by
    have := h.pending
    show s.pending.Known (s.fresh + 1)
    cases hp : s.pending <;> rw [hp] at this
    · trivial
    · exact Receiver.Known.succ this
    · exact Nat.lt_succ_of_lt this
    · exact Nat.lt_succ_of_lt this
  states id := by
    show (((s.set s.fresh ⟨r, e, false, false, AsyncIo.State.initial⟩).states id).d_receiver).Known (s.fresh + 1)
    rw [set_states]
    split
    · exact Receiver.Known.succ hr
    · exact Receiver.Known.succ (h.states id)

theorem known_start {e : Sender} {r : Receiver} {st : List Frame} (h : Known s)
    (hstack : s.stack = .start e r :: st) : Known (s.start r st e) := by
  have hr : r.Known s.fresh := h.frames (.start e r) (hstack ▸ List.mem_cons_self)
  have hst : ∀ f ∈ st, f ∈ s.stack := fun f hf => hstack ▸ List.mem_cons_of_mem _ hf
  have hcall : ∀ e' r', r'.Known s.fresh → Known (s.touch.goto (.start e' r' :: st)) := by
    intro e' r' hr'
    refine known_of_frames h (fun f hf => ?_) (.inl rfl) (fun _ => rfl) rfl
    rcases List.mem_cons.mp hf with rfl | hf
    · exact .inr hr'
    · exact .inl (hst f hf)
  cases e with
  | other =>
    refine known_of_frames h (fun f hf => ?_) (.inr hr) (fun _ => rfl) rfl
    rcases List.mem_cons.mp hf with rfl | hf
    · exact .inr trivial
    · exact .inl (hst f hf)
  | then_ tag e | add_value e =>
    refine known_of_frames h (fun f hf => ?_) (.inl rfl) (fun _ => rfl) rfl
    rcases List.mem_cons.mp hf with rfl | hf
    · exact .inr hr
    · exact .inl (hst f hf)
  | let_ tag e => exact hcall _ _ hr
  | on schedule e => exact hcall _ _ hr
  | repeat_effect_until e | async_io e => exact known_connect h hr (Nat.lt_succ_self _) hst

/-- The frames of a step are old ones, apart from those of a list. -/
theorem known_of_push {st : List Frame} {f : Frame} (new : List Frame) (h : Known s) (hstack : s.stack = f :: st)
    (hs' : s'.stack = new ++ st) (hnew : ∀ g ∈ new, g = f ∨ g.Known s.fresh)
    (hpending : s'.pending = s.pending ∨ s'.pending.Known s.fresh)
    (hstates : ∀ id, (s'.states id).d_receiver = (s.states id).d_receiver)
    (hfresh : s'.fresh = s.fresh) : Known s' := by
  refine known_of_frames h (fun g hg => ?_) hpending hstates hfresh
  rw [hs'] at hg
  rcases List.mem_append.mp hg with hg | hg
  · rcases hnew g hg with rfl | hg
    · exact .inl (hstack ▸ List.mem_cons_self)
    · exact .inr hg
  · exact .inl (hstack ▸ List.mem_cons_of_mem _ hg)

theorem set_receiver {id : Nat} {m : Members} (hm : m.d_receiver = (s.states id).d_receiver)
    (id' : Nat) : ((s.set id m).states id').d_receiver = (s.states id').d_receiver := by
  rw [set_states]
  split
  · next he => rw [hm, he]
  · rfl

theorem known_signal {tag : Tag} {r : Receiver} {l : Label} {st : List Frame} (h : Known s)
    (hstack : s.stack = .signal tag r :: st) (hs : s.signal tag st r l = some s') : Known s' := by
  have hr : r.Known s.fresh := h.frames (.signal tag r) (hstack ▸ List.mem_cons_self)
  have hcall : ∀ new : List Frame, (∀ g ∈ new, g.Known s.fresh) →
      Known (s.touch.goto (new ++ st)) := fun new hnew =>
    known_of_push _ h hstack rfl (fun g hg => .inr (hnew g hg)) (.inl rfl) (fun _ => rfl) rfl
  have hone : ∀ g : Frame, g.Known s.fresh → Known (s.touch.goto (g :: st)) := fun g hg =>
    hcall [g] (by simpa using hg)
  have hstate : ∀ tag id, Known (s.touch.goto (.signal tag (s.states id).d_receiver :: st)) :=
    fun tag id => hone _ (h.states id)
  cases r with
  | outer =>
    cases l <;> cases hs
    exact known_of_push [] h hstack rfl (by simp) (.inl rfl) (fun _ => rfl) rfl
  | then_ tag' r =>
    cases l <;> simp only [State.signal, Option.ite_none_right_eq_some, Option.some.injEq,
      reduceCtorEq] at hs
    case step => exact hs ▸ hone _ hr
    case throws => exact hs.2 ▸ hone _ hr
  | let_ tag' r =>
    cases l <;> simp only [State.signal, Option.ite_none_right_eq_some,
      Option.ite_none_left_eq_some, Option.some.injEq, reduceCtorEq] at hs
    case step => exact hs.2 ▸ hone _ hr
    case returns e => exact hs.2 ▸ hcall [.start e r, .emplaced] (by simpa [Frame.Known, Receiver.Known] using hr)
  | repeat_effect_until id =>
    cases l <;> simp only [State.signal, reduceCtorEq] at hs
    cases tag <;> cases hs
    · unfold State.next_effect
      dsimp only
      split
      · exact known_of_push [] h hstack rfl (by simp) (.inl rfl) (set_receiver rfl) rfl
      · exact known_of_push [.loop id] h hstack rfl
          (fun g hg => .inr (List.mem_singleton.mp hg ▸ hr)) (.inl rfl) (set_receiver rfl) rfl
    · exact hstate _ _
    · exact hstate _ _
  | add_value r =>
    cases l <;> cases hs
    exact hone _ hr
  | schedule e r =>
    cases l <;> simp only [State.signal, Option.ite_none_right_eq_some, Option.some.injEq,
      reduceCtorEq] at hs
    case step => exact hs.2 ▸ hone _ hr
    case throws => exact hs.2 ▸ hone _ hr
  | replace r =>
    cases l <;> cases hs
    exact hone _ hr
  | async_io id =>
    cases l <;> simp only [State.signal, reduceCtorEq] at hs
    cases tag
    · obtain ⟨io, -, rfl⟩ := Option.map_eq_some_iff.mp hs
      exact known_of_push [.engaging id] h hstack rfl
        (fun g hg => .inr (List.mem_singleton.mp hg ▸ hr)) (.inr hr) (set_receiver rfl) rfl
    · cases hs
      exact hstate _ _
    · cases hs
      exact hstate _ _

theorem known_loop {id : Nat} {l : Label} {st : List Frame} (h : Known s)
    (hstack : s.stack = .loop id :: st) (hs : s.loop id st l = some s') : Known s' := by
  have hid : id < s.fresh := h.frames (.loop id) (hstack ▸ List.mem_cons_self)
  have hcall : ∀ new : List Frame, (∀ g ∈ new, g.Known s.fresh) →
      Known ((s.set id { s.states id with d_ready := false }).touch.goto (new ++ st)) :=
    fun new hnew =>
      known_of_push _ h hstack rfl (fun g hg => .inr (hnew g hg)) (.inl rfl) (set_receiver rfl) rfl
  unfold State.loop at hs
  dsimp only at hs
  split at hs
  · split at hs <;> cases hs
    · exact hcall [.signal _ _, .unlock id] (by simpa [Frame.Known] using ⟨h.states id, hid⟩)
    · exact hcall [.signal _ _, .unlock id] (by simpa [Frame.Known] using ⟨h.states id, hid⟩)
    · exact hcall [.start _ _, .loop id] (by simpa [Frame.Known, Receiver.Known] using hid)
    · exact hcall [.unwind id] (by simpa [Frame.Known] using hid)
  · obtain ⟨-, hs⟩ := Option.ite_none_right_eq_some.mp hs
    cases hs
    exact known_of_push [.unlock id] h hstack rfl (by simpa [Frame.Known] using hid)
      (.inl rfl) (fun _ => rfl) rfl

theorem known_stop {id : Nat} {f : Frame} {st : List Frame} (h : Known s)
    (hstack : s.stack = f :: st) (hid : id < s.fresh) (hs : s.stop id (f :: st) = some s') :
    Known s' := by
  obtain ⟨io, -, rfl⟩ := Option.map_eq_some_iff.mp hs
  refine known_of_push [.callback id, f] h hstack rfl (fun g hg => ?_) (.inl rfl)
    (set_receiver rfl) rfl
  simp only [List.mem_cons, List.not_mem_nil, or_false] at hg
  rcases hg with rfl | rfl
  · exact .inr hid
  · exact .inl rfl

theorem known_callback {id : Nat} {st : List Frame} (h : Known s)
    (hstack : s.stack = .callback id :: st) (hs : s.callback id st = some s') : Known s' := by
  simp only [State.callback, Option.bind_eq_bind, Option.bind_eq_some_iff] at hs
  obtain ⟨io, -, hs⟩ := hs
  split at hs
  · obtain ⟨io', -, hs⟩ := Option.bind_eq_some_iff.mp hs
    cases hs
    exact known_of_push [.outside] h hstack rfl (by simp [Frame.Known]) (.inl rfl)
      (set_receiver rfl) rfl
  · cases hs
    exact known_of_push [] h hstack rfl (by simp) (.inl rfl) (set_receiver rfl) rfl

theorem known_engaged {id : Nat} {st : List Frame} (h : Known s)
    (hstack : s.stack = .engaging id :: st) (hs : s.engaged id st = some s') : Known s' := by
  have hid : id < s.fresh := h.frames (.engaging id) (hstack ▸ List.mem_cons_self)
  simp only [State.engaged, Option.bind_eq_bind, Option.bind_eq_some_iff] at hs
  obtain ⟨io, -, io', -, hs⟩ := hs
  cases hs
  exact known_of_push [.outside] h hstack rfl (by simp [Frame.Known]) (.inr hid)
    (set_receiver rfl) rfl

/-- A result that completes the receiver or is stored. -/
theorem known_completion {id : Nat} {io : AsyncIo.State} (tag : Tag) {st : List Frame} (h : Known s)
    (hstack : s.stack = .outside :: st) :
    Known { (s.setIo id io).goto (.signal tag (s.states id).d_receiver :: .outside :: st) with
      pending := .none } ∧
    Known ((s.setIo id io).goto (.outside :: st)) := by
  refine ⟨known_of_push [.signal tag (s.states id).d_receiver, .outside] h hstack rfl ?_
    (.inr trivial) (set_receiver rfl) rfl, known_of_push [.outside] h hstack rfl
    (by simp) (.inl rfl) (set_receiver rfl) rfl⟩
  intro g hg
  simp only [List.mem_cons, List.not_mem_nil, or_false] at hg
  rcases hg with rfl | rfl
  · exact .inr (h.states id)
  · exact .inl rfl

theorem known_outside {l : Label} {st : List Frame} (h : Known s)
    (hstack : s.stack = .outside :: st) (hs : s.outside st l = some s') : Known s' := by
  have hpending := h.pending
  cases l <;> simp only [State.outside, reduceCtorEq] at hs
  case leave =>
    cases hs
    exact known_of_push [] h hstack rfl (by simp) (.inl rfl) (fun _ => rfl) rfl
  case complete tag =>
    split at hs <;> cases hs
    next r he =>
      rw [he] at hpending
      refine known_of_push [.signal tag r, .outside] h hstack rfl (fun g hg => ?_)
        (.inr trivial) (fun _ => rfl) rfl
      simp only [List.mem_cons, List.not_mem_nil, or_false] at hg
      rcases hg with rfl | rfl
      · exact .inr hpending
      · exact .inl rfl
  case stop =>
    split at hs
    · next id he =>
      rw [he] at hpending
      exact known_stop h hstack hpending hs
    · next id he =>
      rw [he] at hpending
      exact known_stop h hstack hpending hs
    · cases hs
  case result result flags =>
    split at hs
    · simp only [State.result, Option.bind_eq_bind, Option.bind_eq_some_iff] at hs
      obtain ⟨io, -, io', -, hs⟩ := hs
      split at hs
      · obtain ⟨io'', -, hs⟩ := Option.bind_eq_some_iff.mp hs
        cases hs
        exact (known_completion _ h hstack).1
      · cases hs
        exact (known_completion .set_value h hstack).2
    · cases hs
  case cancelled =>
    have hcancelled : ∀ id, s.cancelled id (.outside :: st) = some s' → Known s' := by
      intro id hs
      simp only [State.cancelled, Option.bind_eq_bind, Option.bind_eq_some_iff] at hs
      obtain ⟨io, -, io', -, hs⟩ := hs
      split at hs
      · obtain ⟨io'', -, hs⟩ := Option.bind_eq_some_iff.mp hs
        cases hs
        exact (known_completion _ h hstack).1
      · cases hs
        exact (known_completion .set_value h hstack).2
    split at hs
    · exact hcancelled _ hs
    · exact hcancelled _ hs
    · cases hs

/-- Every step refers to connected states only. -/
theorem known_step {l : Label} (h : Known s) (hs : next s l = some s') : Known s' := by
  unfold next at hs
  split at hs
  · cases hs
  · next st hstack => exact known_outside h hstack hs
  · next e r st hstack =>
    obtain ⟨-, hs⟩ := Option.ite_none_right_eq_some.mp hs
    cases hs
    exact known_start h hstack
  · next tag r st hstack => exact known_signal h hstack hs
  · next st hstack =>
    obtain ⟨-, hs⟩ := Option.ite_none_right_eq_some.mp hs
    cases hs
    exact known_of_push [] h hstack rfl (by simp) (.inl rfl) (fun _ => rfl) rfl
  · next id st hstack => exact known_loop h hstack hs
  · next id st hstack =>
    obtain ⟨-, hs⟩ := Option.ite_none_right_eq_some.mp hs
    cases hs
    exact known_of_push [] h hstack rfl (by simp) (.inl rfl) (set_receiver rfl) rfl
  · next id st hstack =>
    obtain ⟨-, hs⟩ := Option.ite_none_right_eq_some.mp hs
    cases hs
    exact known_of_push [.signal .set_error (s.states id).d_receiver] h hstack rfl
      (fun g hg => .inr (List.mem_singleton.mp hg ▸ h.states id)) (.inl rfl) (set_receiver rfl) rfl
  · next id st hstack =>
    split at hs
    · exact known_engaged h hstack hs
    · exact known_stop h hstack (h.frames (.engaging id) (hstack ▸ List.mem_cons_self)) hs
    · cases hs
  · next id st hstack =>
    obtain ⟨-, hs⟩ := Option.ite_none_right_eq_some.mp hs
    exact known_callback h hstack hs

theorem fresh_not_mem_locks {st : List Frame} (h : Known s) (hst : ∀ f ∈ st, f ∈ s.stack) :
    s.fresh ∉ locks st := by
  intro hid
  obtain ⟨f, hf, hlocks⟩ := List.mem_flatMap.mp hid
  have := h.frames f (hst f hf)
  cases f <;> simp only [Frame.locks, List.mem_singleton, List.not_mem_nil] at hlocks <;>
    subst hlocks <;> exact absurd this (Nat.lt_irrefl _)

end LifetimeLemmas

open LifetimeLemmas

/-- Every step of a nesting keeps the invariant, up to the completion of the
outer receiver. -/
theorem inv_step {s s' : State} {l : Label} (h : Inv s) (hk : Known s) (hs : next s l = some s') :
    Inv s' ∨
      ∃ tag st, s.stack = .signal tag .outer :: st ∧ s' = { s.goto st with completed := true } := by
  unfold next at hs
  split at hs
  · cases hs
  · next st hstack =>
    left
    have hne : ∀ id, s.pending = .operation id → s.pending ≠ .none := fun id he => by simp [he]
    cases l <;> simp only [State.outside, reduceCtorEq] at hs
    case leave => exact Option.some.inj hs ▸ inv_leave h hstack rfl
    case complete tag =>
      split at hs <;> cases hs
      next r he =>
        exact inv_of_calm _ (calm_of_pending h hstack (by simp [he]) (by simp [he]) h.alive rfl
          (fun _ => ⟨rfl, rfl⟩) h.io) rfl rfl fun id hid => absurd hid List.not_mem_nil
    case stop =>
      have htop : ∀ f st', Frame.outside :: st = f :: st' → f.busy = false ∧ f.isCallback = false := by
        rintro f st' he
        cases he
        exact ⟨rfl, rfl⟩
      split at hs
      · exact inv_stop h hstack htop hs
      · exact inv_stop h hstack htop hs
      · cases hs
    case result result flags =>
      split at hs
      · next id he => exact inv_result h hstack he hs
      · cases hs
    case cancelled =>
      split at hs
      · next id he => exact inv_cancelled h hstack (.inl he) hs
      · next id he => exact inv_cancelled h hstack (.inr he) hs
      · cases hs
  · next e r st hstack =>
    left
    obtain ⟨-, hs⟩ := Option.ite_none_right_eq_some.mp hs
    refine Option.some.inj hs ▸ inv_start (calm_of_busy h hstack rfl).1 ?_
    exact fresh_not_mem_locks hk fun f hf => hstack ▸ List.mem_cons_of_mem _ hf
  · next tag r st hstack =>
    rcases eq_or_ne r .outer with rfl | hr
    · right
      cases l <;> cases hs
      exact ⟨tag, st, hstack, rfl⟩
    · exact .inl (inv_signal (calm_of_busy h hstack rfl).1 hr hs)
  · next st hstack =>
    left
    obtain ⟨-, hs⟩ := Option.ite_none_right_eq_some.mp hs
    rw [touch_eq h.alive.1] at hs
    exact Option.some.inj hs ▸ inv_leave h hstack rfl
  · next id st hstack => exact .inl (inv_loop h hstack hs)
  · next id st hstack =>
    obtain ⟨-, hs⟩ := Option.ite_none_right_eq_some.mp hs
    exact .inl (Option.some.inj hs ▸ inv_unlock h hstack)
  · next id st hstack =>
    obtain ⟨-, hs⟩ := Option.ite_none_right_eq_some.mp hs
    exact .inl (Option.some.inj hs ▸ inv_unwind h hstack)
  · next id st hstack =>
    left
    split at hs
    · exact inv_engaged h hstack hs
    · refine inv_stop h hstack (fun f st' he => ?_) hs
      cases he
      exact ⟨rfl, rfl⟩
    · cases hs
  · next id st hstack =>
    obtain ⟨-, hs⟩ := Option.ite_none_right_eq_some.mp hs
    exact .inl (inv_callback h hstack hs)

end Kuhllib.Lifetime
