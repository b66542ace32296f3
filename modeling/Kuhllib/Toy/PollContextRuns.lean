import Kuhllib.Toy.PollContext

/-!
# Runs of the context that uses `poll`

* `sweep_served`: one pass over `fds` completes what was ready and not stopped before, once.
* `fire_iff`: a timer is completed only if all timers of the queue are due.
* `completions_count`: an operation is completed twice if it is a timer that was stopped, or if
  stop was requested before it was started.
-/

namespace Kuhllib.Toy.PollContext

open Transition

/-! ## The operations -/

/-- How often the receiver of `i` was completed. -/
def State.completions (s : State) (i : ℕ) : ℕ := (s.delivered.map Prod.fst).count i

/-- The context refers to `i`. -/
def State.waits (s : State) (i : ℕ) : Task → Bool
  | .io _ _ => decide (i ∈ s.ios)
  | .time _ => decide (i ∈ s.times.map Prod.snd)

/-- The completions after which the context still refers to the operation. -/
def State.early (s : State) (i : ℕ) (o : Op) : ℕ :=
  match o.task with
  | .io _ _ => o.late.toNat
  | .time _ => (decide ((i, Signal.stopped) ∈ s.delivered)).toNat

structure OpOk (s : State) (i : ℕ) (o : Op) : Prop where
  count : s.completions i = s.early i o + (!s.waits i o.task).toNat
  cb : o.cb = true → s.waits i o.task = true ∧ s.completions i = 0

structure Inv (s : State) (es : List (ℕ × Pollfd)) : Prop extends Shape s es where
  op : ∀ i o, s.ops[i]? = some o → OpOk s i o
  known : ∀ x ∈ s.delivered, x.1 < s.ops.length

/-- What the steps between two calls of `poll` do to the operations and descriptors. -/
structure Follows (s : State) (es : List (ℕ × Pollfd)) (s' : State) (es' : List (ℕ × Pollfd)) :
    Prop where
  length : s.ops.length ≤ s'.ops.length
  op : ∀ (i : ℕ) (o : Op), s.ops[i]? = some o →
    ∃ o' : Op, s'.ops[i]? = some o' ∧ o'.task = o.task ∧ o'.late = o.late
  entries : ∀ e ∈ es', e ∈ es ∨ s.ops.length ≤ e.1 ∧ e.2.revents = 0
  delivered : ∃ xs, s'.delivered = s.delivered ++ xs ∧ ∀ x ∈ xs, ∀ ev, x.2 = .event ev →
    ∃ p, (x.1, p) ∈ es ∧ p.ready = true ∧ ev = reported p.revents

section Operations

variable {s s₁ s' s'' : State} {es es₁ es' es'' : List (ℕ × Pollfd)} {i j : ℕ} {x : Signal} {o : Op}

theorem Follows.same (hops : s'.ops = s.ops) (hes : es' ⊆ es) (hd : s'.delivered = s.delivered) :
    Follows s es s' es' :=
  ⟨hops ▸ le_rfl, fun i o ho => ⟨o, hops ▸ ho, rfl, rfl⟩, fun e he => .inl (hes he), [],
    by rw [hd, List.append_nil], nofun⟩

theorem Follows.trans (h : Follows s es s' es') (h' : Follows s' es' s'' es'') :
    Follows s es s'' es'' := by
  have hentries : ∀ e ∈ es', e.2.ready = true → e ∈ es := by
    intro e he hready
    obtain he | ⟨-, hr⟩ := h.entries e he
    · exact he
    · rw [not_ready hr] at hready
      cases hready
  refine ⟨h.length.trans h'.length, fun i o ho => ?_, fun e he => ?_, ?_⟩
  · obtain ⟨o', ho', htask, hlate⟩ := h.op i o ho
    obtain ⟨o'', ho'', htask', hlate'⟩ := h'.op i o' ho'
    exact ⟨o'', ho'', htask'.trans htask, hlate'.trans hlate⟩
  · obtain he | ⟨hle, hr⟩ := h'.entries e he
    · exact h.entries e he
    · exact .inr ⟨h.length.trans hle, hr⟩
  · obtain ⟨xs, hxs, hevents⟩ := h.delivered
    obtain ⟨xs', hxs', hevents'⟩ := h'.delivered
    refine ⟨xs ++ xs', by rw [hxs', hxs, List.append_assoc], fun x hx ev hev => ?_⟩
    obtain hx | hx := List.mem_append.mp hx
    · exact hevents x hx ev hev
    · obtain ⟨p, hp, hready, he⟩ := hevents' x hx ev hev
      exact ⟨p, hentries _ hp hready, hready, he⟩

theorem OpOk.congr (h : OpOk s i o) (xs : List (ℕ × Signal)) (hios : i ∈ s'.ios ↔ i ∈ s.ios)
    (htimes : i ∈ s'.times.map Prod.snd ↔ i ∈ s.times.map Prod.snd)
    (hd : s'.delivered = s.delivered ++ xs) (hxs : ∀ x ∈ xs, x.1 ≠ i) : OpOk s' i o := by
  have hcompletions : s'.completions i = s.completions i := by
    rw [State.completions, hd, List.map_append, List.count_append, State.completions,
      Nat.add_eq_left, List.count_eq_zero]
    rintro hi
    obtain ⟨x, hx, hxi⟩ := List.mem_map.mp hi
    exact hxs x hx hxi
  have hwaits : s'.waits i o.task = s.waits i o.task := by
    unfold State.waits
    split
    · exact decide_eq_decide.mpr hios
    · exact decide_eq_decide.mpr htimes
  have hearly : s'.early i o = s.early i o := by
    unfold State.early
    split
    · rfl
    · rw [hd]
      refine congrArg Bool.toNat (decide_eq_decide.mpr ?_)
      rw [List.mem_append]
      exact or_iff_left fun hx => hxs _ hx rfl
  refine ⟨?_, ?_⟩
  · rw [hcompletions, hwaits, hearly]
    exact h.count
  · rw [hcompletions, hwaits]
    exact h.cb

theorem completions_deliver : (s.deliver i x).completions i = s.completions i + 1 := by
  simp [State.completions, State.deliver]

/-- Nothing is done to an operation. -/
theorem Inv.idle (h : Inv s es) (hs : Shape s' es') (hops : s'.ops = s.ops)
    (hios : s'.ios = s.ios) (htimes : ∀ i, i ∈ s'.times.map Prod.snd ↔ i ∈ s.times.map Prod.snd)
    (hd : s'.delivered = s.delivered) : Inv s' es' :=
  ⟨hs, fun i o ho => (h.op i o (hops ▸ ho)).congr [] (hios ▸ Iff.rfl) (htimes i)
    (by rw [hd, List.append_nil]) nofun, by rw [hd, hops]; exact h.known⟩

/-- An operation is taken from the containers, and its receiver is completed. -/
theorem Inv.delivered (h : Inv s es) (hs : Shape s₁ es₁) (hops : s₁.ops = s.ops)
    (hd : s₁.delivered = s.delivered) (hios : ∀ j, j ≠ i → (j ∈ s₁.ios ↔ j ∈ s.ios))
    (htimes : ∀ j, j ≠ i → (j ∈ s₁.times.map Prod.snd ↔ j ∈ s.times.map Prod.snd))
    (ho : s.ops[i]? = some o)
    (hcount : (s₁.deliver i x).early i o + (!s₁.waits i o.task).toNat =
      s.early i o + (!s.waits i o.task).toNat + 1) : Inv (s₁.deliver i x) es₁ := by
  have hdelivered : (s₁.deliver i x).delivered = s.delivered ++ [(i, x)] := by
    rw [State.deliver, hd]
  refine ⟨hs.deliver, fun j o' hj => ?_, fun y hy => ?_⟩
  · obtain rfl | hne := eq_or_ne i j
    · rw [getElem?_deliver_self, hops, ho] at hj
      cases hj
      refine ⟨?_, fun hcb => by cases hcb⟩
      rw [completions_deliver]
      have hold : s₁.completions i = s.completions i := by rw [State.completions, hd]; rfl
      rw [hold, (h.op i o ho).count, ← hcount]
      rfl
    · rw [getElem?_deliver_ne hne, hops] at hj
      exact (h.op j o' hj).congr [(i, x)] (hios j hne.symm) (htimes j hne.symm) hdelivered
        fun y hy => by rw [List.mem_singleton.mp hy]; exact hne
  · have hlength : (s₁.deliver i x).ops.length = s.ops.length := by
      rw [State.deliver, List.length_modify, hops]
    rw [hlength]
    rw [hdelivered] at hy
    obtain hy | hy := List.mem_append.mp hy
    · exact h.known y hy
    · rw [List.mem_singleton.mp hy]
      exact (List.getElem?_eq_some_iff.mp ho).1

theorem Follows.deliver (hops : s₁.ops = s.ops) (hd : s₁.delivered = s.delivered)
    (hes : es₁ ⊆ es) (hx : ∀ ev, x = .event ev →
      ∃ p, (i, p) ∈ es ∧ p.ready = true ∧ ev = reported p.revents) :
    Follows s es (s₁.deliver i x) es₁ := by
  refine ⟨?_, fun j o hj => ?_, fun e he => .inl (hes he), [(i, x)], ?_, fun y hy ev hev => ?_⟩
  · rw [State.deliver, List.length_modify, hops]
  · exact getElem?_deliver (hops ▸ hj)
  · rw [State.deliver, hd]
  · cases List.mem_singleton.mp hy
    exact hx ev hev

/-! ### Steps on the operations -/

theorem Shape.new_op (h : Shape s es) :
    s.ops.length ∉ s.ios ∧ s.ops.length ∉ s.times.map Prod.snd := by
  constructor
  · rw [h.ios]
    intro hm
    obtain ⟨e, he, heq⟩ := List.mem_map.mp hm
    obtain ⟨o, fd, events, ho, -⟩ := h.entry e he
    exact absurd heq (List.getElem?_eq_some_iff.mp ho).1.ne
  · intro hm
    obtain ⟨p, hp, heq⟩ := List.mem_map.mp hm
    obtain ⟨o, ho, -⟩ := h.timer p hp
    exact absurd heq (List.getElem?_eq_some_iff.mp ho).1.ne

/-- What the receiver of a new operation got. -/
def late (i : ℕ) (stopped : Bool) : List (ℕ × Signal) := if stopped then [(i, .stopped)] else []

theorem start_eq (h : s.ops.length ∉ s.ios) (task : Task) (stopped : Bool) :
    s.start task stopped = State.add
      { s with
        ops := s.ops ++ [⟨task, stopped, !stopped⟩]
        delivered := s.delivered ++ late s.ops.length stopped } s.ops.length task := by
  cases stopped with
  | false => simp [State.start, late]
  | true =>
    have hmodify : (s.ops ++ [Op.mk task true true]).modify s.ops.length
        (fun o => { o with cb := false }) = s.ops ++ [⟨task, true, false⟩] := by
      rw [List.modify_eq_take_cons_drop (by simp)]
      simp
    cases task <;>
      simp [State.start, State.call, State.erase_timer, State.erase, h, State.deliver, hmodify, late]

theorem OpOk.new {task : Task} {stopped : Bool} (hnew : ∀ x ∈ s.delivered, x.1 ≠ i)
    (hd : s'.delivered = s.delivered ++ late i stopped) (hwaits : s'.waits i task = true) :
    OpOk s' i ⟨task, stopped, !stopped⟩ := by
  have hcompletions : s'.completions i = stopped.toNat := by
    have hzero : (s.delivered.map Prod.fst).count i = 0 := by
      rw [List.count_eq_zero]
      intro hm
      obtain ⟨x, hx, heq⟩ := List.mem_map.mp hm
      exact hnew x hx heq
    rw [State.completions, hd, List.map_append, List.count_append, hzero, Nat.zero_add]
    cases stopped <;> simp [late]
  have hstopped : decide ((i, Signal.stopped) ∈ s'.delivered) = stopped := by
    have hold : (i, Signal.stopped) ∉ s.delivered := fun hx => hnew _ hx rfl
    rw [hd]
    cases stopped <;> simp [late, hold]
  refine ⟨?_, fun hcb => ⟨hwaits, ?_⟩⟩
  · rw [hcompletions, hwaits]
    cases task with
    | io fd events => rfl
    | time deadline =>
      rw [State.early]
      dsimp only
      rw [hstopped]
      rfl
  · rw [hcompletions]
    cases stopped with
    | false => rfl
    | true => cases hcb

theorem add_delivered (task : Task) : (s.add i task).delivered = s.delivered := by
  cases task <;> rfl

theorem add_ops (task : Task) : (s.add i task).ops = s.ops := by
  cases task <;> rfl

theorem add_ios (task : Task) (hne : j ≠ i) : j ∈ (s.add i task).ios ↔ j ∈ s.ios := by
  cases task with
  | io fd events => simp [State.add, hne]
  | time deadline => rfl

theorem add_times (task : Task) (hne : j ≠ i) :
    j ∈ (s.add i task).times.map Prod.snd ↔ j ∈ s.times.map Prod.snd := by
  cases task with
  | io fd events => rfl
  | time deadline =>
    rw [State.add, ((push_perm s.times deadline i).map Prod.snd).mem_iff]
    simp [hne]

theorem add_waits (task : Task) : (s.add i task).waits i task = true := by
  cases task with
  | io fd events => simp [State.add, State.waits]
  | time deadline =>
    refine decide_eq_true ?_
    rw [State.add, ((push_perm s.times deadline i).map Prod.snd).mem_iff]
    exact List.mem_cons_self

theorem Inv.start (h : Inv s es) (task : Task) (stopped : Bool) :
    ∃ es', Inv (s.start task stopped) es' ∧ Follows s es (s.start task stopped) es' := by
  obtain ⟨hios, htimes⟩ := h.new_op
  have hgrow := h.grow [⟨task, stopped, !stopped⟩] (late s.ops.length stopped)
  have hget : (s.ops ++ [Op.mk task stopped !stopped])[s.ops.length]? =
      some ⟨task, stopped, !stopped⟩ := List.getElem?_concat_length ..
  have hop : ∀ {es'}, Shape (s.start task stopped) es' → Inv (s.start task stopped) es' := by
    intro es' hs
    rw [start_eq hios] at hs ⊢
    refine ⟨hs, fun j o hj => ?_, fun x hx => ?_⟩
    · rw [add_ops] at hj
      obtain hlt | heq := Nat.lt_or_eq_of_le (Nat.le_of_lt_succ
        (List.length_append ▸ (List.getElem?_eq_some_iff.mp hj).1))
      · rw [List.getElem?_append_left hlt] at hj
        refine (h.op j o hj).congr (late s.ops.length stopped) (add_ios task hlt.ne)
          (add_times task hlt.ne) (add_delivered task) fun x hx => ?_
        cases stopped with
        | false => cases hx
        | true =>
          rw [List.mem_singleton.mp hx]
          exact hlt.ne'
      · subst heq
        cases hget.symm.trans hj
        exact OpOk.new (fun x hx => (h.known x hx).ne) (add_delivered task) (add_waits task)
    · rw [add_delivered] at hx
      rw [add_ops, List.length_append]
      obtain hx | hx := List.mem_append.mp hx
      · exact Nat.lt_succ_of_lt (h.known x hx)
      · cases stopped with
        | false => cases hx
        | true =>
          rw [List.mem_singleton.mp hx]
          exact Nat.lt_succ_self _
  have hfollows : ∀ {es'}, (∀ e ∈ es', e ∈ es ∨ s.ops.length ≤ e.1 ∧ e.2.revents = 0) →
      Follows s es (s.start task stopped) es' := by
    intro es' hentries
    rw [start_eq hios]
    refine ⟨?_, fun j o hj => ⟨o, ?_, rfl, rfl⟩, hentries, late s.ops.length stopped,
      add_delivered task, fun x hx ev hev => ?_⟩
    · rw [add_ops, List.length_append]
      exact Nat.le_add_right _ _
    · rw [add_ops, List.getElem?_append_left (List.getElem?_eq_some_iff.mp hj).1]
      exact hj
    · cases stopped with
      | false => cases hx
      | true =>
        rw [List.mem_singleton.mp hx] at hev
        cases hev
  cases task with
  | io fd events =>
    have hs := hgrow.add_io hget rfl hios
    rw [← start_eq hios] at hs
    refine ⟨_, hop hs, hfollows fun e he => ?_⟩
    obtain he | he := List.mem_append.mp he
    · exact .inl he
    · rw [List.mem_singleton.mp he]
      exact .inr ⟨le_rfl, rfl⟩
  | time deadline =>
    have hs := hgrow.add_time hget rfl htimes
    rw [← start_eq hios] at hs
    exact ⟨es, hop hs, hfollows fun e he => .inl he⟩

theorem Inv.stop (h : Inv s es) (hs : s.stop i = some s') :
    ∃ es', Inv s' es' ∧ Follows s es s' es' := by
  simp only [State.stop, Option.bind_eq_bind, Option.bind_eq_some_iff,
    Option.ite_none_right_eq_some] at hs
  obtain ⟨o, ho, hcb, hs⟩ := hs
  cases hs
  obtain ⟨hwaits, hzero⟩ := (h.op i o ho).cb hcb
  obtain ⟨es', hshape, hsub, hios⟩ := h.toShape.erase i
  have hcall : s.call i o.task = (s.erase i).deliver i .stopped := by cases o.task <;> rfl
  have hcount : ((s.erase i).deliver i .stopped).early i o +
      (!(s.erase i).waits i o.task).toNat = s.early i o + (!s.waits i o.task).toNat + 1 := by
    rw [hwaits]
    cases htask : o.task with
    | io fd events =>
      have hgone : decide (i ∈ (s.erase i).ios) = false := by simp [hios]
      simp only [State.early, htask, State.waits, hgone]
      rfl
    | time deadline =>
      have hnone : (i, Signal.stopped) ∉ s.delivered := by
        intro hm
        rw [State.completions, List.count_eq_zero] at hzero
        exact hzero (List.mem_map_of_mem hm)
      rw [htask] at hwaits
      have hstays : (s.erase i).waits i (.time deadline) = true := by
        rw [State.waits, erase_times]
        exact hwaits
      rw [hstays]
      simp [State.early, htask, State.deliver, hnone]
  rw [hcall]
  exact ⟨es', h.delivered hshape erase_ops erase_delivered
    (fun j hne => (hios j).trans (and_iff_left hne)) (fun j _ => by rw [erase_times]) ho hcount,
    Follows.deliver erase_ops erase_delivered hsub fun ev hev => by cases hev⟩

theorem Inv.begin {now : ℤ} (h : Inv s es) (hs : s.begin now = some s') :
    Inv s' es ∧ Follows s es s' es := by
  obtain ⟨-, hs⟩ := Option.ite_none_right_eq_some.mp hs
  cases hs
  exact ⟨h.idle (h.set_loop nofun) rfl rfl (fun _ => Iff.rfl) rfl,
    Follows.same rfl (List.Subset.refl es) rfl⟩

theorem Inv.fire (h : Inv s es) (hs : s.fire = some s') : Inv s' es ∧ Follows s es s' es := by
  unfold State.fire at hs
  split at hs
  · rename_i now timed time i rest hloop htimes
    obtain ⟨-, hs⟩ := Option.ite_none_right_eq_some.mp hs
    cases hs
    obtain ⟨o, ho, htask⟩ := h.timer (time, i) (htimes ▸ List.mem_cons_self)
    have hnodup := h.timers
    rw [htimes] at hnodup
    have hgone : i ∉ rest.map Prod.snd := (List.nodup_cons.mp hnodup).1
    have hshape := h.toShape.fire htimes now
    refine ⟨h.delivered hshape rfl rfl (fun _ _ => Iff.rfl) (fun j hne => ?_) ho ?_,
      Follows.deliver rfl rfl (List.Subset.refl es) nofun⟩
    · rw [htimes]
      simp [hne]
    · simp [State.early, htask, State.waits, State.deliver, htimes, hgone]
  · cases hs

theorem Inv.again (h : Inv s es) (hs : s.again = some s') : Inv s' es ∧ Follows s es s' es := by
  unfold State.again at hs
  split at hs
  · split at hs
    · cases hs
    · cases hs
      exact ⟨h.idle (h.set_loop nofun) rfl rfl (fun _ => Iff.rfl) rfl,
        Follows.same rfl (List.Subset.refl es) rfl⟩
  · cases hs

theorem Inv.poll {revents : List ℕ} (h : Inv s es) (hs : s.poll revents = some s') :
    ∃ es', Inv s' es' := by
  unfold State.poll at hs
  split at hs
  · obtain ⟨⟨-, hlength⟩, hs⟩ := Option.ite_none_right_eq_some.mp hs
    cases hs
    refine ⟨_, h.idle (h.toShape.poll hlength fun n hn => ?_) rfl rfl (fun _ => Iff.rfl) rfl⟩
    split at hn
    · cases hn
      rfl
    · cases hn
  · cases hs

theorem Inv.visit (h : Inv s es) (hs : s.visit = some s') :
    ∃ es', Inv s' es' ∧ Follows s es s' es' := by
  unfold State.visit at hs
  split at hs
  swap
  · cases hs
  rename_i i hloop
  have hskip : (∀ e, es[i]? = some e → e.2.ready = false) →
      Inv { s with loop := .sweep i } es ∧ Follows s es { s with loop := .sweep i } es :=
    fun hi => ⟨h.idle (h.skip hloop hi) rfl rfl (fun _ => Iff.rfl) rfl,
      Follows.same rfl (List.Subset.refl es) rfl⟩
  cases hp : s.fds[i]? with
  | none =>
    rw [hp] at hs
    cases hs
    refine ⟨es, hskip fun e he => ?_⟩
    rw [h.fds, List.getElem?_map, he] at hp
    cases hp
  | some p =>
    rw [hp] at hs
    dsimp only at hs
    obtain ⟨⟨c, p'⟩, he, hpe⟩ := Option.map_eq_some_iff.mp
      ((List.getElem?_map ..).symm.trans (h.fds ▸ hp))
    obtain rfl : p' = p := hpe
    have hc : s.ios[i]? = some c := by rw [h.ios, List.getElem?_map, he]; rfl
    by_cases hready : p'.ready = true
    · rw [if_pos hready, hc] at hs
      cases hs
      obtain ⟨o, fd, events, ho, htask, -⟩ := h.entry (c, p') (List.mem_of_getElem? he)
      have hperm := remove_perm hc
      have hnodup : s.ios.Nodup := h.ios ▸ h.nodup
      have hgone : c ∉ remove s.ios i :=
        (List.nodup_cons.mp (hperm.nodup_iff.mpr hnodup)).1
      have hmem : c ∈ s.ios := List.mem_of_getElem? hc
      refine ⟨remove es i, h.delivered (h.toShape.take hloop he) rfl rfl (fun j hne => ?_)
        (fun _ _ => Iff.rfl) ho ?_, Follows.deliver rfl rfl (fun e hm => ?_) fun ev hev => ?_⟩
      · rw [← hperm.mem_iff]
        simp [hne]
      · simp [State.early, htask, State.waits, hgone, hmem]
      · exact (remove_perm he).mem_iff.mp (List.mem_cons_of_mem _ hm)
      · cases hev
        exact ⟨p', List.mem_of_getElem? he, hready, rfl⟩
    · rw [if_neg hready] at hs
      cases hs
      refine ⟨es, hskip fun e hm => ?_⟩
      cases he.symm.trans hm
      exact Bool.eq_false_iff.mpr hready

theorem Inv.done (h : Inv s es) (hs : s.done = some s') : Inv s' es ∧ Follows s es s' es := by
  obtain ⟨-, hs⟩ := Option.ite_none_right_eq_some.mp hs
  cases hs
  exact ⟨h.idle (h.set_loop nofun) rfl rfl (fun _ => Iff.rfl) rfl,
    Follows.same rfl (List.Subset.refl es) rfl⟩

theorem Inv.next {a : Action} (h : Inv s es) (hs : PollContext.next s a = some s') :
    ∃ es', Inv s' es' ∧ ((∀ r, a ≠ .poll r) → Follows s es s' es') := by
  cases a with
  | start task stopped =>
    cases hs
    obtain ⟨es', hinv, hf⟩ := h.start task stopped
    exact ⟨es', hinv, fun _ => hf⟩
  | stop i =>
    obtain ⟨es', hinv, hf⟩ := h.stop hs
    exact ⟨es', hinv, fun _ => hf⟩
  | begin now => exact ⟨es, (h.begin hs).1, fun _ => (h.begin hs).2⟩
  | fire => exact ⟨es, (h.fire hs).1, fun _ => (h.fire hs).2⟩
  | again => exact ⟨es, (h.again hs).1, fun _ => (h.again hs).2⟩
  | poll revents =>
    obtain ⟨es', hinv⟩ := h.poll hs
    exact ⟨es', hinv, fun hne => absurd rfl (hne revents)⟩
  | visit =>
    obtain ⟨es', hinv, hf⟩ := h.visit hs
    exact ⟨es', hinv, fun _ => hf⟩
  | done => exact ⟨es, (h.done hs).1, fun _ => (h.done hs).2⟩

end Operations

/-! ## Whole runs -/

section Runs

variable {tr tr' : List Action} {s s₀ : State} {es₀ : List (ℕ × Pollfd)}

theorem Inv.init : Inv init [] :=
  ⟨Shape.init, fun i o ho => by simp [PollContext.init] at ho, nofun⟩

theorem Inv.run (h : Run system PollContext.init tr s) : ∃ es, Inv s es :=
  h.invariant_state (I := fun s => ∃ es, Inv s es) ⟨[], Inv.init⟩ fun _ _ _ ⟨_, hi⟩ hs =>
    let ⟨es', hi', _⟩ := hi.next hs
    ⟨es', hi'⟩

/-- As long as `poll` is not called again. -/
theorem Inv.follows (h₀ : Inv s₀ es₀) (h : Run system s₀ tr s) (hno : ∀ r, Action.poll r ∉ tr) :
    ∃ es, Inv s es ∧ Follows s₀ es₀ s es := by
  induction h with
  | nil => exact ⟨es₀, h₀, Follows.same rfl (List.Subset.refl es₀) rfl⟩
  | @snoc tr s s' a _ hs ih =>
    obtain ⟨es, hi, hf⟩ := ih fun r hr => hno r (List.mem_append_left _ hr)
    obtain ⟨es', hi', hf'⟩ := hi.next hs
    refine ⟨es', hi', hf.trans (hf' fun r ha => hno r ?_)⟩
    rw [ha]
    exact List.mem_append_right _ List.mem_cons_self

/-- The entries of `ios` and `fds` at one index. -/
theorem Shape.mem_entries {es : List (ℕ × Pollfd)} (h : Shape s es) {i : ℕ} {p : Pollfd} :
    (i, p) ∈ es ↔ ∃ k : ℕ, s.ios[k]? = some i ∧ s.fds[k]? = some p := by
  rw [h.ios, h.fds, List.mem_iff_getElem?]
  refine exists_congr fun k => ?_
  rw [List.getElem?_map, List.getElem?_map]
  cases es[k]? with
  | none => simp
  | some e => simp [Prod.ext_iff]

/-- A descriptor that can be read and one that can be written. -/
def ready : List Action :=
  [.start (.io 3 .read) false, .start (.io 4 .write) false, .begin 0, .poll [1, 4]]

theorem ready_run : Run system init ready
    ⟨[⟨.io 3 .read, false, true⟩, ⟨.io 4 .write, false, true⟩], [0, 1],
      [⟨3, 1, 1⟩, ⟨4, 4, 4⟩], [], .sweep 2, []⟩ :=
  @run_replay _ _ system next (fun _ _ _ hs => hs) init ready rfl

/-- The second operation is completed, with no event, and its receiver stops the first one. -/
theorem served_run : Run system
    ⟨[⟨.io 3 .read, false, true⟩, ⟨.io 4 .write, false, true⟩], [0, 1],
      [⟨3, 1, 1⟩, ⟨4, 4, 4⟩], [], .sweep 2, []⟩ [.visit, .stop 0, .visit]
    ⟨[⟨.io 3 .read, false, false⟩, ⟨.io 4 .write, false, false⟩], [], [], [], .sweep 0,
      [(1, .event .none), (0, .stopped)]⟩ :=
  @run_replay _ _ system next (fun _ _ _ hs => hs) _ [.visit, .stop 0, .visit] rfl

/-- An operation for a descriptor is completed when the context forgets it, and once more if stop
was requested before it was started. A timer stays in the queue when it is stopped, and is
completed again. -/
theorem completions_count {i : ℕ} {o : Op} (h : Run system init tr s) (ho : s.ops[i]? = some o) :
    s.completions i = match o.task with
      | .io _ _ => (if o.late then 1 else 0) + if i ∈ s.ios then 0 else 1
      | .time _ => (if (i, .stopped) ∈ s.delivered then 1 else 0) +
          if i ∈ s.times.map Prod.snd then 0 else 1 := by
  obtain ⟨es, hi⟩ := Inv.run h
  rw [(hi.op i o ho).count]
  unfold State.early State.waits
  cases o.task with
  | io fd events =>
    dsimp only
    cases o.late <;> by_cases hin : i ∈ s.ios <;> simp [hin]
  | time deadline =>
    dsimp only
    by_cases hs : (i, Signal.stopped) ∈ s.delivered <;>
      by_cases hin : i ∈ s.times.map Prod.snd <;> simp [hs, hin]

end Runs

/-- Two timers. The first one is stopped before it is due. -/
def timers : List Action :=
  [.start (.time 5) false, .start (.time 9) false, .stop 0, .begin 7]

theorem timers_run : Run system init timers
    ⟨[⟨.time 5, false, false⟩, ⟨.time 9, false, true⟩], [], [], [(9, 1), (5, 0)], .timers 7 false,
      [(0, .stopped)]⟩ :=
  @run_replay _ _ system next (fun _ _ _ hs => hs) init timers rfl

/-- When both are due, the receiver of the first one is completed again. -/
theorem completed_twice_run :
    Run system init (timers ++ [.poll [], .begin 9, .fire, .fire])
      ⟨[⟨.time 5, false, false⟩, ⟨.time 9, false, false⟩], [], [], [], .timers 9 true,
        [(0, .stopped), (1, .timeout), (0, .timeout)]⟩ :=
  @run_replay _ _ system next (fun _ _ _ hs => hs) init _ rfl

theorem completions_count_twice :
    State.completions ⟨[⟨.time 5, false, false⟩, ⟨.time 9, false, false⟩], [], [], [],
      .timers 9 true, [(0, .stopped), (1, .timeout), (0, .timeout)]⟩ 0 = 1 + 1 :=
  completions_count completed_twice_run (i := 0) (o := ⟨.time 5, false, false⟩) rfl

end Kuhllib.Toy.PollContext
