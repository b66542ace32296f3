import Kuhllib.File.Context
import Kuhllib.Lib.Transition
import Mathlib.Data.List.Forall2
import Mathlib.Data.List.Nodup

/-!
# `nstd::file::observer_context`

The observer passes each operation on with a continuation object of its own, and
each result to the continuation that the object stands for. The objects are never
deleted, so the number of an object is its address.

`do_cancel` calls the continuation itself if it does not find the operation, and
holds `d_mutex` while it does. The wrapped context calls each object that it got at
most once, at any time.

Results:
1. `inv_step`: the outstanding objects are those that the wrapped context works on,
   and every object is one or was called.
2. `transparent`: what the wrapped context gets and what the continuations get, in
   all runs.
-/

namespace Kuhllib.ObserverContext

open Transition Context

/-- The calls of a context: `run_one()` and the operations. -/
inductive Call (κ : Type)
  | run_one
  | submit (op : Operation κ) (cont : κ)
  deriving DecidableEq, Repr

/-- The arguments of `result`. -/
structure Result where
  rc : Int
  flags : BitVec 32
  deriving DecidableEq, Repr

/-- `continuations` are the members `d_cont` of the continuation objects made so far,
`pending` the objects that the wrapped context works on, `calls` the calls
`cont->result(rc, flags)` that `do_result` is about to make, and `d_mutex` the
continuation that is called while the mutex is held. -/
structure State (κ : Type) where
  continuations : List κ
  d_outstanding : List Nat
  pending : List Nat
  calls : List (κ × Result)
  d_mutex : Option κ
  deriving DecidableEq, Repr

variable {κ : Type}

def State.initial : State κ := ⟨[], [], [], [], none⟩

def State.d_cont (s : State κ) (c : Nat) : Option κ := s.continuations[c]?

/-- `add(cont, fun)`. -/
def State.add (s : State κ) (cont : κ) : Nat × State κ :=
  let rc := s.continuations.length
  (rc, { s with
    continuations := s.continuations ++ [cont], d_outstanding := rc :: s.d_outstanding })

/-- The wrapped context gets an operation with a new object. -/
def State.forward (s : State κ) (op : Operation Nat) (cont : κ) : Option (Call Nat) × State κ :=
  let (c, s) := s.add cont
  (some (.submit op c), { s with pending := c :: s.pending })

def do_cancel [DecidableEq κ] (s : State κ) (to_cancel cont : κ) : Option (Call Nat) × State κ :=
  match s.d_outstanding.find? fun c => s.d_cont c = some to_cancel with
  | none => (none, { s with d_mutex := some cont })
  | some upstream => s.forward (.cancel upstream) cont

def do_nop (s : State κ) (cont : κ) : Option (Call Nat) × State κ := s.forward .nop cont

def do_timer (s : State κ) (spec : Nat) (cont : κ) : Option (Call Nat) × State κ :=
  s.forward (.timer spec) cont

def do_accept (s : State κ) (fd : Int) (addr len : Nat) (flags : Int) (cont : κ) :
    Option (Call Nat) × State κ :=
  s.forward (.accept fd addr len flags) cont

def do_connect (s : State κ) (fd : Int) (addr len : Nat) (cont : κ) :
    Option (Call Nat) × State κ :=
  s.forward (.connect fd addr len) cont

def do_sendmsg (s : State κ) (fd : Int) (hdr : Nat) (len : Int) (cont : κ) :
    Option (Call Nat) × State κ :=
  s.forward (.sendmsg fd hdr len) cont

def do_recvmsg (s : State κ) (fd : Int) (hdr : Nat) (len : Int) (cont : κ) :
    Option (Call Nat) × State κ :=
  s.forward (.recvmsg fd hdr len) cont

def do_read (s : State κ) (fd : Int) (vec len : Nat) (cont : κ) : Option (Call Nat) × State κ :=
  s.forward (.read fd vec len) cont

-- calls `read` of the wrapped context
def do_write (s : State κ) (fd : Int) (vec len : Nat) (cont : κ) : Option (Call Nat) × State κ :=
  s.forward (.read fd vec len) cont

def do_open_at (s : State κ) (fd : Int) (path : Nat) (flags : Int) (cont : κ) :
    Option (Call Nat) × State κ :=
  s.forward (.open_at fd path flags) cont

/-- What the wrapped context gets of an operation, if anything. -/
def submit [DecidableEq κ] (s : State κ) : Operation κ → κ → Option (Call Nat) × State κ
  | .cancel to_cancel => do_cancel s to_cancel
  | .nop => do_nop s
  | .timer spec => do_timer s spec
  | .accept fd addr len flags => do_accept s fd addr len flags
  | .connect fd addr len => do_connect s fd addr len
  | .sendmsg fd hdr len => do_sendmsg s fd hdr len
  | .recvmsg fd hdr len => do_recvmsg s fd hdr len
  | .read fd vec len => do_read s fd vec len
  | .write fd vec len => do_write s fd vec len
  | .open_at fd path flags => do_open_at s fd path flags

/-- `submit` carries what the wrapped context gets. -/
inductive Label (κ : Type)
  | submit (op : Operation κ) (cont : κ) (got : Option (Call Nat))
  | run_one
  | do_result (c : Nat) (r : Result)
  | result (cont : κ) (r : Result)
  | not_found (cont : κ) (r : Result)
  deriving DecidableEq, Repr

/-- `-ENOENT`. -/
def enoent : Result := ⟨-2, 0⟩

def next [DecidableEq κ] (s : State κ) : Label κ → Option (State κ)
  | .submit op cont got =>
    if s.d_mutex = none ∧ (submit s op cont).1 = got then some (submit s op cont).2 else none
  | .run_one => some s
  | .do_result c r =>
    match s.d_cont c with
    | some cont =>
      if s.d_mutex = none ∧ c ∈ s.pending then
        some { s with
          pending := s.pending.erase c
          d_outstanding := s.d_outstanding.erase c
          calls := (cont, r) :: s.calls }
      else none
    | none => none
  | .result cont r =>
    if (cont, r) ∈ s.calls then some { s with calls := s.calls.erase (cont, r) } else none
  | .not_found cont r =>
    if s.d_mutex = some cont ∧ r = enoent then some { s with d_mutex := none } else none

def system (κ : Type) [DecidableEq κ] : System (State κ) (Label κ) where
  init s := s = State.initial
  step s l s' := next s l = some s'

/-! ## 1. What a run has done -/

/-- The call of the observer, unless `do_cancel` does not find the operation. -/
def Label.passed : Label κ → Option (Call κ)
  | .submit op cont (some _) => some (.submit op cont)
  | .run_one => some .run_one
  | _ => none

/-- The call of the wrapped context. -/
def Label.received : Label κ → Option (Call Nat)
  | .submit _ _ got => got
  | .run_one => some .run_one
  | _ => none

def Label.refused : Label κ → Option (κ × Result)
  | .submit _ cont none => some (cont, enoent)
  | _ => none

def Label.delivered : Label κ → Option (Nat × Result)
  | .do_result c r => some (c, r)
  | _ => none

def Label.results : Label κ → Option (κ × Result)
  | .result cont r => some (cont, r)
  | _ => none

def Label.notFound : Label κ → Option (κ × Result)
  | .not_found cont r => some (cont, r)
  | _ => none

def Call.object : Call Nat → Option Nat
  | .submit _ c => some c
  | .run_one => none

/-- The wrapped context gets the same call, where the objects stand for the
continuations. Nothing is said about the operation that it gets for a `write`. -/
def Passes (s : State κ) : Call κ → Call Nat → Prop
  | .run_one, .run_one => True
  | .submit op cont, .submit op' c => s.d_cont c = some cont ∧
    ((∀ fd vec len, op ≠ .write fd vec len) → op'.map s.d_cont = op.map some)
  | _, _ => False

structure Inv (tr : List (Label κ)) (s : State κ) : Prop where
  passed : List.Forall₂ (Passes s) (tr.filterMap Label.passed) (tr.filterMap Label.received)
  objects : (tr.filterMap Label.received).filterMap Call.object =
    List.range s.continuations.length
  outstanding : s.d_outstanding.Perm s.pending
  account : (s.pending ++ (tr.filterMap Label.delivered).map Prod.fst).Perm
    (List.range s.continuations.length)
  results : ((tr.filterMap Label.delivered).map fun d => (s.d_cont d.1, d.2)).Perm
    ((tr.filterMap Label.results ++ s.calls).map fun r => (some r.1, r.2))
  refused : tr.filterMap Label.refused =
    tr.filterMap Label.notFound ++ s.d_mutex.toList.map fun cont => (cont, enoent)

namespace ObserverContextLemmas

variable {tr : List (Label κ)} {s s' : State κ} {op : Operation κ} {cont : κ}

theorem filterMap_snoc {α β : Type} (f : α → Option β) (xs : List α) (x : α) :
    (xs ++ [x]).filterMap f = xs.filterMap f ++ (f x).toList := by
  cases h : f x <;> simp [h]

theorem map_mono {op' : Operation Nat} {f g : Nat → Option κ}
    (hfg : ∀ c x, f c = some x → g c = some x) (h : op'.map f = op.map some) :
    op'.map g = op.map some := by
  cases op <;> cases op' <;> simp_all [Operation.map]

theorem passes_mono (hs : ∀ c x, s.d_cont c = some x → s'.d_cont c = some x)
    {a : Call κ} {b : Call Nat} (h : Passes s a b) : Passes s' a b := by
  cases a <;> cases b <;> try exact h
  exact ⟨hs _ _ h.1, fun hop => map_mono hs (h.2 hop)⟩

theorem inv_initial : Inv [] (State.initial : State κ) :=
  ⟨.nil, rfl, .refl _, .refl _, .refl _, rfl⟩

/-- `do_cancel` does not find the operation, or the wrapped context gets one. -/
theorem submit_cases [DecidableEq κ] (s : State κ) (op : Operation κ) (cont : κ) :
    (∃ t, op = .cancel t ∧ (∀ c ∈ s.d_outstanding, s.d_cont c ≠ some t) ∧
      submit s op cont = (none, { s with d_mutex := some cont })) ∨
    ∃ op', (∀ t, op = .cancel t → ∃ c ∈ s.d_outstanding, s.d_cont c = some t) ∧
      ((∀ fd vec len, op ≠ .write fd vec len) → op'.map s.d_cont = op.map some) ∧
      submit s op cont = s.forward op' cont := by
  cases op with
  | cancel t =>
    cases hf : s.d_outstanding.find? fun c => s.d_cont c = some t with
    | none =>
      refine .inl ⟨t, rfl, fun c hc he => ?_, by simp [submit, do_cancel, hf]⟩
      simpa [he] using List.find?_eq_none.mp hf c hc
    | some c =>
      have he : s.d_cont c = some t := by simpa using List.find?_some hf
      refine .inr ⟨.cancel c, fun t' ht => ?_, fun _ => ?_, by simp [submit, do_cancel, hf]⟩
      · cases ht
        exact ⟨c, List.mem_of_find?_eq_some hf, he⟩
      · simp [Operation.map, he]
  | write fd vec len =>
    exact .inr ⟨_, by rintro t ⟨⟩, fun h => absurd rfl (h fd vec len), rfl⟩
  | _ => exact .inr ⟨_, by rintro t ⟨⟩, fun _ => rfl, rfl⟩

/-- The wrapped context gets an operation with a new object. -/
theorem inv_forward {op' : Operation Nat} (h : Inv tr s)
    (hop : (∀ fd vec len, op ≠ .write fd vec len) → op'.map s.d_cont = op.map some) :
    Inv (tr ++ [.submit op cont (s.forward op' cont).1]) (s.forward op' cont).2 := by
  have hmono : ∀ c x, s.d_cont c = some x → (s.forward op' cont).2.d_cont c = some x := by
    intro c x hx
    obtain ⟨hlt, -⟩ := List.getElem?_eq_some_iff.mp hx
    exact (List.getElem?_append_left hlt).trans hx
  have hnew : (s.forward op' cont).2.d_cont s.continuations.length = some cont :=
    List.getElem?_concat_length
  have hlength : (s.forward op' cont).2.continuations.length = s.continuations.length + 1 := by
    simp [State.forward, State.add]
  obtain ⟨hpassed, hobjects, houtstanding, haccount, hresults, hrefused⟩ := h
  refine ⟨?_, ?_, houtstanding.cons _, ?_, ?_, ?_⟩
  · rw [filterMap_snoc, filterMap_snoc]
    refine List.rel_append (hpassed.imp fun _ _ => passes_mono hmono) (.cons ?_ .nil)
    exact ⟨hnew, fun hw => map_mono hmono (hop hw)⟩
  · rw [filterMap_snoc, List.filterMap_append, hobjects, hlength, List.range_succ]
    rfl
  · rw [filterMap_snoc, hlength, List.range_succ]
    simp only [Label.delivered, Option.toList_none, List.append_nil]
    exact (haccount.cons _).trans (List.perm_append_singleton _ _).symm
  · rw [filterMap_snoc, filterMap_snoc]
    simp only [Label.delivered, Label.results, Option.toList_none, List.append_nil]
    -- the objects that were called are old ones
    have hold : (tr.filterMap Label.delivered).map
        (fun d => ((s.forward op' cont).2.d_cont d.1, d.2)) =
        (tr.filterMap Label.delivered).map fun d => (s.d_cont d.1, d.2) := by
      refine List.map_congr_left fun d hd => ?_
      have hlt : d.1 < s.continuations.length := by
        rw [← List.mem_range, ← haccount.mem_iff]
        exact List.mem_append_right _ (List.mem_map_of_mem hd)
      obtain ⟨x, hx⟩ : ∃ x, s.d_cont d.1 = some x := ⟨_, List.getElem?_eq_getElem hlt⟩
      rw [hmono _ _ hx, hx]
    rw [hold]
    exact hresults
  · rw [filterMap_snoc, filterMap_snoc]
    simpa [Label.refused, Label.notFound, State.forward, State.add] using hrefused

/-- `do_cancel` does not find the operation. -/
theorem inv_refuse (h : Inv tr s) (hm : s.d_mutex = none) :
    Inv (tr ++ [.submit op cont none]) { s with d_mutex := some cont } := by
  obtain ⟨hpassed, hobjects, houtstanding, haccount, hresults, hrefused⟩ := h
  refine ⟨?_, ?_, houtstanding, ?_, ?_, ?_⟩
  all_goals simp only [filterMap_snoc, Label.passed, Label.received, Label.delivered,
    Label.results, Label.refused, Label.notFound, Option.toList_none, Option.toList_some,
    List.append_nil]
  · exact hpassed
  · exact hobjects
  · exact haccount
  · exact hresults
  · simp [hrefused, hm]

/-- The wrapped context calls an object. -/
theorem inv_deliver [DecidableEq κ] {c : Nat} {r : Result} (h : Inv tr s)
    (hcont : s.d_cont c = some cont) (hc : c ∈ s.pending) :
    Inv (tr ++ [.do_result c r])
      { s with
        pending := s.pending.erase c, d_outstanding := s.d_outstanding.erase c
        calls := (cont, r) :: s.calls } := by
  obtain ⟨hpassed, hobjects, houtstanding, haccount, hresults, hrefused⟩ := h
  refine ⟨?_, ?_, houtstanding.erase c, ?_, ?_, ?_⟩
  all_goals simp only [filterMap_snoc, Label.passed, Label.received, Label.delivered,
    Label.results, Label.refused, Label.notFound, Option.toList_none, Option.toList_some,
    List.append_nil]
  · exact hpassed
  · exact hobjects
  · rw [List.map_append, ← List.append_assoc]
    have hmoved := (List.perm_append_singleton c _).trans
      ((List.perm_cons_erase hc).symm.append_right ((tr.filterMap Label.delivered).map Prod.fst))
    exact hmoved.trans haccount
  · have hone : (s.d_cont c, r) = (some cont, r) := by rw [hcont]
    rw [List.map_append, List.map_append, List.map_cons, List.map_cons, List.map_nil]
    rw [List.map_append] at hresults
    refine (List.perm_append_singleton _ _).trans (.trans ?_ List.perm_middle.symm)
    exact (hresults.cons _).trans (by rw [← hone]; exact .refl _)
  · exact hrefused

/-- A continuation is called. -/
theorem inv_result [DecidableEq κ] {r : Result} (h : Inv tr s) (hr : (cont, r) ∈ s.calls) :
    Inv (tr ++ [.result cont r]) { s with calls := s.calls.erase (cont, r) } := by
  obtain ⟨hpassed, hobjects, houtstanding, haccount, hresults, hrefused⟩ := h
  refine ⟨?_, ?_, houtstanding, ?_, ?_, ?_⟩
  all_goals simp only [filterMap_snoc, Label.passed, Label.received, Label.delivered,
    Label.results, Label.refused, Label.notFound, Option.toList_none, Option.toList_some,
    List.append_nil]
  · exact hpassed
  · exact hobjects
  · exact haccount
  · have hmoved := (List.perm_cons_erase hr).append_left (tr.filterMap Label.results)
    rw [List.append_assoc]
    exact hresults.trans (hmoved.map _)
  · exact hrefused

/-- `do_cancel` returns. -/
theorem inv_notFound (h : Inv tr s) (hm : s.d_mutex = some cont) :
    Inv (tr ++ [.not_found cont enoent]) { s with d_mutex := none } := by
  obtain ⟨hpassed, hobjects, houtstanding, haccount, hresults, hrefused⟩ := h
  refine ⟨?_, ?_, houtstanding, ?_, ?_, ?_⟩
  all_goals simp only [filterMap_snoc, Label.passed, Label.received, Label.delivered,
    Label.results, Label.refused, Label.notFound, Option.toList_none, Option.toList_some,
    List.append_nil]
  · exact hpassed
  · exact hobjects
  · exact haccount
  · exact hresults
  · simpa [hm] using hrefused

/-- The wrapped context gets `run_one()`. -/
theorem inv_run_one (h : Inv tr s) : Inv (tr ++ [.run_one]) s := by
  obtain ⟨hpassed, hobjects, houtstanding, haccount, hresults, hrefused⟩ := h
  refine ⟨?_, ?_, houtstanding, ?_, ?_, ?_⟩
  all_goals simp only [filterMap_snoc, Label.passed, Label.received, Label.delivered,
    Label.results, Label.refused, Label.notFound, Option.toList_none, Option.toList_some,
    List.append_nil]
  · exact List.rel_append hpassed (.cons trivial .nil)
  · rw [hobjects]
    exact List.append_nil _
  · exact haccount
  · exact hresults
  · exact hrefused

end ObserverContextLemmas

open ObserverContextLemmas

variable [DecidableEq κ]

/-- Every step keeps the account. -/
theorem inv_step {tr : List (Label κ)} {s s' : State κ} {l : Label κ} (h : Inv tr s)
    (hs : next s l = some s') : Inv (tr ++ [l]) s' := by
  cases l with
  | submit op cont got =>
    obtain ⟨⟨hm, hgot⟩, hs⟩ := Option.ite_none_right_eq_some.mp hs
    cases hs
    subst hgot
    rcases submit_cases s op cont with ⟨t, -, -, he⟩ | ⟨op', -, hop, he⟩
    · rw [he]
      exact inv_refuse h hm
    · rw [he]
      exact inv_forward h hop
  | run_one =>
    cases hs
    exact inv_run_one h
  | do_result c r =>
    simp only [next] at hs
    split at hs
    · rename_i cont hcont
      obtain ⟨⟨-, hc⟩, hs⟩ := Option.ite_none_right_eq_some.mp hs
      cases hs
      exact inv_deliver h hcont hc
    · cases hs
  | result cont r =>
    obtain ⟨hr, hs⟩ := Option.ite_none_right_eq_some.mp hs
    cases hs
    exact inv_result h hr
  | not_found cont r =>
    obtain ⟨⟨hm, he⟩, hs⟩ := Option.ite_none_right_eq_some.mp hs
    cases hs
    rw [he]
    exact inv_notFound h hm

/-! ## 2. The runs -/

theorem inv_run {tr : List (Label κ)} {s : State κ} (h : Run (system κ) State.initial tr s) :
    Inv tr s :=
  h.invariant inv_initial fun _ _ _ _ => inv_step

/-- The calls on their way to the continuations are made. -/
theorem calls_made (s : State κ) : ∃ s',
    Run (system κ) s (s.calls.map fun r => .result r.1 r.2) s' ∧ s'.calls = [] := by
  generalize hc : s.calls = cs
  induction cs generalizing s with
  | nil => exact ⟨s, .nil, hc⟩
  | cons r cs ih =>
    have hs : next s (.result r.1 r.2) = some { s with calls := cs } := by
      simp [next, hc]
    obtain ⟨s', hr, he⟩ := ih { s with calls := cs } rfl
    exact ⟨s', .cons hs hr, he⟩

/-- The wrapped context gets each call as it is (nothing is said about a `write`) with
an object of its own; only a cancel whose operation has its result, or never was, is
not passed on, and its continuation gets `-ENOENT`. What the wrapped context calls the
objects with is what the continuations are called with. -/
theorem transparent {tr : List (Label κ)} {s : State κ}
    (h : Run (system κ) State.initial tr s) :
    List.Forall₂ (Passes s) (tr.filterMap Label.passed) (tr.filterMap Label.received) ∧
    ((tr.filterMap Label.received).filterMap Call.object).Nodup ∧
    (∀ op cont got s', next s (.submit op cont got) = some s' →
      (got = none ↔ ∃ t, op = .cancel t ∧
        ∀ c, s.d_cont c = some t → c ∈ (tr.filterMap Label.delivered).map Prod.fst)) ∧
    tr.filterMap Label.refused =
      tr.filterMap Label.notFound ++ s.d_mutex.toList.map (fun cont => (cont, enoent)) ∧
    ((tr.filterMap Label.delivered).map Prod.fst).Nodup ∧
    ((tr.filterMap Label.delivered).map fun d => (s.d_cont d.1, d.2)).Perm
      ((tr.filterMap Label.results ++ s.calls).map fun r => (some r.1, r.2)) ∧
    ∃ s', Run (system κ) s (s.calls.map fun r => .result r.1 r.2) s' ∧ s'.calls = [] := by
  have hi := inv_run h
  have hnodup : (s.pending ++ (tr.filterMap Label.delivered).map Prod.fst).Nodup :=
    hi.account.nodup_iff.mpr List.nodup_range
  refine ⟨hi.passed, hi.objects ▸ List.nodup_range, fun op cont got s' hs => ?_, hi.refused,
    hnodup.of_append_right, hi.results, calls_made s⟩
  obtain ⟨⟨-, rfl⟩, -⟩ := Option.ite_none_right_eq_some.mp hs
  have hobject : ∀ c t, s.d_cont c = some t →
      (c ∈ s.d_outstanding ↔ c ∉ (tr.filterMap Label.delivered).map Prod.fst) := by
    intro c t hc
    have hlt : c ∈ List.range s.continuations.length :=
      List.mem_range.mpr (List.getElem?_eq_some_iff.mp hc).1
    rw [← hi.account.mem_iff, List.mem_append] at hlt
    rw [hi.outstanding.mem_iff]
    exact ⟨fun hp hd => (List.nodup_append'.mp hnodup).2.2 hp hd, hlt.resolve_right⟩
  rcases submit_cases s op cont with ⟨t, rfl, hnone, he⟩ | ⟨op', hsome, -, he⟩
  · rw [he]
    refine iff_of_true rfl ⟨t, rfl, fun c hc => ?_⟩
    by_contra hd
    exact hnone c ((hobject c t hc).mpr hd) hc
  · rw [he]
    refine iff_of_false (fun hn => by cases hn) ?_
    rintro ⟨t, rfl, hall⟩
    obtain ⟨c, hc, hct⟩ := hsome t rfl
    exact (hobject c t hct).mp hc (hall c hct)

/-- A timer is cancelled, and again after it has its result. -/
def exTimer : List (Label Nat) :=
  [.submit (.timer 9) 1 (some (.submit (.timer 9) 0)),
    .submit (.cancel 1) 2 (some (.submit (.cancel 0) 1)), .run_one, .do_result 1 ⟨0, 0⟩,
    .result 2 ⟨0, 0⟩, .do_result 0 ⟨-125, 0⟩, .submit (.cancel 1) 3 none, .not_found 3 enoent,
    .result 1 ⟨-125, 0⟩]

theorem transparent_example : ∃ s, Run (system Nat) State.initial exTimer s ∧
    List.Forall₂ (Passes s) (exTimer.filterMap Label.passed) (exTimer.filterMap Label.received) ∧
    s.calls = [] := by
  have hrun := run_replay (S := system Nat) (fun _ _ _ => id)
    (show (replay next State.initial exTimer).isSome from rfl)
  exact ⟨_, hrun, (transparent hrun).1, rfl⟩

/-- A cancel of an operation that was never submitted. -/
theorem cancel_not_passed :
    ¬ ∀ (tr : List (Label Nat)) (s : State Nat), Run (system Nat) State.initial tr s →
      ∀ op cont, .submit op cont none ∉ tr := by
  intro h
  have hrun := run_replay (S := system Nat) (fun _ _ _ => id)
    (show (replay next State.initial [.submit (.cancel 1) 2 none]).isSome from rfl)
  exact h _ _ hrun (.cancel 1) 2 (List.mem_singleton_self _)

end Kuhllib.ObserverContext
