import Kuhllib.Lib.SlotTable
import Kuhllib.Lib.Transition

/-!
# `nstd::net::execution_context`

A type stands for the services that have it as their `key_type`. All contexts of a
program share the keys; the key of a type is the number of types that were used
before it. Every operation holds `d_bottleneck` from its first to its last access,
so it is one step; the services that it calls are no part of it.

`shutdown` and `destroy` are protected: `destroy` begins the destruction, and no
service is looked for afterwards. The destructor is `shutdown` and `destroy`.

Results:
1. `inv_step`: a context holds the services that were made for it, at the keys of
   their types.
2. `services_reached`: in all runs there is one service of a type, and it is always
   found; all services are reached in order if and only if the types were first used
   in the order in which they come into the context, and no others before them.
-/

namespace Kuhllib.ExecutionContext

open Transition

inductive ForkEvent
  | prepare
  | parent
  | child
  deriving DecidableEq, Repr

/-- A service is its number. -/
structure Context where
  d_running : Bool
  d_services : List (Option Nat)
  destroyed : Bool
  deriving DecidableEq, Repr

/-- How `make_service` and `use_service` end. -/
inductive Outcome
  | found (svc : Nat)
  | created (svc : Nat)
  | service_already_exists
  | constructor_throws
  deriving DecidableEq, Repr

/-- The services that an operation calls, and whether it dereferences services only. -/
abbrev Visit := List Nat × Bool

namespace Context

def intern_has_service (ctxt : Context) (index : Nat) : Bool :=
  (SlotTable.lookup ctxt.d_services index).isSome

/-- `intern_make_service` where the constructor throws, or makes `svc`. -/
def intern_make_service (ctxt : Context) (index : Nat) : Option Nat → Context
  | none => { ctxt with d_services := SlotTable.reserve ctxt.d_services index }
  | some svc => { ctxt with d_services := SlotTable.put ctxt.d_services index svc }

def notify_fork (ctxt : Context) (ev : ForkEvent) : Visit :=
  if ev = .prepare then SlotTable.visit ctxt.d_services
  else SlotTable.visit ctxt.d_services.reverse

def shutdown (ctxt : Context) : Visit × Context :=
  if ctxt.d_running then
    (SlotTable.visit ctxt.d_services.reverse, { ctxt with d_running := false })
  else (([], true), ctxt)

-- a null pointer may be deleted
def destroy (ctxt : Context) : List Nat × Context :=
  (ctxt.d_services.reverse.filterMap id, { ctxt with d_services := [], destroyed := true })

end Context

/-- `undefined`: a null pointer was dereferenced. -/
structure State (γ τ : Type) where
  keys : List τ
  contexts : γ → Context
  services : Nat
  undefined : Bool

variable {γ τ : Type}

def State.initial : State γ τ := ⟨[], fun _ => ⟨true, [], false⟩, 0, false⟩

inductive Label (γ τ : Type)
  | has_service (c : γ) (t : τ) (found : Bool)
  | make_service (c : γ) (t : τ) (out : Outcome)
  | use_service (c : γ) (t : τ) (out : Outcome)
  | notify_fork (c : γ) (ev : ForkEvent) (reached : Visit)
  | shutdown (c : γ) (reached : Visit)
  | destroy (c : γ) (deleted : List Nat)
  deriving DecidableEq, Repr

def State.set [DecidableEq γ] (s : State γ τ) (c : γ) (ctxt : Context) : State γ τ :=
  { s with contexts := Function.update s.contexts c ctxt }

/-- `get_key<KeyType>()` and the types that have keys afterwards. -/
def State.get_key [DecidableEq τ] (s : State γ τ) (t : τ) : Nat × State γ τ :=
  (s.keys.idxOf t, if t ∈ s.keys then s else { s with keys := s.keys ++ [t] })

/-- `intern_make_service` with the outcome `out`. -/
def State.intern_make_service [DecidableEq γ] (s : State γ τ) (c : γ) (index : Nat) :
    Outcome → Option (State γ τ)
  | .created svc =>
    if svc = s.services then
      some { s.set c ((s.contexts c).intern_make_service index (some svc)) with
        services := svc + 1 }
    else none
  | .constructor_throws => some (s.set c ((s.contexts c).intern_make_service index none))
  | _ => none

/-- `make_service` for a type with the key `index`. -/
def State.make_service [DecidableEq γ] (s : State γ τ) (c : γ) (index : Nat) (out : Outcome) :
    Option (State γ τ) :=
  if (s.contexts c).intern_has_service index then
    if out = .service_already_exists then some s else none
  else s.intern_make_service c index out

/-- `use_service` for a type with the key `index`. -/
def State.use_service [DecidableEq γ] (s : State γ τ) (c : γ) (index : Nat) (out : Outcome) :
    Option (State γ τ) :=
  match SlotTable.lookup (s.contexts c).d_services index with
  | some svc => if out = .found svc then some s else none
  | none => s.intern_make_service c index out

variable [DecidableEq γ] [DecidableEq τ]

def next (s : State γ τ) (l : Label γ τ) : Option (State γ τ) :=
  if s.undefined then none else
  match l with
  | .has_service c t found =>
    if (s.contexts c).destroyed = false ∧
        (s.contexts c).intern_has_service (s.get_key t).1 = found then
      some (s.get_key t).2
    else none
  | .make_service c t out =>
    if (s.contexts c).destroyed then none
    else (s.get_key t).2.make_service c (s.get_key t).1 out
  | .use_service c t out =>
    if (s.contexts c).destroyed then none
    else (s.get_key t).2.use_service c (s.get_key t).1 out
  | .notify_fork c ev reached =>
    if (s.contexts c).destroyed = false ∧ (s.contexts c).notify_fork ev = reached then
      some { s with undefined := !reached.2 }
    else none
  | .shutdown c reached =>
    if (s.contexts c).shutdown.1 = reached then
      some { s.set c (s.contexts c).shutdown.2 with undefined := !reached.2 }
    else none
  | .destroy c deleted =>
    if (s.contexts c).destroy.1 = deleted then some (s.set c (s.contexts c).destroy.2) else none

def system (γ τ : Type) [DecidableEq γ] [DecidableEq τ] : System (State γ τ) (Label γ τ) where
  init s := s = State.initial
  step s l s' := next s l = some s'

/-! ## 1. What a context holds -/

def Label.creates : Label γ τ → Option (γ × τ × Nat)
  | .make_service c t (.created svc) => some (c, t, svc)
  | .use_service c t (.created svc) => some (c, t, svc)
  | _ => none

/-- The services of a context in the order in which they were made. -/
def created (tr : List (Label γ τ)) (c : γ) : List (τ × Nat) :=
  (tr.filterMap Label.creates).filterMap fun e => if e.1 = c then some e.2 else none

structure Inv (tr : List (Label γ τ)) (s : State γ τ) : Prop where
  keys : s.keys.Nodup
  types : ∀ c, ∀ e ∈ created tr c, e.1 ∈ s.keys
  once : ∀ c, ((created tr c).map Prod.fst).Nodup
  fresh : ∀ c, ∀ e ∈ created tr c, e.2 < s.services
  distinct : ∀ c c', ∀ e ∈ created tr c, ∀ e' ∈ created tr c', e.2 = e'.2 → c = c' ∧ e = e'
  table : ∀ c, (s.contexts c).destroyed = false →
    SlotTable.Holds (s.contexts c).d_services ((created tr c).map fun e => (s.keys.idxOf e.1, e.2))

namespace ExecutionContextLemmas

variable {tr : List (Label γ τ)} {s s' : State γ τ} {l : Label γ τ} {c : γ} {t : τ}

omit [DecidableEq τ] in
theorem created_quiet (hl : l.creates = none) (c : γ) : created (tr ++ [l]) c = created tr c := by
  simp [created, hl]

omit [DecidableEq τ] in
theorem created_snoc {e : τ × Nat} (hl : l.creates = some (c, e)) (c' : γ) :
    created (tr ++ [l]) c' = if c' = c then created tr c ++ [e] else created tr c' := by
  by_cases h : c' = c
  · subst h
    simp [created, hl]
  · simp [created, hl, h, Ne.symm h]

omit [DecidableEq γ] in
theorem get_key_keys (s : State γ τ) (t : τ) :
    t ∈ (s.get_key t).2.keys ∧ (s.get_key t).2.keys.idxOf t = (s.get_key t).1 ∧
      s.keys <+: (s.get_key t).2.keys ∧ (s.keys.Nodup → (s.get_key t).2.keys.Nodup) := by
  unfold State.get_key
  split
  · rename_i h
    exact ⟨h, rfl, List.prefix_refl _, id⟩
  · rename_i h
    refine ⟨by simp, ?_, List.prefix_append _ _, fun hn => ?_⟩
    · show (s.keys ++ [t]).idxOf t = s.keys.idxOf t
      rw [List.idxOf_append_of_notMem h, List.idxOf_eq_length h]
      simp
    · exact hn.append (List.nodup_singleton t) (List.disjoint_singleton.mpr h)

omit [DecidableEq γ] in
@[simp]
theorem get_key_contexts (s : State γ τ) (t : τ) : (s.get_key t).2.contexts = s.contexts := by
  unfold State.get_key
  split <;> rfl

omit [DecidableEq γ] in
@[simp]
theorem get_key_services (s : State γ τ) (t : τ) : (s.get_key t).2.services = s.services := by
  unfold State.get_key
  split <;> rfl

theorem inv_initial : Inv [] (State.initial : State γ τ) where
  keys := .nil
  types _ _ he := nomatch he
  once _ := .nil
  fresh _ _ he := nomatch he
  distinct _ _ _ he := nomatch he
  table _ _ := .nil

/-- Types get keys, and the services stay where they are. -/
theorem inv_keep (h : Inv tr s) (hkeys : s.keys <+: s'.keys) (hnodup : s'.keys.Nodup)
    (hservices : s'.services = s.services)
    (htable : ∀ c, (s'.contexts c).destroyed = false → (s.contexts c).destroyed = false ∧
      ∀ es, SlotTable.Holds (s.contexts c).d_services es →
        SlotTable.Holds (s'.contexts c).d_services es) :
    Inv tr s' := by
  obtain ⟨ks, hks⟩ := hkeys
  refine ⟨hnodup, fun c e he => ?_, h.once, fun c e he => ?_, h.distinct, fun c hc => ?_⟩
  · rw [← hks]
    exact List.mem_append_left _ (h.types c e he)
  · rw [hservices]
    exact h.fresh c e he
  · obtain ⟨hc, hholds⟩ := htable c hc
    have hidx : (created tr c).map (fun e => (s'.keys.idxOf e.1, e.2)) =
        (created tr c).map fun e => (s.keys.idxOf e.1, e.2) := by
      refine List.map_congr_left fun e he => ?_
      rw [← hks, List.idxOf_append_of_mem (h.types c e he)]
    rw [hidx]
    exact hholds _ (h.table c hc)

theorem inv_label (h : Inv tr s) (hl : l.creates = none) : Inv (tr ++ [l]) s := by
  have hc : created (tr ++ [l]) = created tr := funext (created_quiet hl)
  exact ⟨h.keys, hc ▸ h.types, hc ▸ h.once, hc ▸ h.fresh, hc ▸ h.distinct, hc ▸ h.table⟩

theorem inv_get_key (h : Inv tr s) (t : τ) : Inv tr (s.get_key t).2 := by
  obtain ⟨-, -, hkeys, hnodup⟩ := get_key_keys s t
  refine inv_keep h hkeys (hnodup h.keys) (get_key_services s t) fun c hc => ?_
  rw [get_key_contexts] at hc ⊢
  exact ⟨hc, fun _ => id⟩

omit [DecidableEq γ] [DecidableEq τ] in
theorem shutdown_context (ctxt : Context) :
    ctxt.shutdown.2.d_services = ctxt.d_services ∧ ctxt.shutdown.2.destroyed = ctxt.destroyed := by
  unfold Context.shutdown
  split <;> exact ⟨rfl, rfl⟩

/-- The table of one context changes. -/
theorem inv_set (ctxt : Context) (h : Inv tr s)
    (htable : ctxt.destroyed = false → (s.contexts c).destroyed = false ∧
      ∀ es, SlotTable.Holds (s.contexts c).d_services es → SlotTable.Holds ctxt.d_services es) :
    Inv tr (s.set c ctxt) := by
  refine inv_keep h (List.prefix_refl _) h.keys rfl fun c' => ?_
  show (Function.update s.contexts c ctxt c').destroyed = false → _ ∧
    ∀ es, _ → SlotTable.Holds (Function.update s.contexts c ctxt c').d_services es
  by_cases hc : c' = c
  · subst hc
    rw [Function.update_self]
    exact htable
  · rw [Function.update_of_ne hc]
    exact fun hd => ⟨hd, fun _ => id⟩

/-- A service is made. -/
theorem inv_create {ctxt : Context} (h : Inv tr s) (ht : t ∈ s.keys)
    (hl : l.creates = some (c, t, s.services)) (hd : (s.contexts c).destroyed = false)
    (hnone : SlotTable.lookup (s.contexts c).d_services (s.keys.idxOf t) = none)
    (hctxt : ctxt.d_services =
      SlotTable.put (s.contexts c).d_services (s.keys.idxOf t) s.services) :
    Inv (tr ++ [l]) { s.set c ctxt with services := s.services + 1 } := by
  have hnew : ∀ e ∈ created tr c, e.1 ≠ t := by
    rintro e he rfl
    have hsome := ((h.table c hd).lookup _ e.2).mpr (List.mem_map_of_mem he)
    rw [hnone] at hsome
    cases hsome
  have hmem : ∀ c', ∀ e ∈ created (tr ++ [l]) c',
      e ∈ created tr c' ∨ c' = c ∧ e = (t, s.services) := by
    intro c' e he
    rw [created_snoc hl] at he
    split at he
    · rename_i hc
      rw [hc]
      exact (List.mem_append.mp he).imp id fun h => ⟨rfl, List.mem_singleton.mp h⟩
    · exact .inl he
  refine ⟨h.keys, fun c' e he => ?_, fun c' => ?_, fun c' e he => ?_, fun c₁ c₂ e₁ h₁ e₂ h₂ heq => ?_,
    fun c' hc => ?_⟩
  · rcases hmem c' e he with he | ⟨-, rfl⟩
    · exact h.types c' e he
    · exact ht
  · rw [created_snoc hl]
    split
    · rw [List.map_append]
      refine (h.once c).append (List.nodup_singleton t) (List.disjoint_singleton.mpr ?_)
      rintro hmem
      obtain ⟨e, he, het⟩ := List.mem_map.mp hmem
      exact hnew e he het
    · exact h.once c'
  · rcases hmem c' e he with he | ⟨-, rfl⟩
    · exact Nat.lt_succ_of_lt (h.fresh c' e he)
    · exact Nat.lt_succ_self _
  · rcases hmem c₁ e₁ h₁ with h₁ | ⟨hc₁, rfl⟩ <;> rcases hmem c₂ e₂ h₂ with h₂ | ⟨hc₂, rfl⟩
    · exact h.distinct c₁ c₂ e₁ h₁ e₂ h₂ heq
    · exact absurd heq (Nat.ne_of_lt (h.fresh c₁ e₁ h₁))
    · exact absurd heq.symm (Nat.ne_of_lt (h.fresh c₂ e₂ h₂))
    · exact ⟨hc₁.trans hc₂.symm, rfl⟩
  · rw [created_snoc hl]
    split
    · rename_i he
      subst he
      show SlotTable.Holds (Function.update s.contexts c' ctxt c').d_services _
      rw [Function.update_self, hctxt, List.map_append]
      exact (h.table c' hd).put hnone _
    · rename_i hne
      have hctx : (Function.update s.contexts c ctxt) c' = s.contexts c' :=
        Function.update_of_ne hne _ _
      have hc' : (s.contexts c').destroyed = false := by
        rw [← hctx]
        exact hc
      show SlotTable.Holds (Function.update s.contexts c ctxt c').d_services _
      rw [hctx]
      exact h.table c' hc'

/-- `intern_make_service` is called for a type that the context has no service of. -/
theorem inv_intern_make_service {out : Outcome} (h : Inv tr s) (ht : t ∈ s.keys)
    (hd : (s.contexts c).destroyed = false)
    (hnone : SlotTable.lookup (s.contexts c).d_services (s.keys.idxOf t) = none)
    (hl : ∀ svc, out = .created svc → l.creates = some (c, t, svc))
    (hl' : out = .constructor_throws → l.creates = none)
    (hs : s.intern_make_service c (s.keys.idxOf t) out = some s') : Inv (tr ++ [l]) s' := by
  cases out with
  | created svc =>
    obtain ⟨rfl, hs⟩ := Option.ite_none_right_eq_some.mp hs
    cases hs
    exact inv_create h ht (hl _ rfl) hd hnone rfl
  | constructor_throws =>
    cases hs
    exact inv_label (inv_set _ h fun _ => ⟨hd, fun _ hholds => hholds.reserve _⟩) (hl' rfl)
  | found svc => cases hs
  | service_already_exists => cases hs

end ExecutionContextLemmas

open ExecutionContextLemmas

/-- Every step keeps the account of the services. -/
theorem inv_step {tr : List (Label γ τ)} {s s' : State γ τ} {l : Label γ τ} (h : Inv tr s)
    (hs : next s l = some s') : Inv (tr ++ [l]) s' := by
  obtain ⟨-, hs⟩ := Option.ite_none_left_eq_some.mp hs
  cases l with
  | has_service c t found =>
    obtain ⟨-, hs⟩ := Option.ite_none_right_eq_some.mp hs
    cases hs
    exact inv_label (inv_get_key h t) rfl
  | make_service c t out =>
    obtain ⟨hmem, hidx, -, -⟩ := get_key_keys s t
    obtain ⟨hd, hs⟩ := Option.ite_none_left_eq_some.mp hs
    rw [Bool.not_eq_true, ← get_key_contexts s t] at hd
    rw [← hidx] at hs
    unfold State.make_service at hs
    split at hs
    · obtain ⟨hout, hs⟩ := Option.ite_none_right_eq_some.mp hs
      cases hs
      rw [hout]
      exact inv_label (inv_get_key h t) rfl
    · rename_i hhas
      refine inv_intern_make_service (inv_get_key h t) hmem hd ?_ ?_ ?_ hs
      · simpa [Context.intern_has_service] using hhas
      · rintro svc rfl
        rfl
      · rintro rfl
        rfl
  | use_service c t out =>
    obtain ⟨hmem, hidx, -, -⟩ := get_key_keys s t
    obtain ⟨hd, hs⟩ := Option.ite_none_left_eq_some.mp hs
    rw [Bool.not_eq_true, ← get_key_contexts s t] at hd
    rw [← hidx] at hs
    unfold State.use_service at hs
    split at hs
    · obtain ⟨hout, hs⟩ := Option.ite_none_right_eq_some.mp hs
      cases hs
      rw [hout]
      exact inv_label (inv_get_key h t) rfl
    · rename_i hnone
      refine inv_intern_make_service (inv_get_key h t) hmem hd hnone ?_ ?_ hs
      · rintro svc rfl
        rfl
      · rintro rfl
        rfl
  | notify_fork c ev reached =>
    obtain ⟨-, hs⟩ := Option.ite_none_right_eq_some.mp hs
    cases hs
    exact inv_label (inv_keep h (List.prefix_refl _) h.keys rfl fun _ hd => ⟨hd, fun _ => id⟩) rfl
  | shutdown c reached =>
    obtain ⟨-, hs⟩ := Option.ite_none_right_eq_some.mp hs
    cases hs
    obtain ⟨hservices, hdestroyed⟩ := shutdown_context (s.contexts c)
    refine inv_label (inv_keep (inv_set (s.contexts c).shutdown.2 h fun hd => ?_)
      (List.prefix_refl _) h.keys rfl fun _ hd => ⟨hd, fun _ => id⟩) rfl
    rw [hservices]
    exact ⟨hdestroyed ▸ hd, fun _ => id⟩
  | destroy c deleted =>
    obtain ⟨-, hs⟩ := Option.ite_none_right_eq_some.mp hs
    cases hs
    exact inv_label (inv_set _ h fun hd => nomatch hd) rfl

/-! ## 2. The runs -/

theorem inv_run {tr : List (Label γ τ)} {s : State γ τ} (h : Run (system γ τ) State.initial tr s) :
    Inv tr s :=
  h.invariant inv_initial fun _ _ _ _ => inv_step

/-- `notify_fork`, `shutdown` and `destroy` of a context reach exactly these services, in
the order in which they were made or the other way round. -/
def Reaches (ctxt : Context) (services : List Nat) : Prop :=
  (∀ ev, ctxt.notify_fork ev = (if ev = .prepare then services else services.reverse, true)) ∧
  ctxt.shutdown.1 = (if ctxt.d_running then services.reverse else [], true) ∧
  ctxt.destroy.1 = services.reverse

omit [DecidableEq γ] [DecidableEq τ] in
theorem reaches_iff (ctxt : Context) (services : List Nat) :
    Reaches ctxt services ↔ ctxt.d_services = services.map some := by
  constructor
  · intro h
    exact SlotTable.visit_eq_iff.mp (h.1 .prepare)
  · intro h
    have hforward : SlotTable.visit ctxt.d_services = (services, true) := SlotTable.visit_eq_iff.mpr h
    have hbackward : SlotTable.visit ctxt.d_services.reverse = (services.reverse, true) :=
      SlotTable.visit_eq_iff.mpr (by rw [h, List.map_reverse])
    refine ⟨fun ev => ?_, ?_, ?_⟩
    · unfold Context.notify_fork
      split
      · exact hforward
      · exact hbackward
    · unfold Context.shutdown
      split
      · exact hbackward
      · rfl
    · show ctxt.d_services.reverse.filterMap id = services.reverse
      rw [h, ← List.map_reverse, List.filterMap_map]
      exact List.filterMap_some

/-- The services of `c` that the step shuts down. -/
def Label.shutsDown (c : γ) : Label γ τ → List Nat
  | .shutdown c' reached => if c' = c then reached.1 else []
  | _ => []

/-- The services of `c` that the step deletes. -/
def Label.deletes (c : γ) : Label γ τ → List Nat
  | .destroy c' deleted => if c' = c then deleted else []
  | _ => []

/-- A context is shut down once and destroyed once. -/
structure Ended (tr : List (Label γ τ)) (s : State γ τ) (c : γ) : Prop where
  running : (s.contexts c).d_running = true → tr.flatMap (Label.shutsDown c) = []
  shutDown : (tr.flatMap (Label.shutsDown c)).Nodup
  alive : (s.contexts c).destroyed = false → tr.flatMap (Label.deletes c) = []
  destroyed : (s.contexts c).destroyed = true → (s.contexts c).d_services = [] ∧
    (tr.flatMap (Label.deletes c)).Perm ((created tr c).map Prod.snd)

namespace ExecutionContextLemmas

variable {tr : List (Label γ τ)} {s s' : State γ τ} {l : Label γ τ} {c : γ} {t : τ}

theorem services_nodup (h : Inv tr s) (c : γ) : ((created tr c).map Prod.snd).Nodup :=
  (h.once c).of_map.map_on fun e he e' he' heq => (h.distinct c c e he e' he' heq).2

omit [DecidableEq τ] in
/-- A step that neither shuts down nor destroys, where a destroyed context stays as it is. -/
theorem ended_keep (h : Ended tr s c) (hl : l.shutsDown c = [] ∧ l.deletes c = [])
    (hrunning : (s'.contexts c).d_running = (s.contexts c).d_running)
    (hdestroyed : (s'.contexts c).destroyed = (s.contexts c).destroyed)
    (hsame : (s.contexts c).destroyed = true →
      (s'.contexts c).d_services = (s.contexts c).d_services ∧
      created (tr ++ [l]) c = created tr c) :
    Ended (tr ++ [l]) s' c := by
  have hshut : (tr ++ [l]).flatMap (Label.shutsDown c) = tr.flatMap (Label.shutsDown c) := by
    simp [hl.1]
  have hdel : (tr ++ [l]).flatMap (Label.deletes c) = tr.flatMap (Label.deletes c) := by
    simp [hl.2]
  refine ⟨?_, ?_, ?_, fun hd => ?_⟩
  · rw [hrunning, hshut]
    exact h.running
  · rw [hshut]
    exact h.shutDown
  · rw [hdestroyed, hdel]
    exact h.alive
  · rw [hdestroyed] at hd
    obtain ⟨hservices, hcreated⟩ := hsame hd
    rw [hservices, hdel, hcreated]
    exact h.destroyed hd

omit [DecidableEq τ] in
/-- `intern_make_service` is called for another context, or for one that is alive. -/
theorem ended_intern_make_service {out : Outcome} {c₀ : γ} {index : Nat} (h : Ended tr s c)
    (hl : l.shutsDown c = [] ∧ l.deletes c = []) (hd : (s.contexts c₀).destroyed = false)
    (hcreated : c ≠ c₀ → created (tr ++ [l]) c = created tr c)
    (hs : s.intern_make_service c₀ index out = some s') : Ended (tr ++ [l]) s' c := by
  obtain ⟨made, hs'⟩ : ∃ made, s'.contexts =
      Function.update s.contexts c₀ ((s.contexts c₀).intern_make_service index made) := by
    cases out with
    | created svc =>
      obtain ⟨-, hs⟩ := Option.ite_none_right_eq_some.mp hs
      cases hs
      exact ⟨some svc, rfl⟩
    | constructor_throws =>
      cases hs
      exact ⟨none, rfl⟩
    | found svc => cases hs
    | service_already_exists => cases hs
  by_cases hc : c = c₀
  · subst hc
    have hmade : s'.contexts c = (s.contexts c).intern_make_service index made := by
      rw [hs', Function.update_self]
    refine ended_keep h hl ?_ ?_ fun hdead => ?_
    · rw [hmade]
      cases made <;> rfl
    · rw [hmade]
      cases made <;> rfl
    · rw [hd] at hdead
      cases hdead
  · have hother : s'.contexts c = s.contexts c := by
      rw [hs', Function.update_of_ne hc]
    exact ended_keep h hl (by rw [hother]) (by rw [hother]) fun _ =>
      ⟨by rw [hother], hcreated hc⟩

omit [DecidableEq τ] in
theorem ended_shutdown {reached : Visit} {c₀ : γ} (h : Ended tr s c)
    (hnodup : ((s.contexts c₀).d_services.filterMap id).Nodup)
    (hreached : (s.contexts c₀).shutdown.1 = reached) :
    Ended (tr ++ [.shutdown c₀ reached])
      { s.set c₀ (s.contexts c₀).shutdown.2 with undefined := !reached.2 } c := by
  by_cases hc : c = c₀
  · subst hc
    have hctx : (s.set c (s.contexts c).shutdown.2).contexts c = (s.contexts c).shutdown.2 :=
      Function.update_self ..
    obtain ⟨hservices, hdestroyed⟩ := shutdown_context (s.contexts c)
    have hdel : (tr ++ [Label.shutdown c reached]).flatMap (Label.deletes c) =
        tr.flatMap (Label.deletes c) := by
      simp [Label.deletes]
    have hshut : (tr ++ [Label.shutdown c reached]).flatMap (Label.shutsDown c) =
        tr.flatMap (Label.shutsDown c) ++ reached.1 := by
      simp [Label.shutsDown]
    refine ⟨fun hrun => ?_, ?_, fun hd => ?_, fun hd => ?_⟩
    · rw [hctx] at hrun
      unfold Context.shutdown at hrun
      split at hrun
      · cases hrun
      · rename_i hnot
        exact absurd hrun hnot
    · rw [hshut, ← hreached]
      unfold Context.shutdown
      split
      · rename_i hrun
        rw [h.running hrun]
        have hsub := SlotTable.visit_sublist (s.contexts c).d_services.reverse
        rw [List.filterMap_reverse] at hsub
        exact hsub.nodup (List.nodup_reverse.mpr hnodup)
      · rw [List.append_nil]
        exact h.shutDown
    · rw [hctx, hdestroyed] at hd
      rw [hdel]
      exact h.alive hd
    · rw [hctx, hdestroyed] at hd
      rw [hctx, hservices, hdel, created_quiet rfl]
      exact h.destroyed hd
  · have hctx : (s.set c₀ (s.contexts c₀).shutdown.2).contexts c = s.contexts c :=
      Function.update_of_ne hc _ _
    have hl : (Label.shutdown (τ := τ) c₀ reached).shutsDown c = [] := if_neg (Ne.symm hc)
    exact ended_keep h ⟨hl, rfl⟩ (by rw [hctx]) (by rw [hctx]) fun _ =>
      ⟨by rw [hctx], created_quiet rfl c⟩

omit [DecidableEq τ] in
theorem ended_destroy {c₀ : γ} (h : Ended tr s c)
    (hperm : (s.contexts c₀).destroyed = false →
      ((s.contexts c₀).d_services.filterMap id).Perm ((created tr c₀).map Prod.snd)) :
    Ended (tr ++ [.destroy c₀ (s.contexts c₀).destroy.1]) (s.set c₀ (s.contexts c₀).destroy.2) c := by
  by_cases hc : c = c₀
  · subst hc
    have hctx : (s.set c (s.contexts c).destroy.2).contexts c = (s.contexts c).destroy.2 :=
      Function.update_self ..
    have hshut : (tr ++ [Label.destroy c (s.contexts c).destroy.1]).flatMap (Label.shutsDown c) =
        tr.flatMap (Label.shutsDown c) := by
      simp [Label.shutsDown]
    have hdel : (tr ++ [Label.destroy c (s.contexts c).destroy.1]).flatMap (Label.deletes c) =
        tr.flatMap (Label.deletes c) ++ (s.contexts c).d_services.reverse.filterMap id := by
      simp [Label.deletes, Context.destroy]
    refine ⟨fun hrun => ?_, ?_, fun hd => ?_, fun _ => ⟨?_, ?_⟩⟩
    · rw [hctx] at hrun
      rw [hshut]
      exact h.running hrun
    · rw [hshut]
      exact h.shutDown
    · rw [hctx] at hd
      cases hd
    · rw [hctx]
      rfl
    · rw [hdel, created_quiet rfl, List.filterMap_reverse]
      cases hdead : (s.contexts c).destroyed with
      | false =>
        rw [h.alive hdead]
        exact (List.reverse_perm _).trans (hperm hdead)
      | true =>
        obtain ⟨hempty, hdeleted⟩ := h.destroyed hdead
        rw [hempty]
        simpa using hdeleted
  · have hctx : (s.set c₀ (s.contexts c₀).destroy.2).contexts c = s.contexts c :=
      Function.update_of_ne hc _ _
    have hl : (Label.destroy (τ := τ) c₀ (s.contexts c₀).destroy.1).deletes c = [] :=
      if_neg (Ne.symm hc)
    exact ended_keep h ⟨rfl, hl⟩ (by rw [hctx]) (by rw [hctx]) fun _ =>
      ⟨by rw [hctx], created_quiet rfl c⟩

theorem table_perm (h : Inv tr s) (hd : (s.contexts c).destroyed = false) :
    ((s.contexts c).d_services.filterMap id).Perm ((created tr c).map Prod.snd) := by
  have hsnd : ((created tr c).map fun e => (s.keys.idxOf e.1, e.2)).map Prod.snd =
      (created tr c).map Prod.snd := by
    rw [List.map_map]
    rfl
  have hperm := (h.table c hd).entries_perm
  rw [hsnd] at hperm
  exact hperm (services_nodup h c)

end ExecutionContextLemmas

theorem ended_step {tr : List (Label γ τ)} {s s' : State γ τ} {l : Label γ τ} {c : γ}
    (hi : Inv tr s) (h : ∀ c, Ended tr s c) (hs : next s l = some s') : Ended (tr ++ [l]) s' c := by
  obtain ⟨-, hs⟩ := Option.ite_none_left_eq_some.mp hs
  have hget : ∀ t, Ended tr (s.get_key t).2 c := by
    intro t
    obtain ⟨h₁, h₂, h₃, h₄⟩ := h c
    exact ⟨by rwa [get_key_contexts], h₂, by rwa [get_key_contexts], by rwa [get_key_contexts]⟩
  cases l with
  | has_service c₀ t found =>
    obtain ⟨-, hs⟩ := Option.ite_none_right_eq_some.mp hs
    cases hs
    exact ended_keep (hget t) ⟨rfl, rfl⟩ rfl rfl fun _ => ⟨rfl, created_quiet rfl c⟩
  | make_service c₀ t out =>
    obtain ⟨hd, hs⟩ := Option.ite_none_left_eq_some.mp hs
    rw [Bool.not_eq_true, ← get_key_contexts s t] at hd
    unfold State.make_service at hs
    split at hs
    · obtain ⟨hout, hs⟩ := Option.ite_none_right_eq_some.mp hs
      cases hs
      rw [hout]
      exact ended_keep (hget t) ⟨rfl, rfl⟩ rfl rfl fun _ => ⟨rfl, created_quiet rfl c⟩
    · refine ended_intern_make_service (hget t) ⟨rfl, rfl⟩ hd (fun hc => ?_) hs
      cases out with
      | created svc => exact (created_snoc rfl c).trans (if_neg hc)
      | _ => exact created_quiet rfl c
  | use_service c₀ t out =>
    obtain ⟨hd, hs⟩ := Option.ite_none_left_eq_some.mp hs
    rw [Bool.not_eq_true, ← get_key_contexts s t] at hd
    unfold State.use_service at hs
    split at hs
    · obtain ⟨hout, hs⟩ := Option.ite_none_right_eq_some.mp hs
      cases hs
      rw [hout]
      exact ended_keep (hget t) ⟨rfl, rfl⟩ rfl rfl fun _ => ⟨rfl, created_quiet rfl c⟩
    · refine ended_intern_make_service (hget t) ⟨rfl, rfl⟩ hd (fun hc => ?_) hs
      cases out with
      | created svc => exact (created_snoc rfl c).trans (if_neg hc)
      | _ => exact created_quiet rfl c
  | notify_fork c₀ ev reached =>
    obtain ⟨-, hs⟩ := Option.ite_none_right_eq_some.mp hs
    cases hs
    exact ended_keep (h c) ⟨rfl, rfl⟩ rfl rfl fun _ => ⟨rfl, created_quiet rfl c⟩
  | shutdown c₀ reached =>
    obtain ⟨hreached, hs⟩ := Option.ite_none_right_eq_some.mp hs
    cases hs
    refine ended_shutdown (h c) ?_ hreached
    cases hd : (s.contexts c₀).destroyed with
    | false => exact (table_perm hi hd).nodup_iff.mpr (services_nodup hi c₀)
    | true =>
      rw [((h c₀).destroyed hd).1]
      exact .nil
  | destroy c₀ deleted =>
    obtain ⟨hdeleted, hs⟩ := Option.ite_none_right_eq_some.mp hs
    cases hs
    rw [← hdeleted]
    exact ended_destroy (h c) (table_perm hi)

theorem ended_run {tr : List (Label γ τ)} {s : State γ τ}
    (h : Run (system γ τ) State.initial tr s) (c : γ) : Ended tr s c := by
  have hboth : Inv tr s ∧ ∀ c, Ended tr s c := by
    refine h.invariant (I := fun tr s => Inv tr s ∧ ∀ c, Ended tr s c) ⟨inv_initial, fun c => ?_⟩
      fun tr s l s' hi hs => ⟨inv_step hi.1 hs, fun c => ended_step hi.1 hi.2 hs⟩
    exact ⟨fun _ => rfl, .nil, fun _ => rfl, fun hd => nomatch hd⟩
  exact hboth.2 c

/-- One service of a type is made for a context, and it is always found again. It is shut
down at most once and deleted once. All services of a context are reached in the order
in which they were made, or the other way round, and no absent one, exactly if the keys
of their types count up from 0 and there is no place behind them; no absent one alone,
exactly if there is a service for each place. -/
theorem services_reached {tr : List (Label γ τ)} {s : State γ τ}
    (h : Run (system γ τ) State.initial tr s) :
    (∀ c, ((created tr c).map Prod.fst).Nodup) ∧
    (∀ c c', ∀ e ∈ created tr c, ∀ e' ∈ created tr c', e.2 = e'.2 → c = c' ∧ e = e') ∧
    (∀ c t svc, (t, svc) ∈ created tr c → ∀ out s',
      (next s (.use_service c t out) = some s' → out = .found svc) ∧
      (next s (.make_service c t out) = some s' → out = .service_already_exists)) ∧
    (∀ c, (tr.flatMap (Label.shutsDown c)).Nodup ∧
      ((s.contexts c).destroyed = true →
        (tr.flatMap (Label.deletes c)).Perm ((created tr c).map Prod.snd))) ∧
    ∀ c, (s.contexts c).destroyed = false →
      (Reaches (s.contexts c) ((created tr c).map Prod.snd) ↔
        (created tr c).map (fun e => s.keys.idxOf e.1) =
          List.range (s.contexts c).d_services.length) ∧
      (((s.contexts c).notify_fork .prepare).2 = true ↔
        ((created tr c).map fun e => s.keys.idxOf e.1).Perm
          (List.range (s.contexts c).d_services.length)) := by
  have hi := inv_run h
  refine ⟨hi.once, hi.distinct, fun c t svc hc out s' => ?_, fun c => ?_, fun c hd => ?_⟩
  · have ht : s.get_key t = (s.keys.idxOf t, s) := by
      unfold State.get_key
      rw [if_pos (hi.types c _ hc)]
    have hlookup : (s.contexts c).destroyed = false →
        SlotTable.lookup (s.contexts c).d_services (s.keys.idxOf t) = some svc := fun hd =>
      ((hi.table c hd).lookup _ svc).mpr (List.mem_map_of_mem hc)
    constructor
    · intro hs
      obtain ⟨-, hs⟩ := Option.ite_none_left_eq_some.mp hs
      obtain ⟨hd, hs⟩ := Option.ite_none_left_eq_some.mp hs
      rw [Bool.not_eq_true] at hd
      rw [ht] at hs
      simp only [State.use_service, hlookup hd] at hs
      exact (Option.ite_none_right_eq_some.mp hs).1
    · intro hs
      obtain ⟨-, hs⟩ := Option.ite_none_left_eq_some.mp hs
      obtain ⟨hd, hs⟩ := Option.ite_none_left_eq_some.mp hs
      rw [Bool.not_eq_true] at hd
      rw [ht] at hs
      simp only [State.make_service, Context.intern_has_service,
        hlookup hd, Option.isSome_some, if_true] at hs
      exact (Option.ite_none_right_eq_some.mp hs).1
  · exact ⟨(ended_run h c).shutDown, fun hd => ((ended_run h c).destroyed hd).2⟩
  · have hsnd : ((created tr c).map fun e => (s.keys.idxOf e.1, e.2)).map Prod.snd =
        (created tr c).map Prod.snd := List.map_map ..
    have hfst : ((created tr c).map fun e => (s.keys.idxOf e.1, e.2)).map Prod.fst =
        (created tr c).map fun e => s.keys.idxOf e.1 := List.map_map ..
    have hdense := (hi.table c hd).dense_iff
    have hfull := (hi.table c hd).full_iff
    rw [hsnd, hfst] at hdense
    rw [hfst] at hfull
    rw [reaches_iff]
    exact ⟨hdense (services_nodup hi c), hfull⟩

/-- Two types are used by one context in the order of their keys. -/
def exOrder : List (Label Nat Nat) :=
  [.make_service 0 1 (.created 0), .use_service 0 2 (.created 1), .notify_fork 0 .prepare ([0, 1], true),
    .use_service 0 1 (.found 0)]

theorem services_reached_example : ∃ s, Run (system Nat Nat) State.initial exOrder s ∧
    Reaches (s.contexts 0) [0, 1] := by
  have hrun := run_replay (S := system Nat Nat) (fun _ _ _ => id)
    (show (replay next State.initial exOrder).isSome from rfl)
  exact ⟨_, hrun, ((services_reached hrun).2.2.2.2 0 rfl).1.mpr rfl⟩

/-- Two contexts use one type each, the second one is told of a fork. -/
def exHole : List (Label Nat Nat) :=
  [.use_service 0 1 (.created 0), .use_service 1 2 (.created 1)]

theorem absent_dereferenced :
    ¬ ∀ (tr : List (Label Nat Nat)) (s : State Nat Nat), Run (system Nat Nat) State.initial tr s →
      ∀ c, (s.contexts c).destroyed = false →
        ((s.contexts c).notify_fork .prepare) = ((created tr c).map Prod.snd, true) := by
  intro h
  have hrun := run_replay (S := system Nat Nat) (fun _ _ _ => id)
    (show (replay next State.initial exHole).isSome from rfl)
  have hvisit := h _ _ hrun 1 rfl
  exact absurd hvisit (by decide)

end Kuhllib.ExecutionContext
