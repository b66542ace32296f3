import Kuhllib.Lib.Chain
import Kuhllib.StopToken.StopRegistry
import Mathlib.Tactic.Tauto

/-!
# `in_place_stop_source` refines the registry

`Refines r s` ties a state of the code to a state of the registry: how many
frames of each role a thread has, what every frame knows about the pointers it
has cached, and the linked list in memory. `refines_step` is the forward
simulation, one case for each frame.
-/

namespace Kuhllib.InPlaceStopSource

open Transition Chain Stacks

/-! ## Roles of frames -/

/-- What a frame is busy with: an operation on a callback, at the given stage,
or the winning `stop()`. -/
inductive Role (κ : Type)
  | op (c : κ) (stage : Nat)
  | stop (stage : Nat)
  | idle
  deriving DecidableEq

def Frame.role {κ : Type} : Frame κ → Role κ
  | .insertLoad c | .insertLoop c _ => .op c 1
  | .insertReturn c => .op c 2
  | .removeCheck c | .removeLoad c | .removeLoop c _ | .removeWalk c _ _ | .removeStore c _ => .op c 4
  | .removeReturn c => .op c 5
  | .stopLoad | .stopLoop _ => .stop 1
  | .stopWalk _ => .stop 2
  | .stopReturn true => .stop 3
  | .stopExchange | .stopReturn false | .body _ => .idle

/-- The frames that are used while `d_list` is the marker. -/
def Frame.holding {κ : Type} : Frame κ → Bool
  | .removeWalk _ _ _ | .removeStore _ _ | .stopWalk _ => true
  | _ => false

def Stage.thread {τ : Type} : Stage τ → Option τ
  | .inserting t | .linked t | .removing t | .unlinked t => some t
  | .fresh | .inserted | .removed => none

def Winner.thread {τ : Type} : Winner τ → Option τ
  | .seeking t | .draining t | .finishing t => some t
  | .none | .returned => Option.none

def Winner.rank {τ : Type} : Winner τ → Nat
  | .none => 0
  | .seeking _ => 1
  | .draining _ => 2
  | .finishing _ => 3
  | .returned => 4

/-- The thread that has the frame with a role, according to the registry. -/
def Registry.owner {τ κ : Type} (r : Registry τ κ) : Role κ → Option τ
  | .op c k => if (r.stage c).rank = k then (r.stage c).thread else none
  | .stop k => if r.winner.rank = k then r.winner.thread else none
  | .idle => none

variable {τ κ : Type} [DecidableEq τ] [DecidableEq κ]

/-- The number of frames with a role in a stack. -/
def roles (fs : List (Frame κ)) (ρ : Role κ) : Nat := fs.countP fun f => f.role = ρ

/-- Every role is played by the frame of its owner alone. -/
def Counts (r : Registry τ κ) (st : τ → List (Frame κ)) : Prop :=
  ∀ ρ, ρ ≠ .idle → ∀ t, roles (st t) ρ = if r.owner ρ = some t then 1 else 0

/-! ## The linked list -/

/-- The nodes of the list of the callbacks `cs`: `d_end` is always last. -/
def nodes (cs : List κ) : List (Node κ) := cs.map .callback ++ [.endNode]

/-- `d_list` as the registry sees it. -/
def ListOk (v : View τ κ) (m : Memory κ) : Prop :=
  match v with
  | .opened cs => ∃ head, m.list = some head ∧ head ≠ .marker ∧ Path m.next (some head) (nodes cs)
  | .held _ _ _ | .draining _ _ => m.list = some .marker
  | .closed => m.list = none

/-- What a frame of thread `t` knows. A cached null pointer means that the
registry is closed; the frames that hold the detached list know its nodes. -/
def FrameOk (v : View τ κ) (link : Node κ → Option (Node κ)) (t : τ) : Frame κ → Prop
  | .insertLoop _ none | .removeLoop _ none => v = .closed
  | .stopLoop head => head ≠ none
  | .removeWalk c head node => ∃ cs xs n ys, v = .held t c cs ∧ node = some n ∧
      nodes cs = xs ++ n :: ys ∧ .callback c ∈ ys ∧ Path link (some head) (nodes cs)
  | .removeStore c head => ∃ cs, v = .held t c cs ∧ Path link head (nodes (cs.erase c))
  | .stopWalk node => ∃ cs, v = .draining t cs ∧
      (Path link node (nodes cs) ∨ cs = [] ∧ node = none)
  | _ => True

/-- The phase that a client sees. -/
def Stage.phase {τ : Type} : Stage τ → Phase
  | .fresh => .fresh
  | .inserting _ | .linked _ => .inserting
  | .inserted => .inserted
  | .removing _ | .unlinked _ => .removing
  | .removed => .removed

structure Refines (r : Registry τ κ) (s : State τ κ) : Prop where
  ok : Ok r
  counts : Counts r s.threads
  frames : ∀ t, ∀ f ∈ s.threads t, FrameOk r.view s.mem.next t f
  list : ListOk r.view s.mem
  called : ∀ c, s.mem.called (.callback c) = r.called c
  requested : s.mem.stop_requested = decide (r.winner.rank ≠ 0)
  phase : ∀ c, s.phase c = (r.stage c).phase

namespace InPlaceRefinementLemmas

/-! ### Counting -/

/-- The innermost frame plays its role. -/
theorem owner_of_top {r : Registry τ κ} {st : τ → List (Frame κ)} (h : Counts r st) {t : τ}
    {f : Frame κ} {fs : List (Frame κ)} (hst : st t = f :: fs) (hf : f.role ≠ .idle) :
    r.owner f.role = some t ∧ roles fs f.role = 0 := by
  have hc := h f.role hf t
  rw [hst, roles, List.countP_cons] at hc
  simp only [decide_true, if_true] at hc
  split at hc
  · next ho => exact ⟨ho, by unfold roles; omega⟩
  · omega

/-- A step that keeps all roles. -/
theorem counts_same {r r' : Registry τ κ} {st : τ → List (Frame κ)} (h : Counts r st) {t : τ}
    {f : Frame κ} {fs gs : List (Frame κ)} (hst : st t = f :: fs)
    (hgs : ∀ ρ, ρ ≠ .idle → roles gs ρ = roles [f] ρ) (ho : r'.owner = r.owner) :
    Counts r' (set st t (gs ++ fs)) := by
  intro ρ hρ t'
  rw [ho, ← h ρ hρ t']
  exact count_set_same hst (hgs ρ hρ) t'

/-- The general change: the role `ρ₁` is given up and the role `ρ₂` is taken by
the thread `t`; either may be `idle`. -/
theorem counts_change {r r' : Registry τ κ} {st st' : τ → List (Frame κ)} (h : Counts r st)
    {t : τ} {ρ₁ ρ₂ : Role κ} (hne : ρ₁ ≠ ρ₂)
    (hst : ∀ ρ, ρ ≠ .idle → ∀ t', roles (st' t') ρ + (if t' = t ∧ ρ₁ = ρ then 1 else 0) =
      roles (st t') ρ + (if t' = t ∧ ρ₂ = ρ then 1 else 0))
    (h₁ : ρ₁ ≠ .idle → r.owner ρ₁ = some t ∧ r'.owner ρ₁ = none)
    (h₂ : ρ₂ ≠ .idle → r.owner ρ₂ = none ∧ r'.owner ρ₂ = some t)
    (ho : ∀ ρ, ρ ≠ ρ₁ → ρ ≠ ρ₂ → r'.owner ρ = r.owner ρ) : Counts r' st' := by
  intro ρ hρ t'
  have hs := hst ρ hρ t'
  have hc := h ρ hρ t'
  rcases eq_or_ne ρ ρ₁ with rfl | hρ₁
  · obtain ⟨ho₁, ho₁'⟩ := h₁ hρ
    rw [ho₁]  at hc
    rw [ho₁']
    rcases eq_or_ne t' t with rfl | ht
    · simp_all [hne.symm]
    · simp_all [ht.symm]
  · rcases eq_or_ne ρ ρ₂ with rfl | hρ₂
    · obtain ⟨ho₂, ho₂'⟩ := h₂ hρ
      rw [ho₂] at hc
      rw [ho₂']
      rcases eq_or_ne t' t with rfl | ht
      · simp_all
      · simp_all [ht.symm]
    · rw [ho ρ hρ₁ hρ₂, ← hc]
      simp_all [hρ₁.symm, hρ₂.symm]

theorem counts_stage {r r' : Registry τ κ} {st st' : τ → List (Frame κ)} (h : Counts r st)
    {t : τ} {c : κ} {g : Stage τ} (ρ₁ ρ₂ : Role κ) (hs : r'.stage = Function.update r.stage c g)
    (hw : r'.winner = r.winner) (hrank : (r.stage c).rank ≠ g.rank)
    (h₁ : ρ₁ = .idle ∧ (r.stage c).thread = none ∨
      ρ₁ = .op c (r.stage c).rank ∧ (r.stage c).thread = some t)
    (h₂ : ρ₂ = .idle ∧ g.thread = none ∨ ρ₂ = .op c g.rank ∧ g.thread = some t) (hne : ρ₁ ≠ ρ₂)
    (hst : ∀ ρ, ρ ≠ .idle → ∀ t', roles (st' t') ρ + (if t' = t ∧ ρ₁ = ρ then 1 else 0) =
      roles (st t') ρ + (if t' = t ∧ ρ₂ = ρ then 1 else 0)) : Counts r' st' := by
  refine counts_change h hne hst (fun hi => ?_) (fun hi => ?_) (fun ρ n₁ n₂ => ?_)
  · obtain ⟨rfl, ht⟩ := h₁.resolve_left fun h => hi h.1
    simp [Registry.owner, hs, ht, hrank.symm]
  · obtain ⟨rfl, ht⟩ := h₂.resolve_left fun h => hi h.1
    simp [Registry.owner, hs, ht, hrank]
  · cases ρ with
    | idle => rfl
    | stop k => simp [Registry.owner, hw]
    | op c' k =>
      rcases eq_or_ne c' c with rfl | hc
      · have hold : r.owner (.op c' k) = none := by
          rcases h₁ with ⟨_, ht⟩ | ⟨rfl, _⟩
          · simp [Registry.owner, ht]
          · simp only [ne_eq, Role.op.injEq, true_and] at n₁
            simp [Registry.owner, Ne.symm n₁]
        have hnew : r'.owner (.op c' k) = none := by
          rcases h₂ with ⟨_, ht⟩ | ⟨rfl, _⟩
          · simp [Registry.owner, hs, ht]
          · simp only [ne_eq, Role.op.injEq, true_and] at n₂
            simp [Registry.owner, hs, Ne.symm n₂]
        rw [hold, hnew]
      · simp [Registry.owner, hs, hc]

theorem counts_winner {r r' : Registry τ κ} {st st' : τ → List (Frame κ)} (h : Counts r st)
    {t : τ} {ρ₁ ρ₂ : Role κ} (hs : r'.stage = r.stage) (hrank : r.winner.rank ≠ r'.winner.rank)
    (h₁ : ρ₁ = .idle ∧ r.winner.thread = none ∨
      ρ₁ = .stop r.winner.rank ∧ r.winner.thread = some t)
    (h₂ : ρ₂ = .idle ∧ r'.winner.thread = none ∨
      ρ₂ = .stop r'.winner.rank ∧ r'.winner.thread = some t) (hne : ρ₁ ≠ ρ₂)
    (hst : ∀ ρ, ρ ≠ .idle → ∀ t', roles (st' t') ρ + (if t' = t ∧ ρ₁ = ρ then 1 else 0) =
      roles (st t') ρ + (if t' = t ∧ ρ₂ = ρ then 1 else 0)) : Counts r' st' := by
  refine counts_change h hne hst (fun hi => ?_) (fun hi => ?_) (fun ρ n₁ n₂ => ?_)
  · obtain ⟨rfl, ht⟩ := h₁.resolve_left fun h => hi h.1
    simp [Registry.owner, ht, hrank.symm]
  · obtain ⟨rfl, ht⟩ := h₂.resolve_left fun h => hi h.1
    simp [Registry.owner, ht, hrank]
  · cases ρ with
    | idle => rfl
    | op c k => simp [Registry.owner, hs]
    | stop k =>
      have hold : r.owner (.stop k) = none := by
        rcases h₁ with ⟨_, ht⟩ | ⟨rfl, _⟩
        · simp [Registry.owner, ht]
        · simp only [ne_eq, Role.stop.injEq] at n₁
          simp [Registry.owner, Ne.symm n₁]
      have hnew : r'.owner (.stop k) = none := by
        rcases h₂ with ⟨_, ht⟩ | ⟨rfl, _⟩
        · simp [Registry.owner, ht]
        · simp only [ne_eq, Role.stop.injEq] at n₂
          simp [Registry.owner, Ne.symm n₂]
      rw [hold, hnew]

/-- The innermost frame is replaced by frames of which one has the role `ρ₂`. -/
theorem roles_set {st : τ → List (Frame κ)} {t : τ} {f : Frame κ} {fs gs : List (Frame κ)}
    {ρ₂ : Role κ} (hst : st t = f :: fs)
    (hgs : ∀ ρ, ρ ≠ .idle → roles gs ρ = if ρ₂ = ρ then 1 else 0) (ρ : Role κ) (hρ : ρ ≠ .idle)
    (t' : τ) :
    roles (set st t (gs ++ fs) t') ρ + (if t' = t ∧ f.role = ρ then 1 else 0) =
      roles (st t') ρ + (if t' = t ∧ ρ₂ = ρ then 1 else 0) := by
  have := count_set (fun f => decide (f.role = ρ)) hst gs t'
  have hg := hgs ρ hρ
  unfold roles at hg ⊢
  rw [hg] at this
  rcases eq_or_ne t' t with rfl | ht
  · simpa [List.countP_cons] using this
  · simp [ht]

/-- A frame of role `ρ₂` is pushed. -/
theorem roles_push {st : τ → List (Frame κ)} {t : τ} {g : Frame κ} (ρ : Role κ) (t' : τ) :
    roles (set st t ([g] ++ st t) t') ρ =
      roles (st t') ρ + (if t' = t ∧ g.role = ρ then 1 else 0) := by
  have := count_push st t [g] (fun f => decide (f.role = ρ)) t'
  unfold roles
  rw [this]
  rcases eq_or_ne t' t with rfl | ht
  · simp [List.countP_cons]
  · simp [ht]

/-! ### What frames know -/

omit [DecidableEq τ] [DecidableEq κ] in
theorem mem_nodes {cs : List κ} {c : κ} : Node.callback c ∈ nodes cs ↔ c ∈ cs := by
  simp [nodes]

omit [DecidableEq τ] [DecidableEq κ] in
theorem nodes_nodup {cs : List κ} (h : cs.Nodup) : (nodes cs).Nodup := by
  refine List.Nodup.append (h.map fun _ _ he => by cases he; rfl) (List.nodup_singleton _) ?_
  simp [List.disjoint_singleton]

omit [DecidableEq τ] in
theorem nodes_erase {cs : List κ} {c : κ} (h : c ∈ cs) :
    nodes (cs.erase c) = (nodes cs).erase (.callback c) := by
  have hinj : Function.Injective (Node.callback (κ := κ)) := fun _ _ he => by cases he; rfl
  unfold nodes
  rw [List.erase_append_left _ (List.mem_map_of_mem h), List.map_erase hinj]

omit [DecidableEq τ] in
/-- A frame that does not hold the list only knows whether the registry is closed. -/
theorem frameOk_light {v v' : View τ κ} {link link' : Node κ → Option (Node κ)} {t : τ}
    {f : Frame κ} (h : FrameOk v link t f) (hf : f.holding = false) (hv : v = .closed → v' = .closed) :
    FrameOk v' link' t f := by
  cases f with
  | insertLoop c head | removeLoop c head =>
    cases head with
    | none => exact hv h
    | some _ => trivial
  | removeWalk | removeStore | stopWalk => cases hf
  | _ => exact h

omit [DecidableEq τ] in
/-- Links outside of the list are of no interest to the frames. -/
theorem frameOk_congr {v : View τ κ} {link link' : Node κ → Option (Node κ)} {t : τ} {f : Frame κ}
    (h : FrameOk v link t f) (hl : ∀ n ∈ nodes v.pending, link' n = link n) :
    FrameOk v link' t f := by
  cases f with
  | removeWalk c head node =>
    obtain ⟨cs, xs, n, ys, hv, hn, hs, hc, hp⟩ := h
    subst hv
    exact ⟨cs, xs, n, ys, rfl, hn, hs, hc, hp.congr hl⟩
  | removeStore c head =>
    obtain ⟨cs, hv, hp⟩ := h
    subst hv
    refine ⟨cs, rfl, hp.congr fun n hn => hl n ?_⟩
    unfold nodes at hn ⊢
    simp only [List.mem_append, List.mem_map] at hn ⊢
    exact hn.imp (fun ⟨c', hc', he⟩ => ⟨c', List.mem_of_mem_erase hc', he⟩) id
  | stopWalk node =>
    obtain ⟨cs, hv, hp⟩ := h
    subst hv
    exact ⟨cs, rfl, hp.imp (fun hp => hp.congr hl) id⟩
  | _ => exact frameOk_light h rfl id

omit [DecidableEq τ] in
/-- A frame that holds the list plays the role of the owner of the view. -/
theorem frameOk_holding {v : View τ κ} {link : Node κ → Option (Node κ)} {t : τ} {f : Frame κ}
    (h : FrameOk v link t f) (hf : f.holding = true) :
    (∃ c cs, v = .held t c cs ∧ f.role = .op c 4) ∨ ∃ cs, v = .draining t cs ∧ f.role = .stop 2 := by
  cases f with
  | removeWalk c head node =>
    obtain ⟨cs, _, _, _, hv, _⟩ := h
    exact .inl ⟨c, cs, hv, rfl⟩
  | removeStore c head =>
    obtain ⟨cs, hv, _⟩ := h
    exact .inl ⟨c, cs, hv, rfl⟩
  | stopWalk node =>
    obtain ⟨cs, hv, _⟩ := h
    exact .inr ⟨cs, hv, rfl⟩
  | _ => cases hf

/-- The frames below the innermost one and those of the other threads. -/
def Other (st : τ → List (Frame κ)) (t : τ) (fs : List (Frame κ)) (t' : τ) (g : Frame κ) : Prop :=
  (t' = t ∧ g ∈ fs) ∨ (t' ≠ t ∧ g ∈ st t')

/-- At most one frame holds the list. -/
theorem not_other_holding {r : Registry τ κ} {s : State τ κ} (h : Refines r s) {t : τ}
    {f : Frame κ} {fs : List (Frame κ)} (hst : s.threads t = f :: fs) (hf : f.holding = true)
    {t' : τ} {g : Frame κ} (hg : g.holding = true) (ho : Other s.threads t fs t' g) : False := by
  have hfok := frameOk_holding (h.frames t f (by rw [hst]; exact List.mem_cons_self)) hf
  have hmem : g ∈ s.threads t' := by
    rcases ho with ⟨rfl, hm⟩ | ⟨_, hm⟩
    · rw [hst]
      exact List.mem_cons_of_mem _ hm
    · exact hm
  have hgok := frameOk_holding (h.frames t' g hmem) hg
  have hsame : t' = t ∧ g.role = f.role ∧ f.role ≠ .idle := by
    rcases hfok with ⟨c, cs, hv, hr⟩ | ⟨cs, hv, hr⟩ <;>
      rcases hgok with ⟨c', cs', hv', hr'⟩ | ⟨cs', hv', hr'⟩ <;> rw [hv] at hv' <;> cases hv' <;>
      simp [hr, hr']
  obtain ⟨rfl, hrole, hidle⟩ := hsame
  have hzero := (owner_of_top h.counts hst hidle).2
  have hgfs : g ∈ fs := by
    rcases ho with ⟨_, hm⟩ | ⟨hne, _⟩
    · exact hm
    · exact absurd rfl hne
  have : 0 < roles fs f.role := List.countP_pos_iff.mpr ⟨g, hgfs, by simp [hrole]⟩
  omega

/-- Nothing holds the list while the registry is open or closed. -/
theorem not_holding {r : Registry τ κ} {s : State τ κ} (h : Refines r s)
    (hv : (∃ cs, r.view = .opened cs) ∨ r.view = .closed) {t : τ} {g : Frame κ}
    (hg : g ∈ s.threads t) : g.holding = false := by
  by_contra hne
  have := frameOk_holding (h.frames t g hg) (by simpa using hne)
  rcases hv with ⟨cs, hv⟩ | hv <;> rcases this with ⟨_, _, hv', _⟩ | ⟨_, hv', _⟩ <;>
    rw [hv] at hv' <;> cases hv'

/-- The frames after a step. -/
theorem frames_set {v v' : View τ κ} {link link' : Node κ → Option (Node κ)}
    {st : τ → List (Frame κ)} {t : τ} {f : Frame κ} {fs gs : List (Frame κ)}
    (h : ∀ t, ∀ f ∈ st t, FrameOk v link t f) (hst : st t = f :: fs)
    (hnew : ∀ g ∈ gs, FrameOk v' link' t g) (hv : v = .closed → v' = .closed)
    (hold : ∀ t' g, g.holding = true → Other st t fs t' g → FrameOk v' link' t' g) :
    ∀ t', ∀ g ∈ set st t (gs ++ fs) t', FrameOk v' link' t' g := by
  intro t' g hg
  rcases mem_set hg with ⟨rfl, hm⟩ | ho
  · exact hnew g hm
  · cases hh : g.holding with
    | true => exact hold t' g hh ho
    | false =>
      refine frameOk_light (h t' g ?_) hh hv
      rcases ho with ⟨rfl, hm⟩ | ⟨_, hm⟩
      · rw [hst]
        exact List.mem_cons_of_mem _ hm
      · exact hm

/-- A step that changes nothing the registry can see. -/
theorem refines_quiet {r : Registry τ κ} {s : State τ κ} (h : Refines r s) {t : τ} {f : Frame κ}
    {fs gs : List (Frame κ)} {m : Memory κ} (hst : s.threads t = f :: fs)
    (hroles : ∀ ρ, ρ ≠ .idle → roles gs ρ = roles [f] ρ)
    (hnew : ∀ g ∈ gs, FrameOk r.view m.next t g)
    (hnext : ∀ n ∈ nodes r.view.pending, m.next n = s.mem.next n) (hlist : m.list = s.mem.list)
    (hcalled : ∀ c, m.called (.callback c) = s.mem.called (.callback c))
    (hreq : m.stop_requested = s.mem.stop_requested) :
    Refines r ⟨m, set s.threads t (gs ++ fs), s.phase⟩ where
  ok := h.ok
  counts := counts_same h.counts hst hroles rfl
  frames := by
    refine frames_set h.frames hst hnew id fun t' g _ ho => frameOk_congr (h.frames t' g ?_) hnext
    rcases ho with ⟨rfl, hm⟩ | ⟨_, hm⟩
    · rw [hst]
      exact List.mem_cons_of_mem _ hm
    · exact hm
  list := by
    have := h.list
    unfold ListOk at this ⊢
    cases hv : r.view with
    | opened cs =>
      rw [hv] at this hnext
      obtain ⟨head, hl, hne, hp⟩ := this
      exact ⟨head, hlist.trans hl, hne, hp.congr hnext⟩
    | held | draining | closed =>
      rw [hv] at this
      exact hlist.trans this
  called c := (hcalled c).trans (h.called c)
  requested := hreq.trans h.requested
  phase := h.phase

/-- The stage of the callback whose operation is innermost. -/
theorem stage_of_top {r : Registry τ κ} {s : State τ κ} (h : Refines r s) {t : τ} {f : Frame κ}
    {fs : List (Frame κ)} {c : κ} {k : Nat} (hst : s.threads t = f :: fs) (hf : f.role = .op c k) :
    (r.stage c).rank = k ∧ (r.stage c).thread = some t := by
  have := (owner_of_top h.counts hst (by rw [hf]; exact fun he => by cases he)).1
  rw [hf, Registry.owner] at this
  split at this
  · next hk => exact ⟨hk, this⟩
  · cases this

theorem winner_of_top {r : Registry τ κ} {s : State τ κ} (h : Refines r s) {t : τ} {f : Frame κ}
    {fs : List (Frame κ)} {k : Nat} (hst : s.threads t = f :: fs) (hf : f.role = .stop k) :
    r.winner.rank = k ∧ r.winner.thread = some t := by
  have := (owner_of_top h.counts hst (by rw [hf]; exact fun he => by cases he)).1
  rw [hf, Registry.owner] at this
  split at this
  · next hk => exact ⟨hk, this⟩
  · cases this

/-- The list pointer is null exactly when the registry is closed. -/
theorem closed_of_null {r : Registry τ κ} {s : State τ κ} (h : Refines r s)
    (hl : s.mem.list = none) : r.view = .closed := by
  have := h.list
  unfold ListOk at this
  cases hv : r.view with
  | opened cs =>
    rw [hv] at this
    obtain ⟨head, hl', _⟩ := this
    rw [hl] at hl'
    cases hl'
  | held | draining =>
    rw [hv] at this
    rw [hl] at this
    cases this
  | closed => rfl

/-- The list pointer points to a proper node exactly when the registry is open. -/
theorem opened_of_some {r : Registry τ κ} {s : State τ κ} (h : Refines r s) {head : Node κ}
    (hl : s.mem.list = some head) (hne : head ≠ .marker) :
    ∃ cs, r.view = .opened cs ∧ Path s.mem.next (some head) (nodes cs) := by
  have := h.list
  unfold ListOk at this
  cases hv : r.view with
  | opened cs =>
    rw [hv] at this
    obtain ⟨head', hl', _, hp⟩ := this
    rw [hl] at hl'
    cases hl'
    exact ⟨cs, rfl, hp⟩
  | held | draining =>
    rw [hv, hl] at this
    cases this
    exact absurd rfl hne
  | closed =>
    rw [hv, hl] at this
    cases this

end InPlaceRefinementLemmas

open InPlaceRefinementLemmas

end Kuhllib.InPlaceStopSource
