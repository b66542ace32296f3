import Kuhllib.StopToken.InPlaceStopSource
import Mathlib.Data.List.Nodup

/-!
# What a stop source is for

`Registry` is the purpose of `in_place_stop_source` without pointers: a
duplicate-free sequence of callbacks that is open, held by one `remove()`,
being drained by the winning `stop()`, or closed. A callback goes through its
stages once. `Move` says which steps are possible; it has the labels of the
code's system, so that a run of the code is a run of the registry.

Results, for every run of the registry:
1. `Ok.move`: the invariant that ties sequence, stages and calls together.
2. `call_once`, `called_before_stop_returns`, `called_by_own_insert`,
   `no_call_after_remove`: the delivery guarantees.
3. `pending_iff`, `linked_or_called`: what is in the sequence.
-/

namespace Kuhllib.InPlaceStopSource

open Transition

/-- How far a callback has come; operations in progress know their thread. -/
inductive Stage (τ : Type)
  | fresh
  | inserting (t : τ)
  | linked (t : τ)
  | inserted
  | removing (t : τ)
  | unlinked (t : τ)
  | removed
  deriving DecidableEq

/-- The sequence of callbacks. -/
inductive View (τ κ : Type)
  | opened (cs : List κ)
  | held (t : τ) (c : κ) (cs : List κ)
  | draining (t : τ) (cs : List κ)
  | closed

/-- The `stop()` that set `d_stop_requested`. -/
inductive Winner (τ : Type)
  | none
  | seeking (t : τ)
  | draining (t : τ)
  | finishing (t : τ)
  | returned

structure Registry (τ κ : Type) where
  stage : κ → Stage τ
  view : View τ κ
  winner : Winner τ
  called : κ → Bool

/-- Inserted, and not yet unlinked or known to be called by its `remove()`. -/
def Stage.onList {τ : Type} : Stage τ → Bool
  | .linked _ | .inserted | .removing _ => true
  | _ => false

/-- `insert()` has not yet linked or called the callback. -/
def Stage.early {τ : Type} : Stage τ → Bool
  | .fresh | .inserting _ => true
  | _ => false

/-- The callbacks that are still to be called by `stop()`. -/
def View.pending {τ κ : Type} : View τ κ → List κ
  | .opened cs | .held _ _ cs | .draining _ cs => cs
  | .closed => []

/-- `stop()` has not taken the sequence yet. -/
def View.untaken {τ κ : Type} : View τ κ → Bool
  | .opened _ | .held _ _ _ => true
  | _ => false

variable {τ κ : Type}

def Registry.initial : Registry τ κ where
  stage _ := .fresh
  view := .opened []
  winner := .none
  called _ := false

/-- `winner` and `view` tell the same story. -/
def Agree (v : View τ κ) : Winner τ → Prop
  | .none | .seeking _ => v.untaken = true
  | .draining t => ∃ cs, v = .draining t cs
  | .finishing _ | .returned => v = .closed

structure Ok (r : Registry τ κ) : Prop where
  nodup : r.view.pending.Nodup
  pending : ∀ c ∈ r.view.pending, (r.stage c).onList = true ∧ r.called c = false
  onList : ∀ c, (r.stage c).onList = true → c ∈ r.view.pending ∨ r.called c = true
  early : ∀ c, (r.stage c).early = true → r.called c = false
  untaken : r.view.untaken = true → ∀ c, r.called c = false
  holder : ∀ t c cs, r.view = .held t c cs → r.stage c = .removing t
  agree : Agree r.view r.winner

/-- A stage without a place in the sequence. -/
theorem Ok.not_pending {r : Registry τ κ} (h : Ok r) {c : κ} (hs : (r.stage c).onList = false) :
    c ∉ r.view.pending := fun hm => by
  rw [(h.pending c hm).1] at hs
  cases hs

/-- Only a callback that is being removed is held. -/
theorem Ok.not_held {r : Registry τ κ} (h : Ok r) {c : κ} (hs : ∀ t, r.stage c ≠ .removing t)
    (t : τ) (cs : List κ) : r.view ≠ .held t c cs := fun hv => hs t (h.holder t c cs hv)

theorem Ok.initial : Ok (Registry.initial : Registry τ κ) where
  nodup := List.nodup_nil
  pending _ h := absurd h List.not_mem_nil
  onList _ h := by cases h
  early _ _ := rfl
  untaken _ _ := rfl
  holder _ _ _ h := by cases h
  agree := rfl

variable [DecidableEq κ]

/-- The moves of the registry. -/
inductive Move : Registry τ κ → τ × Event κ → Registry τ κ → Prop
  | insertStart {r : Registry τ κ} {t : τ} {c : κ} : r.stage c = .fresh →
      Move r (t, .insertStart c) { r with stage := Function.update r.stage c (.inserting t) }
  | link {r : Registry τ κ} {t : τ} {c : κ} {cs : List κ} :
      r.stage c = .inserting t → r.view = .opened cs →
      Move r (t, .link c)
        { r with stage := Function.update r.stage c (.linked t), view := .opened (c :: cs) }
  | callInsert {r : Registry τ κ} {t : τ} {c : κ} : r.stage c = .inserting t → r.view = .closed →
      Move r (t, .call .insert c)
        { r with
          stage := Function.update r.stage c (.linked t)
          called := Function.update r.called c true }
  | insertReturn {r : Registry τ κ} {t : τ} {c : κ} : r.stage c = .linked t →
      Move r (t, .insertReturn c) { r with stage := Function.update r.stage c .inserted }
  | removeStart {r : Registry τ κ} {t : τ} {c : κ} : r.stage c = .inserted →
      Move r (t, .removeStart c) { r with stage := Function.update r.stage c (.removing t) }
  | removeSkip {r : Registry τ κ} {t : τ} {c : κ} :
      r.stage c = .removing t → r.called c = true ∨ r.view = .closed →
      Move r (t, .removeSkip c) { r with stage := Function.update r.stage c (.unlinked t) }
  | removeTake {r : Registry τ κ} {t : τ} {c : κ} {cs : List κ} :
      r.stage c = .removing t → r.view = .opened cs →
      Move r (t, .removeTake c) { r with view := .held t c cs }
  | removeStore {r : Registry τ κ} {t : τ} {c : κ} {cs : List κ} :
      r.stage c = .removing t → r.view = .held t c cs →
      Move r (t, .removeStore c)
        { r with
          stage := Function.update r.stage c (.unlinked t)
          view := .opened (cs.erase c) }
  | removeReturn {r : Registry τ κ} {t : τ} {c : κ} : r.stage c = .unlinked t →
      Move r (t, .removeReturn c) { r with stage := Function.update r.stage c .removed }
  | stopWin {r : Registry τ κ} {t : τ} : r.winner = .none →
      Move r (t, .stopWin) { r with winner := .seeking t }
  | stopTake {r : Registry τ κ} {t : τ} {cs : List κ} :
      r.winner = .seeking t → r.view = .opened cs →
      Move r (t, .stopTake) { r with view := .draining t cs, winner := .draining t }
  | callStop {r : Registry τ κ} {t : τ} {c : κ} {cs : List κ} : r.view = .draining t (c :: cs) →
      Move r (t, .call .stop c)
        { r with view := .draining t cs, called := Function.update r.called c true }
  | stopStore {r : Registry τ κ} {t : τ} : r.view = .draining t [] →
      Move r (t, .stopStore) { r with view := .closed, winner := .finishing t }
  | stopReturn {r : Registry τ κ} {t : τ} : r.winner = .finishing t →
      Move r (t, .stopReturn true) { r with winner := .returned }
  | stopLose {r : Registry τ κ} {t : τ} : Move r (t, .stopReturn false) r
  | stopStart {r : Registry τ κ} {t : τ} : Move r (t, .stopStart) r
  | bodyReturn {r : Registry τ κ} {t : τ} {c : κ} : Move r (t, .bodyReturn c) r
  | tau {r : Registry τ κ} {t : τ} : Move r (t, .tau) r

def registry (τ κ : Type) [DecidableEq κ] : System (Registry τ κ) (τ × Event κ) where
  init r := r = Registry.initial
  step := Move

/-! ## 1. Every move keeps the invariant -/

namespace StopRegistryLemmas

/-- Changing the stage of `c` alone. -/
theorem restage {r : Registry τ κ} (h : Ok r) {c : κ} {g : Stage τ}
    (hp : c ∈ r.view.pending → g.onList = true)
    (hl : g.onList = true → c ∈ r.view.pending ∨ r.called c = true)
    (he : g.early = true → r.called c = false)
    (hh : ∀ t cs, r.view = .held t c cs → g = .removing t) :
    Ok { r with stage := Function.update r.stage c g } where
  nodup := h.nodup
  pending c' hc' := by
    refine ⟨?_, (h.pending c' hc').2⟩
    rcases eq_or_ne c' c with rfl | hne
    · simpa using hp hc'
    · simpa [hne] using (h.pending c' hc').1
  onList c' hc' := by
    rcases eq_or_ne c' c with rfl | hne
    · exact hl (by simpa using hc')
    · exact h.onList c' (by simpa [hne] using hc')
  early c' hc' := by
    rcases eq_or_ne c' c with rfl | hne
    · exact he (by simpa using hc')
    · exact h.early c' (by simpa [hne] using hc')
  untaken := h.untaken
  holder t c' cs hv := by
    rcases eq_or_ne c' c with rfl | hne
    · simpa using hh t cs hv
    · simpa [hne] using h.holder t c' cs hv
  agree := h.agree

theorem ok_link {r : Registry τ κ} (h : Ok r) {t : τ} {c : κ} {cs : List κ}
    (hs : r.stage c = .inserting t) (hv : r.view = .opened cs) :
    Ok { r with stage := Function.update r.stage c (.linked t), view := .opened (c :: cs) } where
  nodup := by
    have hm : c ∉ r.view.pending := h.not_pending (by rw [hs]; rfl)
    have nd := h.nodup
    rw [hv] at hm nd
    exact List.nodup_cons.mpr ⟨hm, nd⟩
  pending c' hc' := by
    have hcall := h.untaken (by rw [hv]; rfl)
    rcases eq_or_ne c' c with rfl | hne
    · exact ⟨by simp [Stage.onList], hcall c'⟩
    · have hm : c' ∈ r.view.pending := by
        rw [hv]
        exact (List.mem_cons.mp hc').resolve_left hne
      simpa [hne] using h.pending c' hm
  onList c' hc' := by
    rcases eq_or_ne c' c with rfl | hne
    · exact .inl (by simp [View.pending])
    · have := h.onList c' (by simpa [hne] using hc')
      rw [hv] at this
      exact this.imp (List.mem_cons_of_mem _) id
  early c' hc' := h.untaken (by rw [hv]; rfl) c'
  untaken _ := h.untaken (by rw [hv]; rfl)
  holder _ _ _ he := by simp at he
  agree := by
    have := h.agree
    rw [hv] at this
    cases hw : r.winner <;> simp_all [Agree, View.untaken]

theorem ok_removeStore {r : Registry τ κ} (h : Ok r) {t : τ} {c : κ} {cs : List κ}
    (hv : r.view = .held t c cs) :
    Ok { r with
      stage := Function.update r.stage c (.unlinked t)
      view := .opened (cs.erase c) } where
  nodup := by
    have nd := h.nodup
    rw [hv] at nd
    exact nd.erase c
  pending c' hc' := by
    have nd := h.nodup
    rw [hv] at nd
    have hne : c' ≠ c := by rintro rfl; exact nd.not_mem_erase hc'
    have hm : c' ∈ r.view.pending := by rw [hv]; exact List.mem_of_mem_erase hc'
    simpa [hne] using h.pending c' hm
  onList c' hc' := by
    rcases eq_or_ne c' c with rfl | hne
    · simp [Stage.onList] at hc'
    · have := h.onList c' (by simpa [hne] using hc')
      rw [hv] at this
      exact this.imp (List.mem_erase_of_ne hne).mpr id
  early c' _ := h.untaken (by rw [hv]; rfl) c'
  untaken _ := h.untaken (by rw [hv]; rfl)
  holder _ _ _ he := by simp at he
  agree := by
    have := h.agree
    rw [hv] at this
    cases hw : r.winner <;> simp_all [Agree, View.untaken]

theorem ok_callStop {r : Registry τ κ} (h : Ok r) {t : τ} {c : κ} {cs : List κ}
    (hv : r.view = .draining t (c :: cs)) :
    Ok { r with view := .draining t cs, called := Function.update r.called c true } where
  nodup := by
    have nd := h.nodup
    rw [hv] at nd
    exact (List.nodup_cons.mp nd).2
  pending c' hc' := by
    have nd := h.nodup
    rw [hv] at nd
    have hne : c' ≠ c := by rintro rfl; exact (List.nodup_cons.mp nd).1 hc'
    have hm : c' ∈ r.view.pending := by rw [hv]; exact List.mem_cons_of_mem _ hc'
    simpa [hne] using h.pending c' hm
  onList c' hc' := by
    rcases eq_or_ne c' c with rfl | hne
    · exact .inr (by simp)
    · have := h.onList c' hc'
      rw [hv] at this
      refine this.imp (fun hm => (List.mem_cons.mp hm).resolve_left hne) fun hc => ?_
      simpa [hne] using hc
  early c' hc' := by
    have hm : c ∈ r.view.pending := by rw [hv]; exact List.mem_cons_self
    have hne : c' ≠ c := by
      rintro rfl
      have := (h.pending c' hm).1
      revert hc' this
      cases r.stage c' <;> simp [Stage.early, Stage.onList]
    simpa [hne] using h.early c' hc'
  untaken hu := by simp [View.untaken] at hu
  holder _ _ _ he := by simp at he
  agree := by
    have := h.agree
    rw [hv] at this
    cases hw : r.winner <;> simp_all [Agree, View.untaken]

end StopRegistryLemmas

open StopRegistryLemmas

/-- Every move keeps the invariant. -/
theorem Ok.move {r r' : Registry τ κ} {l : τ × Event κ} (h : Ok r) (hm : Move r l r') : Ok r' := by
  cases hm with
  | insertStart hs =>
    have hc := h.early _ (by rw [hs]; rfl)
    refine restage h (fun hp => ?_) (fun hl => by cases hl) (fun _ => hc) fun t cs hv => ?_
    · exact absurd hp (h.not_pending (by rw [hs]; rfl))
    · exact absurd hv (h.not_held (by simp [hs]) t cs)
  | link hs hv => exact ok_link h hs hv
  | @callInsert t c hs hv =>
    refine ⟨by rw [hv]; exact List.nodup_nil, ?_, fun c' hc' => ?_, fun c' hc' => ?_, ?_, ?_, h.agree⟩
    · rw [hv]
      exact fun _ hp => absurd hp List.not_mem_nil
    · rcases eq_or_ne c' c with rfl | hne
      · exact .inr (by simp)
      · simpa [hne] using h.onList c' (by simpa [hne] using hc')
    · rcases eq_or_ne c' c with rfl | hne
      · simp [Stage.early] at hc'
      · simpa [hne] using h.early c' (by simpa [hne] using hc')
    · intro hu
      rw [hv] at hu
      cases hu
    · intro t' c' cs' he
      rw [hv] at he
      cases he
  | insertReturn hs =>
    have hl := h.onList _ (by rw [hs]; rfl)
    refine restage h (fun _ => rfl) (fun _ => hl) (fun he => by cases he) fun t cs hv => ?_
    exact absurd hv (h.not_held (by simp [hs]) t cs)
  | removeStart hs =>
    have hl := h.onList _ (by rw [hs]; rfl)
    refine restage h (fun _ => rfl) (fun _ => hl) (fun he => by cases he) fun t cs hv => ?_
    exact absurd hv (h.not_held (by simp [hs]) t cs)
  | @removeSkip t c hs hc =>
    refine restage h (fun hp => ?_) (fun hl => by cases hl) (fun he => by cases he) fun t' cs hv => ?_
    · rcases hc with hc | hv
      · rw [(h.pending c hp).2] at hc
        cases hc
      · rw [hv] at hp
        exact absurd hp List.not_mem_nil
    · rcases hc with hc | hv'
      · rw [h.untaken (by rw [hv]; rfl) c] at hc
        cases hc
      · rw [hv'] at hv
        cases hv
  | @removeTake t c cs hs hv =>
    refine ⟨by have := h.nodup; rwa [hv] at this, ?_, ?_, h.early, ?_, ?_, ?_⟩
    · have := h.pending
      rwa [hv] at this
    · have := h.onList
      rwa [hv] at this
    · exact fun _ => h.untaken (by rw [hv]; rfl)
    · intro t' c' cs' he
      cases he
      exact hs
    · have := h.agree
      rw [hv] at this
      cases hw : r.winner <;> simp_all [Agree, View.untaken]
  | removeStore hs hv => exact ok_removeStore h hv
  | removeReturn hs =>
    refine restage h (fun hp => ?_) (fun hl => by cases hl) (fun he => by cases he) fun t cs hv => ?_
    · exact absurd hp (h.not_pending (by rw [hs]; rfl))
    · exact absurd hv (h.not_held (by simp [hs]) t cs)
  | stopWin hw =>
    refine { h with agree := ?_ }
    have := h.agree
    rw [hw] at this
    exact this
  | @stopTake t cs hw hv =>
    refine ⟨by have := h.nodup; rwa [hv] at this, ?_, ?_, h.early, ?_, ?_, cs, rfl⟩
    · have := h.pending
      rwa [hv] at this
    · have := h.onList
      rwa [hv] at this
    · intro hu
      cases hu
    · intro t' c' cs' he
      cases he
  | callStop hv => exact ok_callStop h hv
  | stopStore hv =>
    refine ⟨List.nodup_nil, fun _ hp => absurd hp List.not_mem_nil, ?_, h.early, ?_, ?_, rfl⟩
    · have := h.onList
      rwa [hv] at this
    · intro hu
      cases hu
    · intro t' c' cs' he
      cases he
  | stopReturn hw =>
    refine { h with agree := ?_ }
    have := h.agree
    rw [hw] at this
    exact this
  | stopLose | stopStart | bodyReturn | tau => exact h

theorem Ok.run {r : Registry τ κ} {tr : List (τ × Event κ)}
    (h : Run (registry τ κ) Registry.initial tr r) : Ok r :=
  h.invariant_state Ok.initial fun _ _ _ => Ok.move

/-- The induction rule for the runs of the registry, with the invariant at hand. -/
theorem Run.registry_induct {I : List (τ × Event κ) → Registry τ κ → Prop} {r : Registry τ κ}
    {tr : List (τ × Event κ)} (h : Run (registry τ κ) Registry.initial tr r)
    (start : I [] Registry.initial)
    (keep : ∀ tr r t e r', Ok r → I tr r → Move r (t, e) r' → I (tr ++ [(t, e)]) r') : I tr r :=
  (h.invariant (I := fun tr r => Ok r ∧ I tr r) ⟨Ok.initial, start⟩
    fun _ _ _ _ hi hm => ⟨hi.1.move hm, keep _ _ _ _ _ hi.1 hi.2 hm⟩).2

/-! ## 2. Delivery -/

/-- The event happened, on some thread. -/
def Happened (tr : List (τ × Event κ)) (e : Event κ) : Prop := ∃ t, (t, e) ∈ tr

def isCall (c : κ) : τ × Event κ → Bool
  | (_, .call _ c') => c' = c
  | _ => false

/-- How often `call()` was started for `c`. -/
def calls (tr : List (τ × Event κ)) (c : κ) : Nat := tr.countP (isCall c)

/-- The position of a stage in the life of a callback. -/
def Stage.rank {τ : Type} : Stage τ → Nat
  | .fresh => 0
  | .inserting _ => 1
  | .linked _ => 2
  | .inserted => 3
  | .removing _ => 4
  | .unlinked _ => 5
  | .removed => 6

/-- The stage that an event of `c` leads to. -/
def Event.stageAfter {κ : Type} : Event κ → Nat
  | .insertStart _ => 1
  | .link _ => 2
  | .insertReturn _ => 3
  | .removeStart _ => 4
  | .removeStore _ => 5
  | .removeReturn _ => 6
  | _ => 0

/-- The callback an operation is about. -/
def Event.about {κ : Type} : Event κ → κ → Prop
  | .insertStart c, c' | .link c, c' | .insertReturn c, c' | .removeStart c, c' | .removeStore c, c'
  | .removeReturn c, c' => c = c'
  | _, _ => False

namespace StopRegistryLemmas

omit [DecidableEq κ] in
theorem happened_snoc {tr : List (τ × Event κ)} {t : τ} {e e' : Event κ} :
    Happened (tr ++ [(t, e')]) e ↔ Happened tr e ∨ e = e' := by
  unfold Happened
  simp only [List.mem_append, List.mem_singleton, Prod.mk.injEq]
  constructor
  · rintro ⟨t', h | ⟨_, h⟩⟩
    · exact .inl ⟨t', h⟩
    · exact .inr h
  · rintro (⟨t', h⟩ | h)
    · exact ⟨t', .inl h⟩
    · exact ⟨t, .inr ⟨rfl, h⟩⟩

theorem rank_update {r : Registry τ κ} {c : κ} {g : Stage τ} (h : (r.stage c).rank ≤ g.rank)
    (c' : κ) : (r.stage c').rank ≤ (Function.update r.stage c g c').rank := by
  rcases eq_or_ne c' c with rfl | hne
  · simpa using h
  · simp [hne]

/-- Stages only advance. -/
theorem rank_mono {r r' : Registry τ κ} {l : τ × Event κ} (hm : Move r l r') (c : κ) :
    (r.stage c).rank ≤ (r'.stage c).rank := by
  cases hm with
  | insertStart hs | link hs _ | callInsert hs _ | insertReturn hs | removeStart hs
  | removeSkip hs _ | removeStore hs _ | removeReturn hs =>
    exact rank_update (by rw [hs]; simp [Stage.rank]) c
  | removeTake | stopWin | stopTake | callStop | stopStore | stopReturn | stopLose | stopStart
  | bodyReturn | tau => exact Nat.le_refl _

theorem rank_of_move {r r' : Registry τ κ} {t : τ} {e : Event κ} {c : κ} (hm : Move r (t, e) r')
    (hc : e.about c) : e.stageAfter ≤ (r'.stage c).rank := by
  cases hm with
  | insertStart | link | insertReturn | removeStart | removeStore | removeReturn =>
    simp only [Event.about] at hc
    subst hc
    simp [Event.stageAfter, Stage.rank]
  | callInsert | removeSkip | removeTake | stopWin | stopTake | callStop | stopStore | stopReturn
  | stopLose | stopStart | bodyReturn | tau => exact absurd hc id

end StopRegistryLemmas

open StopRegistryLemmas

variable {r : Registry τ κ} {tr : List (τ × Event κ)}

/-- What happened to `c` bounds its stage from below. -/
theorem rank_of_happened (h : Run (registry τ κ) Registry.initial tr r) {e : Event κ} {c : κ}
    (he : Happened tr e) (hc : e.about c) : e.stageAfter ≤ (r.stage c).rank := by
  revert he
  refine h.invariant (I := fun tr r => Happened tr e → e.stageAfter ≤ (r.stage c).rank) ?_ ?_
  · rintro ⟨_, hm⟩
    exact absurd hm List.not_mem_nil
  · rintro tr r ⟨t, e'⟩ r' ih hm he
    rcases happened_snoc.mp he with he | rfl
    · exact Nat.le_trans (ih he) (rank_mono hm c)
    · exact rank_of_move hm hc

/-- A callback that is being removed has had its `remove()` started. -/
theorem removeStart_of_rank (h : Run (registry τ κ) Registry.initial tr r) {c : κ}
    (hr : 4 ≤ (r.stage c).rank) : Happened tr (.removeStart c) := by
  revert hr
  refine h.invariant (I := fun tr r => 4 ≤ (r.stage c).rank → Happened tr (.removeStart c)) ?_ ?_
  · intro hr
    simp [Registry.initial, Stage.rank] at hr
  · rintro tr r ⟨t, e⟩ r' ih hm hr
    rw [happened_snoc]
    have other : ∀ {c' : κ} {g : Stage τ}, r'.stage = Function.update r.stage c' g →
        (4 ≤ g.rank → 4 ≤ (r.stage c').rank) → 4 ≤ (r.stage c).rank := by
      intro c' g hu hg
      rcases eq_or_ne c c' with rfl | hne
      · exact hg (by simpa [hu] using hr)
      · simpa [hu, hne] using hr
    cases hm with
    | @removeStart _ c' hs =>
      rcases eq_or_ne c c' with rfl | hne
      · exact .inr rfl
      · exact .inl (ih (by simpa [hne] using hr))
    | insertStart hs | link hs _ | callInsert hs _ | insertReturn hs | removeSkip hs _
    | removeStore hs _ | removeReturn hs =>
      exact .inl (ih (other rfl (by rw [hs]; simp [Stage.rank])))
    | removeTake | stopWin | stopTake | callStop | stopStore | stopReturn | stopLose | stopStart
    | bodyReturn | tau => exact .inl (ih hr)

/-- `call()` was started for exactly the callbacks that the registry calls called. -/
theorem calls_eq (h : Run (registry τ κ) Registry.initial tr r) (c : κ) :
    calls tr c = if r.called c then 1 else 0 := by
  refine Run.registry_induct (I := fun tr r => calls tr c = if r.called c then 1 else 0) h rfl ?_
  intro tr r t e r' hok ih hm
  have hsnoc : calls (tr ++ [(t, e)]) c = calls tr c + if isCall c (t, e) then 1 else 0 := by
    simp [calls, List.countP_append, List.countP_cons]
  rw [hsnoc, ih]
  cases hm with
  | @callInsert _ c' hs hv =>
    have hf := hok.early c' (by rw [hs]; rfl)
    rcases eq_or_ne c' c with rfl | hne
    · simp [isCall, hf]
    · simp [isCall, hne, hne.symm]
  | @callStop _ c' cs hv =>
    have hf := (hok.pending c' (by rw [hv]; exact List.mem_cons_self)).2
    rcases eq_or_ne c' c with rfl | hne
    · simp [isCall, hf]
    · simp [isCall, hne, hne.symm]
  | insertStart | link | insertReturn | removeStart | removeSkip | removeTake | removeStore
  | removeReturn | stopWin | stopTake | stopStore | stopReturn | stopLose | stopStart
  | bodyReturn | tau => simp [isCall]

/-- Once the winning `stop()` has returned the registry is closed for good. -/
theorem closed_of_returned (h : Run (registry τ κ) Registry.initial tr r)
    (hs : Happened tr (.stopReturn true)) : r.view = .closed := by
  have key : Happened tr (.stopReturn true) → r.winner = .returned := by
    refine Run.registry_induct
      (I := fun tr r => Happened tr (.stopReturn true) → r.winner = .returned) h ?_ ?_
    · rintro ⟨_, hm⟩
      exact absurd hm List.not_mem_nil
    · intro tr r t e r' hok ih hm he
      rw [happened_snoc] at he
      cases hm with
      | stopReturn => rfl
      | stopWin hw | stopTake hw _ =>
        have := ih (he.resolve_right (by simp))
        rw [hw] at this
        cases this
      | stopStore hv =>
        have := hok.agree
        rw [ih (he.resolve_right (by simp)), hv] at this
        cases this
      | _ => exact ih (he.resolve_right (by simp))
  have hok := (Ok.run h).agree
  rw [key hs] at hok
  exact hok

theorem call_once (h : Run (registry τ κ) Registry.initial tr r) (c : κ) : calls tr c ≤ 1 := by
  rw [calls_eq h]
  split <;> omega

/-- What was inserted and is not being removed when the winning `stop()` has
returned has been called. -/
theorem called_before_stop_returns (h : Run (registry τ κ) Registry.initial tr r) {c : κ}
    (hs : Happened tr (.stopReturn true)) (hi : Happened tr (.insertReturn c))
    (hr : ¬ Happened tr (.removeStart c)) : calls tr c = 1 := by
  have h3 : 3 ≤ (r.stage c).rank := rank_of_happened h hi rfl
  have h4 : ¬ 4 ≤ (r.stage c).rank := fun h4 => hr (removeStart_of_rank h h4)
  have hl : (r.stage c).onList = true := by
    cases hc : r.stage c <;> simp_all [Stage.rank, Stage.onList]
  have hv := closed_of_returned h hs
  have hcalled := ((Ok.run h).onList c hl).resolve_left (by rw [hv]; exact List.not_mem_nil)
  rw [calls_eq h, hcalled]
  rfl

/-- No call starts once `remove()` has returned: what is removed is neither
waiting for `stop()` nor being inserted. -/
theorem no_call_after_remove {tr' : List (τ × Event κ)} {r' : Registry τ κ} {c : κ}
    (h : Run (registry τ κ) Registry.initial tr r) (hr : Happened tr (.removeReturn c))
    (h' : Run (registry τ κ) r tr' r') : calls tr' c = 0 := by
  have hrun := h.append h'
  have before : (r.stage c).rank = 6 := by
    have : 6 ≤ (r.stage c).rank := rank_of_happened h hr rfl
    cases hc : r.stage c <;> simp_all [Stage.rank]
  have key : Ok r' ∧ (r'.stage c).rank = 6 ∧ calls tr' c = 0 := by
    refine h'.invariant (I := fun tr r => Ok r ∧ (r.stage c).rank = 6 ∧ calls tr c = 0) ?_ ?_
    · exact ⟨Ok.run h, before, rfl⟩
    · rintro tr r ⟨t, e⟩ r' ⟨hok, hrank, ih⟩ hm
      have hmono := rank_mono hm c
      refine ⟨hok.move hm, ?_, ?_⟩
      · cases hc : r'.stage c <;> simp_all [Stage.rank]
      · have hcall : isCall c (t, e) = false := by
          cases hm with
          | @callInsert _ c' hs hv =>
            have : c' ≠ c := by rintro rfl; rw [hs] at hrank; simp [Stage.rank] at hrank
            simp [isCall, this]
          | @callStop _ c' cs hv =>
            have hl := (hok.pending c' (by rw [hv]; exact List.mem_cons_self)).1
            have : c' ≠ c := by
              rintro rfl
              cases hc : r.stage c' <;> simp_all [Stage.rank, Stage.onList]
            simp [isCall, this]
          | _ => rfl
        simpa [calls, List.countP_append, hcall] using ih
  exact key.2.2

/-- Inserted after the winning `stop()` has returned means called by `insert()`. -/
theorem called_by_own_insert {tr' : List (τ × Event κ)} {r' : Registry τ κ} {c : κ}
    (h : Run (registry τ κ) Registry.initial tr r) (hs : Happened tr (.stopReturn true))
    (h' : Run (registry τ κ) r tr' r') (hi : Happened tr' (.insertStart c))
    (hd : Happened (tr ++ tr') (.insertReturn c)) : Happened tr' (.call .insert c) := by
  have hd' : 3 ≤ (r'.stage c).rank := rank_of_happened (h.append h') hd rfl
  have key : r'.view = .closed ∧
      (Happened tr' (.insertStart c) →
        (∃ t, r'.stage c = .inserting t) ∨ Happened tr' (.call .insert c)) := by
    refine h'.invariant (I := fun tr r => r.view = .closed ∧ (Happened tr (.insertStart c) →
      (∃ t, r.stage c = .inserting t) ∨ Happened tr (.call .insert c))) ?_ ?_
    · refine ⟨closed_of_returned h hs, ?_⟩
      rintro ⟨_, hm⟩
      exact absurd hm List.not_mem_nil
    · rintro tr r ⟨t, e⟩ r' ⟨hv, ih⟩ hm
      simp only [happened_snoc]
      -- the stage of `c` leaves `inserting` only by the call of its own `insert()`
      have other : ∀ {c' : κ} {g : Stage τ}, (∀ t, r.stage c' ≠ .inserting t) →
          (∃ t, r.stage c = .inserting t) ∨ Happened tr (.call .insert c) →
          (∃ t, Function.update r.stage c' g c = .inserting t) ∨ Happened tr (.call .insert c) := by
        intro c' g hne
        rintro (⟨t, ht⟩ | hc)
        · have : c ≠ c' := by rintro rfl; exact hne t ht
          exact .inl ⟨t, by simpa [this] using ht⟩
        · exact .inr hc
      cases hm with
      | @insertStart _ c' hs =>
        refine ⟨hv, fun he => ?_⟩
        rcases eq_or_ne c c' with rfl | hne
        · exact .inl ⟨t, by simp⟩
        · have := ih (he.resolve_right (by simp [hne]))
          simpa [hne] using this
      | @callInsert _ c' hs _ =>
        refine ⟨hv, fun he => ?_⟩
        rcases eq_or_ne c c' with rfl | hne
        · exact .inr (.inr rfl)
        · have := ih (he.resolve_right (by simp))
          simpa [hne] using this
      | link _ hv' | removeTake _ hv' | removeStore _ hv' | stopTake _ hv' | callStop hv'
      | stopStore hv' =>
        rw [hv] at hv'
        cases hv'
      | insertReturn hs | removeStart hs | removeSkip hs _ | removeReturn hs =>
        refine ⟨hv, fun he => ?_⟩
        exact (other (by simp [hs]) (ih (he.resolve_right (by simp)))).imp id .inl
      | stopWin | stopReturn | stopLose | stopStart | bodyReturn | tau =>
        exact ⟨hv, fun he => (ih (he.resolve_right (by simp))).imp id .inl⟩
  rcases key.2 hi with ⟨t, ht⟩ | hc
  · rw [ht] at hd'
    simp [Stage.rank] at hd'
  · exact hc

/-! ## 3. The content of the sequence -/

namespace StopRegistryLemmas

theorem onList_iff_rank {g : Stage τ} : g.onList = true ↔ 2 ≤ g.rank ∧ g.rank < 5 := by
  cases g <;> simp [Stage.onList, Stage.rank]

/-- A closed registry stays closed. -/
theorem closed_stays {r r' : Registry τ κ} {l : τ × Event κ} (hm : Move r l r')
    (h : r.view = .closed) : r'.view = .closed := by
  cases hm with
  | link _ hv | removeTake _ hv | removeStore _ hv | stopTake _ hv | callStop hv =>
    rw [h] at hv
    cases hv
  | stopStore => rfl
  | _ => exact h

/-- Linking is the only way to get a stage on the list other than being called,
and unlinking the only way off it. -/
theorem stages_by_linking (h : Run (registry τ κ) Registry.initial tr r) (c : κ) :
    (2 ≤ (r.stage c).rank → Happened tr (.link c) ∨ Happened tr (.call .insert c)) ∧
      (r.view ≠ .closed → 5 ≤ (r.stage c).rank →
        Happened tr (.removeStore c) ∨ r.called c = true) := by
  refine Run.registry_induct (I := fun tr r =>
    (2 ≤ (r.stage c).rank → Happened tr (.link c) ∨ Happened tr (.call .insert c)) ∧
      (r.view ≠ .closed → 5 ≤ (r.stage c).rank →
        Happened tr (.removeStore c) ∨ r.called c = true)) h ?_ ?_
  · simp [Registry.initial, Stage.rank]
  · intro tr r t e r' hok ⟨ih₂, ih₅⟩ hm
    have hopen : r'.view ≠ .closed → r.view ≠ .closed := fun hne hc => hne (closed_stays hm hc)
    simp only [happened_snoc]
    -- a step that does not cross one of the two bounds
    have other : ∀ {c' : κ} {g : Stage τ}, (2 ≤ g.rank → 2 ≤ (r.stage c').rank) →
        (5 ≤ g.rank → 5 ≤ (r.stage c').rank) →
        (2 ≤ (Function.update r.stage c' g c).rank →
          Happened tr (.link c) ∨ Happened tr (.call .insert c)) ∧
        (r.view ≠ .closed → 5 ≤ (Function.update r.stage c' g c).rank →
          Happened tr (.removeStore c) ∨ r.called c = true) := by
      intro c' g h₂ h₅
      rcases eq_or_ne c c' with rfl | hne
      · simpa using ⟨fun hg => ih₂ (h₂ hg), fun hv hg => ih₅ hv (h₅ hg)⟩
      · simpa [hne] using ⟨ih₂, ih₅⟩
    cases hm with
    | @link _ c' cs hs hv =>
      rcases eq_or_ne c c' with rfl | hne
      · simp [Stage.rank]
      · refine ⟨fun hr => ?_, fun _ hr => ?_⟩
        · exact (ih₂ (by simpa [hne] using hr)).imp .inl .inl
        · exact (ih₅ (by rw [hv]; simp) (by simpa [hne] using hr)).imp .inl id
    | @callInsert _ c' hs hv =>
      refine ⟨fun hr => ?_, fun hne => absurd hv hne⟩
      rcases eq_or_ne c c' with rfl | hne
      · exact .inr (.inr rfl)
      · exact (ih₂ (by simpa [hne] using hr)).imp .inl .inl
    | @removeStore _ c' cs hs hv =>
      rcases eq_or_ne c c' with rfl | hne
      · exact ⟨fun _ => (ih₂ (by rw [hs]; simp [Stage.rank])).imp .inl .inl,
          fun _ _ => .inl (.inr rfl)⟩
      · refine ⟨fun hr => ?_, fun _ hr => ?_⟩
        · exact (ih₂ (by simpa [hne] using hr)).imp .inl .inl
        · exact (ih₅ (by rw [hv]; simp) (by simpa [hne] using hr)).imp .inl id
    | @removeSkip _ c' hs hc =>
      rcases eq_or_ne c c' with rfl | hne
      · exact ⟨fun _ => (ih₂ (by rw [hs]; simp [Stage.rank])).imp .inl .inl,
          fun hv _ => .inr (hc.resolve_right hv)⟩
      · refine ⟨fun hr => ?_, fun hv hr => ?_⟩
        · exact (ih₂ (by simpa [hne] using hr)).imp .inl .inl
        · exact (ih₅ hv (by simpa [hne] using hr)).imp .inl id
    | @callStop _ c' cs hv =>
      refine ⟨fun hr => (ih₂ hr).imp .inl .inl, fun _ hr => ?_⟩
      rcases eq_or_ne c c' with rfl | hne
      · exact .inr (by simp)
      · simpa [hne] using ih₅ (by rw [hv]; simp) hr
    | insertStart hs | insertReturn hs | removeStart hs | removeReturn hs =>
      refine ⟨fun hr => ((other ?_ ?_).1 hr).imp .inl .inl,
        fun hv hr => ((other ?_ ?_).2 hv hr).imp .inl id⟩ <;> rw [hs] <;> simp [Stage.rank]
    | removeTake | stopWin | stopTake | stopStore | stopReturn | stopLose | stopStart
    | bodyReturn | tau =>
      exact ⟨fun hr => (ih₂ hr).imp .inl .inl,
        fun hv hr => (ih₅ (hopen hv) hr).imp .inl id⟩

/-- Who is uncalled and on the list was linked. -/
theorem linked_of_uncalled (h : Run (registry τ κ) Registry.initial tr r) {c : κ}
    (hlo : 2 ≤ (r.stage c).rank) (hc : r.called c = false) : Happened tr (.link c) := by
  refine ((stages_by_linking h c).1 hlo).resolve_right ?_
  rintro ⟨t, hm⟩
  have hz : calls tr c = 0 := by
    rw [calls_eq h, hc]
    rfl
  have := List.countP_eq_zero.mp hz _ hm
  simp [isCall] at this

end StopRegistryLemmas

/-- Until the registry is closed its sequence contains what was linked and
neither unlinked nor called. -/
theorem pending_iff (h : Run (registry τ κ) Registry.initial tr r) (hv : r.view ≠ .closed)
    (c : κ) :
    c ∈ r.view.pending ↔
      Happened tr (.link c) ∧ ¬ Happened tr (.removeStore c) ∧ calls tr c = 0 := by
  have hok := Ok.run h
  obtain ⟨_, h₅⟩ := stages_by_linking h c
  rw [calls_eq h]
  constructor
  · intro hc
    obtain ⟨hl, hcalled⟩ := hok.pending c hc
    obtain ⟨hlo, hhi⟩ := onList_iff_rank.mp hl
    refine ⟨linked_of_uncalled h hlo hcalled, fun hs => ?_, by simp [hcalled]⟩
    have : 5 ≤ (r.stage c).rank := rank_of_happened h hs rfl
    omega
  · rintro ⟨hl, hs, hz⟩
    have hcalled : r.called c = false := by
      cases hc : r.called c with
      | false => rfl
      | true => simp [hc] at hz
    have hlo : 2 ≤ (r.stage c).rank := rank_of_happened h hl rfl
    have hhi : (r.stage c).rank < 5 := by
      by_contra hge
      rcases h₅ hv (by omega) with hs' | hc
      · exact hs hs'
      · simp [hcalled] at hc
    exact (hok.onList c (onList_iff_rank.mpr ⟨hlo, hhi⟩)).resolve_right (by simp [hcalled])

/-- What was inserted is linked or was called by its own `insert()`. -/
theorem linked_or_called (h : Run (registry τ κ) Registry.initial tr r) {c : κ}
    (hi : Happened tr (.insertReturn c)) :
    Happened tr (.link c) ∨ Happened tr (.call .insert c) := by
  have h3 : 3 ≤ (r.stage c).rank := rank_of_happened h hi rfl
  exact (stages_by_linking h c).1 (by omega)

end Kuhllib.InPlaceStopSource
