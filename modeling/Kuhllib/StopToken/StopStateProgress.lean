import Mathlib.Algebra.Ring.Nat
import Mathlib.Algebra.Order.BigOperators.Group.List
import Mathlib.Algebra.Order.Group.Nat
import Kuhllib.StopToken.StopState

/-!
# Progress of `stop_source`

Callbacks are called with `d_busy` set. A `request_stop` in a callback sees the
flag and returns; an `insert` or an `erase` waits for the lock that its own
thread holds.

Results:
1. `decreases`, `returns_alone`: a thread that goes on alone returns.
2. `stays`: an `insert` or an `erase` in a callback never returns.
3. `operations_return`: in runs without these, every thread can return from all
   of its operations.
-/

namespace Kuhllib.StopState

open Stacks Transition StopStateLemmas

variable {κ τ : Type} [DecidableEq κ] [DecidableEq τ]

/-- A `stop_callback` is constructed or destroyed. -/
def Event.starts : Event κ → Bool
  | .insertStart _ | .eraseStart _ => true
  | _ => false

/-- A `stop_callback` is constructed or destroyed outside of all operations. -/
def Outside (s : State τ κ) (l : τ × Event κ) : Prop :=
  l.2.starts = true → s.threads l.1 = []

/-- Waits for the lock to change the list. -/
def Frame.waiting : Frame κ → Bool
  | .insertLock _ | .eraseLock _ => true
  | .insertLink _ | .insertCheck _ | .insertUnlock _ | .insertReturn _ | .eraseUnlink _
  | .eraseUnlock _ | .eraseReturn _ | .requestExchange | .callLock | .callTest | .callPop
  | .callUnlock | .requestReturn _ | .body _ => false

/-- No `insert` or `erase` waits in a callback. -/
structure Calm (s : State τ κ) : Prop where
  inv : Inv s
  waiting : ∀ t f fs, s.threads t = f :: fs → f.waiting = true → fs = []

theorem calm_initial : Calm (State.initial : State τ κ) :=
  ⟨inv_initial, fun _ _ _ hst => nomatch hst⟩

namespace StopStateProgressLemmas

omit [DecidableEq τ] in
/-- A frame waits only if the one it replaces did. -/
theorem exec_waiting (m : Memory κ) (f : Frame κ) :
    ∀ g ∈ (exec m f).2.2, g.waiting = true → f.waiting = true := by
  cases f with
  | insertLock c | eraseLock c | callLock =>
    cases hb : m.d_busy <;> simp [exec, Memory.lock, hb, Frame.waiting]
  | insertCheck c => cases hr : m.d_stop_requested <;> simp [exec, hr, Frame.waiting]
  | requestExchange => cases hr : m.d_stop_requested <;> simp [exec, hr, Frame.waiting]
  | callTest => cases hl : m.d_list <;> simp [exec, hl, Frame.waiting]
  | insertLink c | insertUnlock c | insertReturn c | eraseUnlink c | eraseUnlock c | eraseReturn c
  | callPop | callUnlock | requestReturn won | body c => simp [exec, Frame.waiting]

omit [DecidableEq κ] [DecidableEq τ] in
/-- The frames below the innermost one do not wait. -/
theorem shape_below {f : Frame κ} {fs : List (Frame κ)} (h : Shape (f :: fs)) :
    ∀ g ∈ fs, g.waiting = false := by
  cases h with
  | single hf => simp
  | body hg => rcases hg with rfl | rfl <;> simp [Frame.waiting]
  | nested hf hg => rcases hg with rfl | rfl <;> simp [Frame.waiting]

end StopStateProgressLemmas

open StopStateProgressLemmas

theorem calm_step {s s' : State τ κ} {l : τ × Event κ} (h : Calm s)
    (hs : ((system τ κ).restrict Outside).step s l s') : Calm s' := by
  obtain ⟨t, e⟩ := l
  obtain ⟨hs, hout⟩ := hs
  refine ⟨inv_step h.inv hs, fun t' g gs hst' hg => ?_⟩
  rcases step_cases hs with ⟨f, fs, hst, rfl, rfl⟩ | ⟨hu, f, hstart, he⟩
  · rcases eq_or_ne t' t with rfl | hne
    · simp only [Function.update_self] at hst'
      cases hgs : (exec s.mem f).2.2 with
      | nil =>
        -- the frame below is innermost now
        rw [hgs, List.nil_append] at hst'
        have hshape := h.inv.shape t'
        rw [hst] at hshape
        rw [shape_below hshape g (by rw [hst']; exact List.mem_cons_self)] at hg
        cases hg
      | cons g' gs' =>
        rw [hgs, List.cons_append] at hst'
        obtain ⟨rfl, rfl⟩ := List.cons.inj hst'
        have hwait := exec_waiting s.mem f g' (by rw [hgs]; exact List.mem_cons_self) hg
        rw [h.waiting t' f fs hst hwait, List.append_nil]
        cases f with
        | insertLock c | eraseLock c =>
          cases hb : s.mem.d_busy <;> simp [exec, Memory.lock, hb] at hgs <;> exact hgs.2
        | _ => cases hwait
    · exact h.waiting t' g gs (by simpa [hne] using hst') hg
  · obtain rfl : s' = (s.start t e f).2 := congrArg Prod.snd hstart
    rcases eq_or_ne t' t with rfl | hne
    · simp only [State.start, Function.update_self, List.singleton_append] at hst'
      obtain ⟨rfl, rfl⟩ := List.cons.inj hst'
      rcases he with ⟨c, rfl, -⟩ | ⟨c, rfl, -⟩ | ⟨-, rfl⟩
      · exact hout rfl
      · exact hout rfl
      · cases hg
    · exact h.waiting t' g gs (by simpa [State.start, hne] using hst') hg

/-! ## 1. A thread alone -/

/-- How many steps a frame is away from its return, with `n` callbacks in the list. -/
def cost (n : Nat) : Frame κ → Nat
  | .insertReturn _ | .eraseReturn _ | .requestReturn _ | .body _ => 1
  | .insertUnlock _ | .eraseUnlock _ | .callUnlock => 2
  | .eraseUnlink _ => 3
  | .insertCheck _ | .eraseLock _ => 4
  | .insertLink _ => 5
  | .insertLock _ => 6
  | .callTest => 3 * n + 3
  | .callPop => 3 * (n - 1) + 4
  | .callLock => 3 * n + 4
  | .requestExchange => 3 * n + 5

def State.cost (s : State τ κ) (t : τ) : Nat :=
  ((s.threads t).map (StopState.cost s.mem.d_list.length)).sum

/-- No other thread holds `d_busy`. -/
def Solo (s : State τ κ) (t : τ) : Prop :=
  ∀ t', t' ≠ t → ∀ f ∈ s.threads t', f.holding = false

namespace StopStateProgressLemmas

omit [DecidableEq κ] in
theorem cost_mono {n n' : Nat} (h : n ≤ n') (f : Frame κ) : cost n f ≤ cost n' f := by
  cases f <;> simp only [cost] <;> omega

omit [DecidableEq τ] in
/-- Only `insert` makes the list longer. -/
theorem exec_length (m : Memory κ) (f : Frame κ) :
    (exec m f).2.1.d_list.length ≤ m.d_list.length ∨ ∃ c, f = .insertLink c := by
  cases f with
  | insertLock c | eraseLock c | callLock =>
    cases hb : m.d_busy <;> simp [exec, Memory.lock, hb]
  | insertCheck c => cases hr : m.d_stop_requested <;> simp [exec, hr]
  | requestExchange => cases hr : m.d_stop_requested <;> simp [exec, hr]
  | callTest => cases hl : m.d_list <;> simp [exec, hl]
  | insertLink c => exact .inr ⟨c, rfl⟩
  | eraseUnlink c => exact .inl List.length_erase_le
  | callPop => exact .inl (by simp [exec])
  | insertUnlock c | insertReturn c | eraseUnlock c | eraseReturn c | callUnlock | requestReturn won
  | body c => exact .inl (le_refl _)

omit [DecidableEq τ] in
/-- A step that does not wait for the lock comes closer to the return. -/
theorem exec_cost (m : Memory κ) (f : Frame κ)
    (h : f.waiting = true ∨ f = .callLock → m.d_busy = false) :
    ((exec m f).2.2.map (cost (exec m f).2.1.d_list.length)).sum < cost m.d_list.length f := by
  cases f with
  | insertLock c | eraseLock c =>
    have hb := h (.inl rfl)
    simp [exec, Memory.lock, hb, cost]
  | callLock =>
    have hb := h (.inr rfl)
    simp [exec, Memory.lock, hb, cost]
  | insertCheck c => cases hr : m.d_stop_requested <;> simp [exec, hr, cost]
  | requestExchange =>
    cases hr : m.d_stop_requested <;> simp only [exec, hr, cost] <;> simp [cost]
  | callTest =>
    cases hl : m.d_list with
    | nil => simp [exec, hl, cost]
    | cons c cs =>
      simp only [exec, hl, List.map_cons, List.map_nil, List.sum_cons, List.sum_nil, cost,
        List.length_cons]
      omega
  | callPop =>
    simp only [exec, List.map_cons, List.map_nil, List.sum_cons, List.sum_nil, cost,
      List.length_tail]
    omega
  | insertLink c | insertUnlock c | insertReturn c | eraseUnlink c | eraseUnlock c | eraseReturn c
  | callUnlock | requestReturn won | body c => simp [exec, cost]

omit [DecidableEq τ] in
theorem exec_starts (m : Memory κ) (f : Frame κ) : (exec m f).1.starts = false := by
  cases f with
  | insertLock c | eraseLock c | callLock =>
    cases hb : m.d_busy <;> simp [exec, Memory.lock, hb, Event.starts]
  | insertCheck c => cases hr : m.d_stop_requested <;> simp [exec, hr, Event.starts]
  | requestExchange => cases hr : m.d_stop_requested <;> simp [exec, hr, Event.starts]
  | callTest => cases hl : m.d_list <;> simp [exec, hl, Event.starts]
  | insertLink c | insertUnlock c | insertReturn c | eraseUnlink c | eraseUnlock c | eraseReturn c
  | callPop | callUnlock | requestReturn won | body c => rfl

/-- A thread that waits alone finds the lock free. -/
theorem lock_free {s : State τ κ} {t : τ} {f : Frame κ} {fs : List (Frame κ)} (h : Calm s)
    (hsolo : Solo s t) (hst : s.threads t = f :: fs) (hf : f.waiting = true ∨ f = .callLock) :
    s.mem.d_busy = false := by
  have hfs : fs = [] := by
    rcases hf with hf | rfl
    · exact h.waiting t f fs hst hf
    · have hshape := h.inv.shape t
      rw [hst] at hshape
      cases hshape with
      | single _ => rfl
      | nested hf _ => simp at hf
  obtain ⟨o, ho, hb⟩ := h.inv.busy
  rw [hb]
  cases o with
  | none => rfl
  | some t' =>
    obtain ⟨g, hg, hhold⟩ := ho.exists_mem
    rcases eq_or_ne t' t with rfl | hne
    · rw [hst, hfs, List.mem_singleton] at hg
      subst hg
      rcases hf with hf | rfl
      · cases g <;> cases hf <;> cases hhold
      · cases hhold
    · rw [hsolo t' hne g hg] at hhold
      cases hhold

end StopStateProgressLemmas

/-- The next step of a thread that is alone brings it closer to its return. -/
theorem decreases {s : State τ κ} {t : τ} (h : Calm s) (hsolo : Solo s t)
    (hne : s.threads t ≠ []) :
    ∃ l s', ((system τ κ).restrict Outside).step s l s' ∧ s'.cost t < s.cost t ∧
      ∀ t', t' ≠ t → s'.threads t' = s.threads t' := by
  obtain ⟨f, fs, hst⟩ := List.exists_cons_of_ne_nil hne
  have hstep : next s t .run = some ((exec s.mem f).1, ⟨(exec s.mem f).2.1,
      set s.threads t ((exec s.mem f).2.2 ++ fs), phaseAfter s.phase t (exec s.mem f).1⟩) := by
    simp only [next, hst]
  refine ⟨(t, (exec s.mem f).1), _, ⟨⟨.run, hstep⟩, ?_⟩, ?_, fun t' ht' => by simp [ht']⟩
  · intro hstarts
    rw [exec_starts] at hstarts
    cases hstarts
  · have hcost := exec_cost s.mem f (lock_free h hsolo hst)
    have hbelow : (fs.map (cost (exec s.mem f).2.1.d_list.length)).sum ≤
        (fs.map (cost s.mem.d_list.length)).sum := by
      rcases exec_length s.mem f with hlen | ⟨c, rfl⟩
      · exact List.sum_le_sum fun g _ => cost_mono hlen g
      · have hshape := h.inv.shape t
        rw [hst] at hshape
        cases hshape with
        | single _ => exact le_refl _
        | nested hf _ => simp at hf
    simp only [State.cost, hst, Function.update_self, List.map_append, List.map_cons,
      List.sum_append, List.sum_cons]
    exact Nat.add_lt_add_of_lt_of_le hcost hbelow

/-- A thread that goes on alone returns from everything. -/
theorem returns_alone {s : State τ κ} {t : τ} (h : Calm s) (hsolo : Solo s t) :
    ∃ s', Reaches ((system τ κ).restrict Outside) s s' ∧ Calm s' ∧ s'.threads t = [] ∧
      ∀ t', t' ≠ t → s'.threads t' = s.threads t' := by
  induction hn : s.cost t using Nat.strong_induction_on generalizing s with
  | _ n ih =>
    by_cases hne : s.threads t = []
    · exact ⟨s, .refl s, h, hne, fun _ _ => rfl⟩
    · obtain ⟨l, s₁, hs, hlt, hframe⟩ := decreases h hsolo hne
      have hsolo₁ : Solo s₁ t := fun t' ht' f hf => hsolo t' ht' f (by rwa [← hframe t' ht'])
      obtain ⟨s', hr, hcalm, hst, hframe'⟩ := ih _ (hn ▸ hlt) (calm_step h hs) hsolo₁ rfl
      exact ⟨s', .head hs hr, hcalm, hst, fun t' ht' => (hframe' t' ht').trans (hframe t' ht')⟩

/-! ## 2. Operations in callbacks -/

/-- An `insert` or an `erase` in a callback waits forever. -/
theorem stays {s s' : State τ κ} {t : τ} {f : Frame κ} {fs : List (Frame κ)}
    {tr : List (τ × Event κ)} (h : Run (system τ κ) s tr s') (hi : Inv s)
    (hst : s.threads t = f :: fs) (hf : f.waiting = true) (hfs : fs ≠ []) :
    s'.threads t = f :: fs := by
  refine (h.invariant_state (I := fun s => Inv s ∧ s.threads t = f :: fs) ⟨hi, hst⟩ ?_).2
  rintro s ⟨t', e⟩ s' ⟨hi, hst⟩ hs
  refine ⟨inv_step hi hs, ?_⟩
  rcases eq_or_ne t' t with rfl | hne
  · -- the frame of the call holds the lock
    have hbusy : s.mem.d_busy = true := by
      have hshape := hi.shape t'
      rw [hst] at hshape
      obtain ⟨o, ho, hb⟩ := hi.busy
      cases hshape with
      | single _ => exact absurd rfl hfs
      | body hg => cases hf
      | @nested _ g c _ hg =>
        have hholding : g.holding = true := by rcases hg with rfl | rfl <;> rfl
        rw [hb, ho.owner (by rw [hst]; simp) hholding]
        rfl
    rcases step_cases hs with ⟨f', fs', hst', rfl, rfl⟩ | ⟨hu, -⟩
    · rw [hst] at hst'
      obtain ⟨rfl, rfl⟩ := List.cons.inj hst'
      cases f with
      | insertLock c | eraseLock c => simp [exec, Memory.lock, hbusy]
      | _ => cases hf
    · rw [hst] at hu
      cases f <;> cases hf <;> cases hu
  · rcases step_cases hs with ⟨f', fs', hst', rfl, rfl⟩ | ⟨-, f', hstart, -⟩
    · simpa [Ne.symm hne] using hst
    · obtain rfl : s' = (s.start t' e f').2 := congrArg Prod.snd hstart
      simpa [State.start, Ne.symm hne] using hst

/-! ## 3. Progress -/

/-- In every run in which callbacks construct and destroy no `stop_callback`, every
thread can return from all of its operations: first the thread that holds `d_busy`
returns, then the other one goes on alone. And where a callback does construct or
destroy one, its thread never returns. -/
theorem operations_return {s : State τ κ} {tr : List (τ × Event κ)}
    (h : Run ((system τ κ).restrict Outside) State.initial tr s) :
    (∀ t, ∃ s', Reaches ((system τ κ).restrict Outside) s s' ∧ s'.threads t = []) ∧
    ∀ l s₁, (system τ κ).step s l s₁ → ¬ Outside s l →
      ∀ s', Reaches (system τ κ) s₁ s' → s'.threads l.1 ≠ [] := by
  have hcalm : Calm s := h.invariant_state calm_initial fun _ _ _ => calm_step
  constructor
  · intro t
    obtain ⟨o, ho, -⟩ := hcalm.inv.busy
    have hfree : ∀ t', o ≠ some t' → ∀ f ∈ s.threads t', f.holding = false := by
      intro t' hne f hf
      by_contra hhold
      exact hne (ho.owner hf (by simpa using hhold))
    by_cases hmine : o = none ∨ o = some t
    · obtain ⟨s', hr, -, hst, -⟩ := returns_alone hcalm (t := t) fun t' ht' =>
        hfree t' (by rcases hmine with rfl | rfl <;> simp [Ne.symm ht'])
      exact ⟨s', hr, hst⟩
    · obtain ⟨t', rfl⟩ := Option.ne_none_iff_exists'.mp fun hn => hmine (.inl hn)
      obtain ⟨s₁, hr₁, hcalm₁, hst₁, hframe⟩ := returns_alone hcalm (t := t') fun t'' ht'' =>
        hfree t'' (by simp [Ne.symm ht''])
      obtain ⟨s', hr, -, hst, -⟩ := returns_alone hcalm₁ (t := t) fun t'' _ f hf => by
        rcases eq_or_ne t'' t' with rfl | hne
        · rw [hst₁] at hf
          cases hf
        · exact hfree t'' (by simp [Ne.symm hne]) f (by rwa [← hframe t'' hne])
      exact ⟨s', hr₁.trans hr, hst⟩
  · rintro ⟨t, e⟩ s₁ hs hout s' ⟨tr', hr⟩
    simp only [Outside, Classical.not_imp] at hout
    obtain ⟨he, hne⟩ := hout
    rcases step_cases hs with ⟨f, fs, hst, rfl, rfl⟩ | ⟨-, f, hstart, hf⟩
    · rw [exec_starts] at he
      cases he
    · obtain rfl : s₁ = (s.start t e f).2 := congrArg Prod.snd hstart
      have hwait : f.waiting = true := by
        rcases hf with ⟨c', -, rfl, -⟩ | ⟨c', -, rfl, -⟩ | ⟨rfl, -⟩
        · rfl
        · rfl
        · cases he
      rw [stays hr (inv_step hcalm.inv hs) (by simp [State.start]) hwait hne]
      exact List.cons_ne_nil _ _

/-- Thread `0` has started to register callback `0`. -/
def exStart : State Nat Nat := (State.initial.start 0 (.insertStart 0) (.insertLock 0)).2

/-- It does, then thread `1` requests the stop and calls the callback. -/
def exCalled : List (Nat × Choice Nat) :=
  List.replicate 5 (0, .run) ++ [(1, .request_stop)] ++ List.replicate 3 (1, .run)

/-- The callback requests the stop once more. -/
theorem operations_return_example :
    ∃ s : State Nat Nat, s.threads 1 = [.requestExchange, .body 0, .callPop] ∧
      ∃ s', Reaches ((system Nat Nat).restrict Outside) s s' ∧ s'.threads 1 = [] := by
  have hno : ∀ e ∈ ((run exStart (exCalled ++ [(1, .request_stop)])).get rfl).1,
      e.2.starts = false := by decide
  have hrun : Run ((system Nat Nat).restrict Outside) State.initial
      ((0, .insertStart 0) :: ((run exStart (exCalled ++ [(1, .request_stop)])).get rfl).1)
      ((run exStart (exCalled ++ [(1, .request_stop)])).get rfl).2 := by
    refine Run.cons ⟨⟨.insert 0, rfl⟩, fun _ => rfl⟩ ((run_play _ rfl).restrict ?_)
    intro e he s hstarts
    rw [hno e he] at hstarts
    cases hstarts
  exact ⟨_, rfl, (operations_return hrun).1 1⟩

/-- The callback constructs another `stop_callback`. -/
theorem callback_waits_forever :
    ¬ ∀ (tr : List (Nat × Event Nat)) (s : State Nat Nat),
      Run (system Nat Nat) State.initial tr s →
      ∀ t, ∃ s', Reaches (system Nat Nat) s s' ∧ s'.threads t = [] := by
  intro h
  have hrun : Run (system Nat Nat) State.initial
      ((0, .insertStart 0) :: ((run exStart (exCalled ++ [(1, .insert 1)])).get rfl).1)
      ((run exStart (exCalled ++ [(1, .insert 1)])).get rfl).2 :=
    Run.cons ⟨.insert 0, rfl⟩ (run_play _ rfl)
  obtain ⟨s', ⟨tr, hr⟩, hst⟩ := h _ _ hrun 1
  have hstays : s'.threads 1 = [.insertLock 1, .body 0, .callPop] :=
    stays hr (inv_run hrun) rfl rfl (by simp)
  rw [hst] at hstays
  cases hstays

end Kuhllib.StopState
