import Kuhllib.StopToken.InPlaceSimulation

/-!
# Callback delivery of `in_place_stop_source`

Results, for every run of any number of threads:
1. `list_of_run`: wherever the list of callbacks is, it consists of the
   callbacks that were linked and neither unlinked nor called.
2. `delivery`: every callback is called at most once, and when.
-/

namespace Kuhllib.InPlaceStopSource

open Transition Chain

variable {τ κ : Type} [DecidableEq τ] [DecidableEq κ]

/-- Where the list of callbacks starts: at `d_list`, or, while that is the
marker, at a pointer of the operation that set it. `remove()` may have unlinked
its callback already. -/
inductive ListAt (s : State τ κ) : Option (Node κ) → Option κ → Prop
  | shared {n : Node κ} : s.mem.list = some n → n ≠ .marker → ListAt s (some n) none
  | walk {t : τ} {c : κ} {head : Node κ} {node : Option (Node κ)} :
      .removeWalk c head node ∈ s.threads t → ListAt s (some head) none
  | store {t : τ} {c : κ} {head : Option (Node κ)} :
      .removeStore c head ∈ s.threads t → ListAt s head (some c)
  | stop {t : τ} {node : Option (Node κ)} : .stopWalk node ∈ s.threads t → ListAt s node none

/-! ## 1. The list -/

namespace InPlaceDeliveryLemmas

open InPlaceRefinementLemmas InPlaceSimulationLemmas

omit [DecidableEq τ] in
/-- A step leaves the marker in `d_list` only for a frame that holds the list. -/
theorem exec_marker {v : View τ κ} {m : Memory κ} {t : τ} {f : Frame κ} (h : FrameOk v m.next t f)
    (hm : (exec m f).2.1.list = some .marker) :
    (∃ g ∈ (exec m f).2.2, g.holding = true) ∨ (m.list = some .marker ∧ f.holding = false) := by
  cases f with
  | insertLoop c head =>
    cases head with
    | none => exact .inr ⟨hm, rfl⟩
    | some head =>
      simp only [exec] at hm
      split at hm
      · exact .inr ⟨hm, rfl⟩
      · split at hm
        · cases hm
        · exact .inr ⟨hm, rfl⟩
  | removeCheck c =>
    simp only [exec] at hm
    split at hm <;> exact .inr ⟨hm, rfl⟩
  | removeLoop c head =>
    cases head with
    | none => exact .inr ⟨hm, rfl⟩
    | some head =>
      by_cases hmark : head = .marker
      · simp only [exec, if_pos hmark] at hm
        exact .inr ⟨hm, rfl⟩
      · by_cases hl : m.list = some head
        · refine .inl ?_
          simp only [exec, if_neg hmark, if_pos hl]
          split <;> exact ⟨_, List.mem_singleton.mpr rfl, rfl⟩
        · simp only [exec, if_neg hmark, if_neg hl] at hm
          exact .inr ⟨hm, rfl⟩
  | removeWalk c head node =>
    cases node with
    | none => exact .inl ⟨_, List.mem_singleton.mpr rfl, rfl⟩
    | some node =>
      refine .inl ?_
      simp only [exec]
      split <;> exact ⟨_, List.mem_singleton.mpr rfl, rfl⟩
  | removeStore c head =>
    obtain ⟨cs, _, hp⟩ := h
    obtain ⟨n, rfl, hn⟩ := path_nodes_head hp
    cases hm
    exact absurd rfl hn
  | stopExchange =>
    simp only [exec] at hm
    split at hm <;> exact .inr ⟨hm, rfl⟩
  | stopLoop head =>
    cases head with
    | none => exact .inr ⟨hm, rfl⟩
    | some head =>
      by_cases hmark : head = .marker
      · simp only [exec, if_pos hmark] at hm
        exact .inr ⟨hm, rfl⟩
      · by_cases hl : m.list = some head
        · refine .inl ?_
          simp only [exec, if_neg hmark, if_pos hl]
          exact ⟨_, List.mem_singleton.mpr rfl, rfl⟩
        · simp only [exec, if_neg hmark, if_neg hl] at hm
          exact .inr ⟨hm, rfl⟩
  | stopWalk node =>
    cases node with
    | none => cases hm
    | some node =>
      refine .inl ?_
      cases node with
      | callback c => exact ⟨.stopWalk (m.next (.callback c)), by simp [exec], rfl⟩
      | marker | endNode => exact ⟨_, List.mem_singleton.mpr rfl, rfl⟩
  | insertLoad | insertReturn | removeLoad | removeReturn | stopLoad | stopReturn | body =>
    exact .inr ⟨hm, rfl⟩

/-- While `d_list` is the marker some operation holds the list. -/
def Locked (s : State τ κ) : Prop :=
  s.mem.list = some .marker → ∃ t, ∃ f ∈ s.threads t, f.holding = true

theorem locked_step {r : Registry τ κ} {s s' : State τ κ} {l : τ × Event κ} (h : Refines r s)
    (hl : Locked s) (hs : (system τ κ).step s l s') : Locked s' := by
  obtain ⟨t, e⟩ := l
  rcases step_cases hs with ⟨f, fs, hst, rfl, rfl⟩ | ⟨f, _, hst, _⟩
  · intro hm
    rcases exec_marker (frameOk_top h hst) hm with ⟨g, hg, hh⟩ | ⟨hm', hf⟩
    · exact ⟨t, g, by simp [hg], hh⟩
    · obtain ⟨t', g, hg, hh⟩ := hl hm'
      refine ⟨t', g, ?_, hh⟩
      rcases eq_or_ne t' t with rfl | hne
      · rw [hst] at hg
        have hgf : g ≠ f := by
          rintro rfl
          rw [hf] at hh
          cases hh
        simp [(List.mem_cons.mp hg).resolve_left hgf]
      · simpa [hne] using hg
  · obtain rfl : s' = (s.start t e f).2 := congrArg Prod.snd hst
    intro hm
    obtain ⟨t', g, hg, hh⟩ := hl hm
    exact ⟨t', g, Stacks.mem_push.mpr (.inr hg), hh⟩

theorem locked_run {s : State τ κ} {tr : List (τ × Event κ)}
    (h : Run (system τ κ) State.initial tr s) : Locked s := by
  have key : (∃ r : Registry τ κ, Refines r s) ∧ Locked s := by
    refine h.invariant_state (I := fun s => (∃ r : Registry τ κ, Refines r s) ∧ Locked s) ?_ ?_
    · exact ⟨⟨_, refines_initial⟩, fun hm => by cases hm⟩
    · rintro s l s' ⟨⟨r, hr⟩, hl⟩ hs
      obtain ⟨r', _, hr'⟩ := refines_step hr hs
      exact ⟨⟨r', hr'⟩, locked_step hr hl hs⟩
  exact key.2

/-- The list that starts at `p` is the sequence of the registry. -/
theorem listAt_pending {r : Registry τ κ} {s : State τ κ} (h : Refines r s) {p : Option (Node κ)}
    {d : Option κ} (hp : ListAt s p d) :
    r.view ≠ .closed ∧ ∃ cs, (Path s.mem.next p (nodes cs) ∨ p = none ∧ cs = []) ∧ cs.Nodup ∧
      ∀ c, c ∈ cs ↔ c ∈ r.view.pending ∧ d ≠ some c := by
  have nd := h.ok.nodup
  cases hp with
  | shared hl hn =>
    obtain ⟨cs, hv, hp⟩ := opened_of_some h hl hn
    rw [hv] at nd ⊢
    exact ⟨by simp, cs, .inl hp, nd, fun c => by simp [View.pending]⟩
  | walk hf =>
    obtain ⟨cs, _, _, _, hv, _, _, _, hp⟩ := h.frames _ _ hf
    rw [hv] at nd ⊢
    exact ⟨by simp, cs, .inl hp, nd, fun c => by simp [View.pending]⟩
  | @store t c head hf =>
    obtain ⟨cs, hv, hp⟩ := h.frames _ _ hf
    have nd' : cs.Nodup := by rwa [hv] at nd
    rw [hv]
    refine ⟨by simp, cs.erase c, .inl hp, nd'.erase c, fun c' => ?_⟩
    rw [nd'.mem_erase_iff]
    simp [View.pending, and_comm, eq_comm]
  | stop hf =>
    obtain ⟨cs, hv, hp⟩ := h.frames _ _ hf
    rw [hv] at nd ⊢
    exact ⟨by simp, cs, hp.imp id And.symm, nd, fun c => by simp [View.pending]⟩

/-- Until the registry is closed the list is somewhere. -/
theorem exists_listAt {r : Registry τ κ} {s : State τ κ} (h : Refines r s) (hl : Locked s)
    (hv : r.view ≠ .closed) : ∃ p d, ListAt s p d := by
  cases hlist : s.mem.list with
  | none => exact absurd (closed_of_null h hlist) hv
  | some n =>
    by_cases hn : n = .marker
    · obtain ⟨t, f, hf, hh⟩ := hl (by rw [hlist, hn])
      cases f with
      | removeWalk c head node => exact ⟨_, _, .walk hf⟩
      | removeStore c head => exact ⟨_, _, .store hf⟩
      | stopWalk node => exact ⟨_, _, .stop hf⟩
      | _ => cases hh
    · exact ⟨_, _, .shared hlist hn⟩

end InPlaceDeliveryLemmas

open InPlaceDeliveryLemmas

/-- Until the winning `stop()` has emptied the list, it is at some place, and at
whatever place it is, following `d_next` visits every callback that was linked
and neither unlinked nor called exactly once, and then `d_end`. -/
theorem list_of_run {s : State τ κ} {tr : List (τ × Event κ)}
    (h : Run (system τ κ) State.initial tr s) :
    (s.mem.list ≠ none → ∃ p d, ListAt s p d) ∧
    ∀ p d, ListAt s p d →
      ∃ cs, (Path s.mem.next p (nodes cs) ∨ p = none ∧ cs = []) ∧ cs.Nodup ∧
        ∀ c, c ∈ cs ↔ Happened tr (.link c) ∧ ¬ Happened tr (.removeStore c) ∧ calls tr c = 0 ∧
          d ≠ some c := by
  obtain ⟨r, hr, href⟩ := refines_run h
  refine ⟨fun hl => exists_listAt href (locked_run h) fun hv => ?_, fun p d hp => ?_⟩
  · have := href.list
    rw [hv] at this
    exact hl this
  · obtain ⟨hv, cs, hpath, nd, hcs⟩ := listAt_pending href hp
    refine ⟨cs, hpath, nd, fun c => ?_⟩
    rw [hcs c, pending_iff hr hv c, and_assoc, and_assoc]

/-! ## 2. Delivery -/

/-- In every run: (a) each callback is called at most once; (b) a callback whose
`insert()` has returned and whose `remove()` has not started when the winning
`stop()` returns has been called exactly once; (c) a callback whose `insert()`
starts after that is called by it; (d) no callback is called once its
`remove()` has returned; (e) `remove()` unlinks its own node alone: the list
consists of what was linked and neither unlinked nor called, and who is
inserted was linked or called. -/
theorem delivery {s : State τ κ} {tr : List (τ × Event κ)}
    (h : Run (system τ κ) State.initial tr s) :
    (∀ c, calls tr c ≤ 1) ∧
    (∀ tr₁ tr₂ t c, tr = tr₁ ++ (t, .stopReturn true) :: tr₂ → Happened tr₁ (.insertReturn c) →
      ¬ Happened tr₁ (.removeStart c) → calls tr₁ c = 1) ∧
    (∀ tr₁ tr₂ c, tr = tr₁ ++ tr₂ → Happened tr₁ (.stopReturn true) →
      Happened tr₂ (.insertStart c) → Happened tr₂ (.insertReturn c) →
      Happened tr₂ (.call .insert c)) ∧
    (∀ tr₁ tr₂ c, tr = tr₁ ++ tr₂ → Happened tr₁ (.removeReturn c) → calls tr₂ c = 0) ∧
    ((s.mem.list ≠ none → ∃ p d, ListAt s p d) ∧
      (∀ p d, ListAt s p d →
        ∃ cs, (Path s.mem.next p (nodes cs) ∨ p = none ∧ cs = []) ∧ cs.Nodup ∧
          ∀ c, c ∈ cs ↔ Happened tr (.link c) ∧ ¬ Happened tr (.removeStore c) ∧
            calls tr c = 0 ∧ d ≠ some c) ∧
      ∀ c, Happened tr (.insertReturn c) →
        Happened tr (.link c) ∨ Happened tr (.call .insert c)) := by
  obtain ⟨r, hr, href⟩ := refines_run h
  refine ⟨call_once hr, ?_, ?_, ?_, ?_⟩
  · intro tr₁ tr₂ t c he hi hrem
    rw [he, ← List.singleton_append, ← List.append_assoc] at hr
    obtain ⟨r', hr', _⟩ := hr.split
    have hcalls := called_before_stop_returns hr' (c := c) ⟨t, by simp⟩
      (hi.imp fun _ hm => List.mem_append_left _ hm) ?_
    · simpa [calls, isCall] using hcalls
    · rintro ⟨t', hm⟩
      rcases List.mem_append.mp hm with hm | hm
      · exact hrem ⟨t', hm⟩
      · simp at hm
  · intro tr₁ tr₂ c he hs hi hd
    rw [he] at hr
    obtain ⟨r', hr₁, hr₂⟩ := hr.split
    exact called_by_own_insert hr₁ hs hr₂ hi (hd.imp fun _ hm => List.mem_append_right _ hm)
  · intro tr₁ tr₂ c he hrem
    rw [he] at hr
    obtain ⟨r', hr₁, hr₂⟩ := hr.split
    exact no_call_after_remove hr₁ hrem hr₂
  · exact ⟨(list_of_run h).1, (list_of_run h).2, fun c hi => linked_or_called hr hi⟩

/-- Thread `0` inserts the callback `0`, then thread `1` stops the source. -/
theorem delivery_example : ∃ (tr : List (Nat × Event Nat)) (s : State Nat Nat),
    Run (system Nat Nat) State.initial (tr ++ [(1, .stopReturn true)]) s ∧ calls tr 0 = 1 := by
  have hrun : ∃ s, Run (system Nat Nat) State.initial
      ([(0, .insertStart 0), (0, .tau), (0, .link 0), (0, .insertReturn 0), (1, .stopStart),
        (1, .stopWin), (1, .tau), (1, .stopTake), (1, .call .stop 0), (1, .bodyReturn 0), (1, .tau),
        (1, .stopStore)] ++ [(1, .stopReturn true)]) s :=
    run_labels [(0, .insert 0), (0, .run), (0, .run), (0, .run), (1, .stop), (1, .run), (1, .run),
      (1, .run), (1, .run), (1, .run), (1, .run), (1, .run), (1, .run)] rfl
  obtain ⟨s, hs⟩ := hrun
  refine ⟨_, s, hs, (delivery hs).2.1 _ [] 1 0 rfl ⟨0, by decide⟩ ?_⟩
  rintro ⟨t, hm⟩
  simp at hm

end Kuhllib.InPlaceStopSource
