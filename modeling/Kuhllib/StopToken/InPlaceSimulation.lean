import Kuhllib.StopToken.InPlaceRefinement

/-!
# Every run of the code is a run of the registry

Results:
1. `refines_insert`, `refines_remove`, `refines_stop`: a step of each function
   is a move of the registry.
2. `refines_run`: a run of any number of threads is a run of the registry.
-/

namespace Kuhllib.InPlaceStopSource

open Transition Chain Stacks

variable {τ κ : Type} [DecidableEq τ] [DecidableEq κ]

/-- The step of the innermost frame `f` is a move of the registry. -/
def Simulated (r : Registry τ κ) (s : State τ κ) (t : τ) (f : Frame κ) (fs : List (Frame κ)) :
    Prop :=
  ∃ r', Move r (t, (exec s.mem f).1) r' ∧
    Refines r' ⟨(exec s.mem f).2.1, set s.threads t ((exec s.mem f).2.2 ++ fs),
      phaseAfter s.phase (exec s.mem f).1⟩

namespace InPlaceSimulationLemmas

open InPlaceRefinementLemmas

/-! ### Stages and winners by their rank -/

omit [DecidableEq τ] in
theorem stage_of_rank {g g' : Stage τ} (hr : g.rank = g'.rank) (ht : g.thread = g'.thread) :
    g = g' := by
  cases g <;> cases g' <;> simp_all [Stage.rank, Stage.thread]

omit [DecidableEq τ] in
theorem winner_of_rank {w w' : Winner τ} (hr : w.rank = w'.rank) (ht : w.thread = w'.thread) :
    w = w' := by
  cases w <;> cases w' <;> simp_all [Winner.rank, Winner.thread]

omit [DecidableEq τ] in
theorem winner_none {w : Winner τ} (hr : w.rank = 0) : w = .none := by
  cases w <;> simp_all [Winner.rank]

omit [DecidableEq τ] in
theorem roles_single (f : Frame κ) (ρ : Role κ) : roles [f] ρ = if f.role = ρ then 1 else 0 := by
  simp [roles, List.countP_cons]

omit [DecidableEq τ] in
/-- User code plays no role. -/
theorem roles_body (c : κ) (f : Frame κ) (ρ : Role κ) (hρ : ρ ≠ .idle) :
    roles [.body c, f] ρ = if f.role = ρ then 1 else 0 := by
  have hb : (Frame.body c).role ≠ ρ := hρ.symm
  rw [← roles_single f ρ]
  simp [roles, hb]

section Top

variable {r : Registry τ κ} {s : State τ κ} {t : τ} {f : Frame κ} {fs : List (Frame κ)}

theorem stage_top (h : Refines r s) (hst : s.threads t = f :: fs) {c : κ} {g : Stage τ}
    (hf : f.role = .op c g.rank) (ht : g.thread = some t) : r.stage c = g := by
  have hs := stage_of_top h hst hf
  exact stage_of_rank hs.1 (hs.2.trans ht.symm)

theorem winner_top (h : Refines r s) (hst : s.threads t = f :: fs) {w : Winner τ}
    (hf : f.role = .stop w.rank) (ht : w.thread = some t) : r.winner = w := by
  have hs := winner_of_top h hst hf
  exact winner_of_rank hs.1 (hs.2.trans ht.symm)

theorem frameOk_top (h : Refines r s) (hst : s.threads t = f :: fs) :
    FrameOk r.view s.mem.next t f :=
  h.frames t f (by rw [hst]; exact List.mem_cons_self)

omit [DecidableEq τ] [DecidableEq κ] in
theorem mem_of_other (hst : s.threads t = f :: fs) {t' : τ} {g : Frame κ}
    (ho : Other s.threads t fs t' g) : g ∈ s.threads t' := by
  rcases ho with ⟨rfl, hm⟩ | ⟨_, hm⟩
  · rw [hst]
    exact List.mem_cons_of_mem _ hm
  · exact hm

/-- A step that only the frame itself notices. -/
theorem simulated_quiet (h : Refines r s) (hst : s.threads t = f :: fs) {m : Memory κ}
    {gs : List (Frame κ)} (he : exec s.mem f = (.tau, m, gs))
    (hroles : ∀ ρ, ρ ≠ .idle → roles gs ρ = roles [f] ρ)
    (hnew : ∀ g ∈ gs, FrameOk r.view m.next t g)
    (hnext : ∀ n ∈ nodes r.view.pending, m.next n = s.mem.next n)
    (hlist : m.list = s.mem.list)
    (hcalled : ∀ c, m.called (.callback c) = s.mem.called (.callback c))
    (hreq : m.stop_requested = s.mem.stop_requested) : Simulated r s t f fs := by
  unfold Simulated
  rw [he]
  exact ⟨r, .tau, refines_quiet h hst hroles hnew hnext hlist hcalled hreq⟩

/-- A frame takes the place of another one of the same role. -/
theorem simulated_goto (h : Refines r s) (hst : s.threads t = f :: fs) {m : Memory κ} {g : Frame κ}
    (he : exec s.mem f = (.tau, m, [g])) (hg : g.role = f.role)
    (hnew : FrameOk r.view m.next t g)
    (hnext : ∀ n ∈ nodes r.view.pending, m.next n = s.mem.next n)
    (hlist : m.list = s.mem.list)
    (hcalled : ∀ c, m.called (.callback c) = s.mem.called (.callback c))
    (hreq : m.stop_requested = s.mem.stop_requested) : Simulated r s t f fs := by
  refine simulated_quiet h hst he ?_ ?_ hnext hlist hcalled hreq
  · intro ρ _
    rw [roles_single, roles_single, hg]
  · intro g' hg'
    rw [List.mem_singleton] at hg'
    exact hg' ▸ hnew

/-- A step that reads and changes nothing but the frame. -/
theorem simulated_read (h : Refines r s) (hst : s.threads t = f :: fs) {g : Frame κ}
    (he : exec s.mem f = (.tau, s.mem, [g])) (hg : g.role = f.role)
    (hnew : FrameOk r.view s.mem.next t g) : Simulated r s t f fs :=
  simulated_goto h hst he hg hnew (fun _ _ => rfl) rfl (fun _ => rfl) rfl

/-- The new state refines a registry in which the stage of one callback has
advanced. -/
theorem refines_stage (h : Refines r s) (hst : s.threads t = f :: fs) {r' : Registry τ κ} {c : κ}
    {g : Stage τ} {m : Memory κ} {gs : List (Frame κ)} {ρ : Role κ} {ph : κ → Phase}
    (hok : Ok r') (hs : r'.stage = Function.update r.stage c g) (hw : r'.winner = r.winner)
    (hf : f.role = .op c (r.stage c).rank) (hrank : (r.stage c).rank ≠ g.rank)
    (hg : ρ = .idle ∧ g.thread = none ∨ ρ = .op c g.rank ∧ g.thread = some t)
    (hgs : ∀ ρ', ρ' ≠ .idle → roles gs ρ' = if ρ = ρ' then 1 else 0)
    (hnew : ∀ g ∈ gs, FrameOk r'.view m.next t g) (hv : r.view = .closed → r'.view = .closed)
    (hold : ∀ t' g, g.holding = true → Other s.threads t fs t' g → FrameOk r'.view m.next t' g)
    (hlist : ListOk r'.view m) (hcalled : ∀ c, m.called (.callback c) = r'.called c)
    (hreq : m.stop_requested = s.mem.stop_requested)
    (hph : ph = Function.update s.phase c g.phase) :
    Refines r' ⟨m, set s.threads t (gs ++ fs), ph⟩ where
  ok := hok
  counts := by
    have htop := stage_of_top h hst hf
    refine counts_stage h.counts _ _ hs hw hrank (.inr ⟨rfl, htop.2⟩) hg ?_ ?_
    · rcases hg with ⟨rfl, _⟩ | ⟨rfl, _⟩
      · exact fun he => by cases he
      · exact fun he => hrank (by simpa using he)
    · rw [← hf]
      exact roles_set hst hgs
  frames := frames_set h.frames hst hnew hv hold
  list := hlist
  called := hcalled
  requested := by
    rw [hw]
    exact hreq.trans h.requested
  phase c' := by
    rw [hph, hs]
    rcases eq_or_ne c' c with rfl | hne
    · simp
    · simpa [hne] using h.phase c'

/-- The new state refines a registry in which the winner has advanced. -/
theorem refines_winner (h : Refines r s) (hst : s.threads t = f :: fs) {r' : Registry τ κ}
    {m : Memory κ} {gs : List (Frame κ)} {ρ : Role κ} (hok : Ok r')
    (hs : r'.stage = r.stage) (hrank : r.winner.rank ≠ r'.winner.rank)
    (hf : f.role = .idle ∧ r.winner.thread = none ∨
      f.role = .stop r.winner.rank ∧ r.winner.thread = some t)
    (hg : ρ = .idle ∧ r'.winner.thread = none ∨
      ρ = .stop r'.winner.rank ∧ r'.winner.thread = some t) (hne : f.role ≠ ρ)
    (hgs : ∀ ρ', ρ' ≠ .idle → roles gs ρ' = if ρ = ρ' then 1 else 0)
    (hnew : ∀ g ∈ gs, FrameOk r'.view m.next t g) (hv : r.view = .closed → r'.view = .closed)
    (hold : ∀ t' g, g.holding = true → Other s.threads t fs t' g → FrameOk r'.view m.next t' g)
    (hlist : ListOk r'.view m) (hcalled : ∀ c, m.called (.callback c) = r'.called c)
    (hreq : m.stop_requested = decide (r'.winner.rank ≠ 0)) :
    Refines r' ⟨m, set s.threads t (gs ++ fs), s.phase⟩ where
  ok := hok
  counts := counts_winner h.counts hs hrank hf hg hne (roles_set hst hgs)
  frames := frames_set h.frames hst hnew hv hold
  list := hlist
  called := hcalled
  requested := hreq
  phase c := by
    rw [hs]
    exact h.phase c

/-! ### Reading the list -/

omit [DecidableEq κ] in
/-- The first node of a list is a node that `d_list` may point to. -/
theorem path_nodes_head {link : Node κ → Option (Node κ)} {p : Option (Node κ)} {cs : List κ}
    (h : Path link p (nodes cs)) : ∃ n, p = some n ∧ n ≠ .marker := by
  cases cs with
  | nil => exact ⟨.endNode, h.1, fun he => by cases he⟩
  | cons c cs => exact ⟨.callback c, h.1, fun he => by cases he⟩

/-- A frame that has just loaded `d_list`. -/
theorem frameOk_load (h : Refines r s) {c : κ} :
    FrameOk r.view s.mem.next t (.insertLoop c s.mem.list) ∧
      FrameOk r.view s.mem.next t (.removeLoop c s.mem.list) := by
  cases hl : s.mem.list with
  | none => exact ⟨closed_of_null h hl, closed_of_null h hl⟩
  | some _ => exact ⟨trivial, trivial⟩

/-- What a removal that has taken the list knows: its own node is in it. -/
theorem mem_of_removing (h : Refines r s) {c : κ} {cs : List κ} (hs : r.stage c = .removing t)
    (hv : r.view = .opened cs) : c ∈ cs := by
  have hcalled := h.ok.untaken (by rw [hv]; rfl) c
  have := h.ok.onList c (by rw [hs]; rfl)
  rw [hv, hcalled] at this
  simpa [View.pending] using this

omit [DecidableEq τ] in
/-- `removeWalk` or `removeStore`, whatever follows the exchange. -/
theorem frameOk_removeTake {link : Node κ → Option (Node κ)} {c : κ} {cs : List κ} {head : Node κ}
    (hc : c ∈ cs) (hp : Path link (some head) (nodes cs)) :
    FrameOk (.held t c cs) link t
      (if head = .callback c then .removeStore c (link head) else .removeWalk c head (some head)) := by
  split
  · next he =>
    subst he
    cases cs with
    | nil => cases hc
    | cons c' cs =>
      obtain ⟨hhead, hrest⟩ := hp
      cases hhead
      refine ⟨c :: cs, rfl, ?_⟩
      rw [List.erase_cons_head]
      exact hrest
  · next hne =>
    have hm : Node.callback c ∈ nodes cs := mem_nodes.mpr hc
    cases hn : nodes cs with
    | nil => simp [nodes] at hn
    | cons n ys =>
      rw [hn] at hm hp
      obtain rfl : head = n := Option.some.inj hp.1
      refine ⟨cs, [], head, ys, rfl, rfl, hn, ?_, hn ▸ hp⟩
      exact (List.mem_cons.mp hm).resolve_left (Ne.symm hne)

end Top

end InPlaceSimulationLemmas

open InPlaceRefinementLemmas InPlaceSimulationLemmas

section Steps

variable {r : Registry τ κ} {s : State τ κ} {t : τ} {fs : List (Frame κ)}

/-! ## 1. The steps of `insert` -/

theorem refines_insertLoad (h : Refines r s) {c : κ} (hst : s.threads t = .insertLoad c :: fs) :
    Simulated r s t (.insertLoad c) fs :=
  simulated_read h hst rfl rfl (frameOk_load h).1

/-- The cached head is null: the callback is called. -/
theorem refines_insertCall (h : Refines r s) {c : κ}
    (hst : s.threads t = .insertLoop c none :: fs) : Simulated r s t (.insertLoop c none) fs := by
  have hv : r.view = .closed := frameOk_top h hst
  have hs : r.stage c = .inserting t := stage_top h hst rfl rfl
  have hm := Move.callInsert hs hv
  refine ⟨_, hm, ?_⟩
  refine refines_stage (c := c) (ρ := .op c 2) h hst (h.ok.move hm) rfl rfl (by rw [hs]; rfl)
    (by rw [hs]; simp [Stage.rank]) (.inr ⟨rfl, rfl⟩) ?_ ?_ id ?_ ?_ ?_ rfl ?_
  · exact roles_body c (.insertReturn c)
  · simp [exec, FrameOk]
  · intro t' g hg ho
    rw [not_holding h (.inr hv) (mem_of_other hst ho)] at hg
    cases hg
  · have hl := h.list
    rw [hv] at hl
    simp only [hv]
    exact hl
  · intro c'
    rcases eq_or_ne c' c with rfl | hne
    · simp [exec, Memory.call]
    · simpa [exec, Memory.call, hne] using h.called c'
  · have := h.phase c
    rw [hs] at this
    exact (Function.update_eq_self_iff.mpr this.symm).symm

/-- Nothing else holds the list while it is neither held nor drained. -/
theorem other_not_holding (h : Refines r s) {f : Frame κ} (hst : s.threads t = f :: fs)
    (hv : (∃ cs, r.view = .opened cs) ∨ r.view = .closed) {P : τ → Frame κ → Prop} (t' : τ)
    (g : Frame κ) (hg : g.holding = true) (ho : Other s.threads t fs t' g) : P t' g := by
  rw [not_holding h hv (mem_of_other hst ho)] at hg
  cases hg

theorem refines_insertLoop (h : Refines r s) {c : κ} {head : Node κ}
    (hst : s.threads t = .insertLoop c (some head) :: fs) :
    Simulated r s t (.insertLoop c (some head)) fs := by
  have hs : r.stage c = .inserting t := stage_top h hst rfl rfl
  have hc : Node.callback c ∉ nodes r.view.pending := by
    rw [mem_nodes]
    exact h.ok.not_pending (by rw [hs]; rfl)
  have hnext : ∀ n ∈ nodes r.view.pending,
      Function.update s.mem.next (.callback c) (some head) n = s.mem.next n := fun n hn =>
    Function.update_of_ne (by rintro rfl; exact hc hn) _ _
  by_cases hmark : head = .marker
  · have he : exec s.mem (.insertLoop c (some head)) = (.tau,
        { s.mem with next := Function.update s.mem.next (.callback c) (some head) },
        [.insertLoop c (some head)]) := by
      simp only [exec, if_pos hmark]
    exact simulated_goto h hst he rfl trivial hnext rfl (fun _ => rfl) rfl
  · by_cases hl : s.mem.list = some head
    · obtain ⟨cs, hv, hp⟩ := opened_of_some h hl hmark
      have hm := Move.link hs hv
      have he : exec s.mem (.insertLoop c (some head)) = (.link c,
          { s.mem with
            next := Function.update s.mem.next (.callback c) (some head)
            list := some (.callback c) }, [.insertReturn c]) := by
        simp only [exec, if_neg hmark, if_pos hl]
      unfold Simulated
      rw [he]
      refine ⟨_, hm, ?_⟩
      refine refines_stage (c := c) (ρ := .op c 2) h hst (h.ok.move hm) rfl rfl (by rw [hs]; rfl)
        (by rw [hs]; simp [Stage.rank]) (.inr ⟨rfl, rfl⟩) ?_ ?_ ?_
        (other_not_holding h hst (.inl ⟨cs, hv⟩)) ?_ h.called rfl ?_
      · exact fun ρ _ => roles_single (.insertReturn c) ρ
      · simp [FrameOk]
      · rw [hv]
        intro he
        cases he
      · rw [hv] at hc
        exact ⟨.callback c, rfl, by simp, hp.push hc⟩
      · have := h.phase c
        rw [hs] at this
        exact (Function.update_eq_self_iff.mpr this.symm).symm
    · have he : exec s.mem (.insertLoop c (some head)) = (.tau,
          { s.mem with next := Function.update s.mem.next (.callback c) (some head) },
          [.insertLoop c s.mem.list]) := by
        simp only [exec, if_neg hmark, if_neg hl]
      exact simulated_goto h hst he rfl (frameOk_light (frameOk_load h).1 rfl id) hnext rfl
        (fun _ => rfl) rfl

theorem refines_insertReturn (h : Refines r s) {c : κ} (hst : s.threads t = .insertReturn c :: fs) :
    Simulated r s t (.insertReturn c) fs := by
  have hs : r.stage c = .linked t := stage_top h hst rfl rfl
  have hm := Move.insertReturn hs
  refine ⟨_, hm, ?_⟩
  exact refines_stage (c := c) (ρ := .idle) h hst (h.ok.move hm) rfl rfl (by rw [hs]; rfl)
    (by rw [hs]; simp [Stage.rank]) (.inl ⟨rfl, rfl⟩) (fun ρ hρ => by simp [exec, roles, hρ.symm])
    (fun g hg => absurd hg List.not_mem_nil) id
    (fun t' g _ ho => h.frames t' g (mem_of_other hst ho)) h.list h.called rfl rfl

/-! ## 2. The steps of `remove` -/

theorem refines_removeSkip (h : Refines r s) {f : Frame κ} {c : κ} (hst : s.threads t = f :: fs)
    (hf : f.role = .op c 4) (he : exec s.mem f = (.removeSkip c, s.mem, [.removeReturn c]))
    (hskip : r.called c = true ∨ r.view = .closed) : Simulated r s t f fs := by
  have hs : r.stage c = .removing t := stage_top h hst hf rfl
  have hm := Move.removeSkip hs hskip
  unfold Simulated
  rw [he]
  refine ⟨_, hm, ?_⟩
  refine refines_stage (c := c) (ρ := .op c 5) h hst (h.ok.move hm) rfl rfl (by rw [hs]; exact hf)
    (by rw [hs]; simp [Stage.rank]) (.inr ⟨rfl, rfl⟩)
    (fun ρ _ => roles_single (.removeReturn c) ρ) ?_ id
    (fun t' g _ ho => h.frames t' g (mem_of_other hst ho)) h.list h.called rfl ?_
  · simp [FrameOk]
  · have := h.phase c
    rw [hs] at this
    exact (Function.update_eq_self_iff.mpr this.symm).symm

theorem refines_removeCheck (h : Refines r s) {c : κ} (hst : s.threads t = .removeCheck c :: fs) :
    Simulated r s t (.removeCheck c) fs := by
  cases hc : s.mem.called (.callback c) with
  | true =>
    refine refines_removeSkip h hst rfl (by simp [exec, hc]) (.inl ?_)
    rw [← h.called c, hc]
  | false =>
    have he : exec s.mem (.removeCheck c) = (.tau, s.mem, [.removeLoad c]) := by simp [exec, hc]
    exact simulated_read h hst he rfl trivial

theorem refines_removeLoad (h : Refines r s) {c : κ} (hst : s.threads t = .removeLoad c :: fs) :
    Simulated r s t (.removeLoad c) fs :=
  simulated_read h hst rfl rfl (frameOk_load h).2

theorem refines_removeLoop (h : Refines r s) {c : κ} {head : Option (Node κ)}
    (hst : s.threads t = .removeLoop c head :: fs) : Simulated r s t (.removeLoop c head) fs := by
  cases head with
  | none => exact refines_removeSkip h hst rfl rfl (.inr (frameOk_top h hst))
  | some head =>
    by_cases hmark : head = .marker
    · have he : exec s.mem (.removeLoop c (some head)) = (.tau, s.mem, [.removeLoad c]) := by
        simp only [exec, if_pos hmark]
      exact simulated_read h hst he rfl trivial
    · by_cases hl : s.mem.list = some head
      · have hs : r.stage c = .removing t := stage_top h hst rfl rfl
        obtain ⟨cs, hv, hp⟩ := opened_of_some h hl hmark
        have hm := Move.removeTake hs hv
        have he : exec s.mem (.removeLoop c (some head)) = (.removeTake c,
            { s.mem with list := some .marker },
            [if head = .callback c then .removeStore c (s.mem.next head)
              else .removeWalk c head (some head)]) := by
          simp only [exec, if_neg hmark, if_pos hl]
          split <;> rfl
        unfold Simulated
        rw [he]
        refine ⟨_, hm, ?_⟩
        exact {
          ok := h.ok.move hm
          counts := by
            refine counts_same h.counts hst (fun ρ _ => ?_) rfl
            rw [roles_single, roles_single]
            split <;> rfl
          frames := by
            refine frames_set h.frames hst ?_ (by rw [hv]; exact fun he => by cases he)
              (other_not_holding h hst (.inl ⟨cs, hv⟩))
            intro g hg
            rw [List.mem_singleton.mp hg]
            exact frameOk_removeTake (mem_of_removing h hs hv) hp
          list := rfl
          called := h.called
          requested := h.requested
          phase := h.phase }
      · have he : exec s.mem (.removeLoop c (some head)) = (.tau, s.mem, [.removeLoad c]) := by
          simp only [exec, if_neg hmark, if_neg hl]
        exact simulated_read h hst he rfl trivial

/-- The walk finds the predecessor of the node and bypasses the node. -/
theorem refines_removeWalk (h : Refines r s) {c : κ} {head : Node κ} {node : Option (Node κ)}
    (hst : s.threads t = .removeWalk c head node :: fs) :
    Simulated r s t (.removeWalk c head node) fs := by
  obtain ⟨cs, xs, n, ys, hv, rfl, hsplit, hc, hp⟩ := frameOk_top h hst
  have nd : (nodes cs).Nodup := by
    have := h.ok.nodup
    rw [hv] at this
    exact nodes_nodup this
  have hrest : Path s.mem.next (s.mem.next n) ys := (hsplit ▸ hp).suffix
  cases ys with
  | nil => cases hc
  | cons n' ys =>
    obtain ⟨hnext, _⟩ := hrest
    by_cases hcn : n' = .callback c
    · subst hcn
      have he : exec s.mem (.removeWalk c head (some n)) = (.tau,
          { s.mem with next := Function.update s.mem.next n (s.mem.next (.callback c)) },
          [.removeStore c (some head)]) := by
        simp only [exec, if_pos hnext]
      have herase : nodes (cs.erase c) = xs ++ n :: ys := by
        rw [nodes_erase (mem_nodes.mp (by rw [hsplit]; simp)), hsplit]
        rw [hsplit, List.nodup_append] at nd
        have hxs : Node.callback c ∉ xs := fun hm => nd.2.2 _ hm _ (by simp) rfl
        have hn : n ≠ .callback c := by
          rintro rfl
          simp at nd
        rw [List.erase_append_right _ hxs, List.erase_cons_tail (by simpa using hn),
          List.erase_cons_head]
      unfold Simulated
      rw [he]
      refine ⟨r, .tau, ?_⟩
      exact {
        ok := h.ok
        counts := counts_same h.counts hst
          (fun ρ _ => by rw [roles_single, roles_single]; rfl) rfl
        frames := by
          refine frames_set h.frames hst ?_ id fun t' g hg ho => ?_
          · intro g hg
            rw [List.mem_singleton.mp hg]
            refine ⟨cs, hv, ?_⟩
            rw [herase]
            rw [hsplit] at hp nd
            exact hp.unlink nd
          · exact (not_other_holding h hst rfl hg ho).elim
        list := by
          have := h.list
          rw [hv] at this ⊢
          exact this
        called := h.called
        requested := h.requested
        phase := h.phase }
    · have he : exec s.mem (.removeWalk c head (some n)) = (.tau, s.mem,
          [.removeWalk c head (some n')]) := by
        simp [exec, hnext, hcn]
      refine simulated_read h hst he rfl ⟨cs, xs ++ [n], n', ys, hv, rfl, ?_, ?_, hp⟩
      · rw [hsplit, List.append_assoc]
        rfl
      · exact (List.mem_cons.mp hc).resolve_left (Ne.symm hcn)

theorem refines_removeStore (h : Refines r s) {c : κ} {head : Option (Node κ)}
    (hst : s.threads t = .removeStore c head :: fs) : Simulated r s t (.removeStore c head) fs := by
  obtain ⟨cs, hv, hp⟩ := frameOk_top h hst
  have hs : r.stage c = .removing t := stage_top h hst rfl rfl
  have hm := Move.removeStore hs hv
  refine ⟨_, hm, ?_⟩
  refine refines_stage (c := c) (ρ := .op c 5) h hst (h.ok.move hm) rfl rfl (by rw [hs]; rfl)
    (by rw [hs]; simp [Stage.rank]) (.inr ⟨rfl, rfl⟩)
    (fun ρ _ => roles_single (.removeReturn c) ρ) ?_ ?_ ?_ ?_ h.called rfl ?_
  · simp [exec, FrameOk]
  · rw [hv]
    intro he
    cases he
  · exact fun t' g hg ho => (not_other_holding h hst rfl hg ho).elim
  · obtain ⟨n, rfl, hn⟩ := path_nodes_head hp
    exact ⟨n, rfl, hn, hp⟩
  · have := h.phase c
    rw [hs] at this
    exact (Function.update_eq_self_iff.mpr this.symm).symm

theorem refines_removeReturn (h : Refines r s) {c : κ} (hst : s.threads t = .removeReturn c :: fs) :
    Simulated r s t (.removeReturn c) fs := by
  have hs : r.stage c = .unlinked t := stage_top h hst rfl rfl
  have hm := Move.removeReturn hs
  refine ⟨_, hm, ?_⟩
  exact refines_stage (c := c) (ρ := .idle) h hst (h.ok.move hm) rfl rfl (by rw [hs]; rfl)
    (by rw [hs]; simp [Stage.rank]) (.inl ⟨rfl, rfl⟩) (fun ρ hρ => by simp [exec, roles, hρ.symm])
    (fun g hg => absurd hg List.not_mem_nil) id
    (fun t' g _ ho => h.frames t' g (mem_of_other hst ho)) h.list h.called rfl rfl

/-! ## 3. The steps of `stop` -/

theorem refines_stopExchange (h : Refines r s) (hst : s.threads t = .stopExchange :: fs) :
    Simulated r s t .stopExchange fs := by
  cases hreq : s.mem.stop_requested with
  | true =>
    have he : exec s.mem (.stopExchange (κ := κ)) = (.tau, s.mem, [.stopReturn false]) := by
      simp [exec, hreq]
    exact simulated_read h hst he rfl trivial
  | false =>
    have hw : r.winner = .none := by
      have hr := h.requested
      rw [hreq] at hr
      exact winner_none (by simpa using hr)
    have hm := Move.stopWin (t := t) hw
    have he : exec s.mem (.stopExchange (κ := κ)) =
        (.stopWin, { s.mem with stop_requested := true }, [.stopLoad]) := by
      simp [exec, hreq]
    unfold Simulated
    rw [he]
    refine ⟨_, hm, ?_⟩
    refine refines_winner (ρ := .stop 1) h hst (h.ok.move hm) rfl (by rw [hw]; simp [Winner.rank])
      (.inl ⟨rfl, by rw [hw]; rfl⟩) (.inr ⟨rfl, rfl⟩) (fun he => by cases he)
      (fun ρ _ => roles_single .stopLoad ρ) ?_ id
      (fun t' g _ ho => h.frames t' g (mem_of_other hst ho)) h.list h.called rfl
    simp [FrameOk]

/-- While the winner is looking for the list, `d_list` is not null. -/
theorem list_of_seeking (h : Refines r s) (hw : r.winner = .seeking t) : s.mem.list ≠ none := by
  intro hl
  have := h.ok.agree
  rw [hw, closed_of_null h hl] at this
  cases this

theorem refines_stopLoad (h : Refines r s) (hst : s.threads t = .stopLoad :: fs) :
    Simulated r s t .stopLoad fs :=
  simulated_read h hst rfl rfl (list_of_seeking h (winner_top h hst rfl rfl))

theorem refines_stopLoop (h : Refines r s) {head : Option (Node κ)}
    (hst : s.threads t = .stopLoop head :: fs) : Simulated r s t (.stopLoop head) fs := by
  cases head with
  | none => exact absurd rfl (frameOk_top h hst)
  | some head =>
    have hw : r.winner = .seeking t := winner_top h hst rfl rfl
    by_cases hmark : head = .marker
    · have he : exec s.mem (.stopLoop (some head)) = (.tau, s.mem, [.stopLoop (some head)]) := by
        simp only [exec, if_pos hmark]
      exact simulated_read h hst he rfl (fun he => by cases he)
    · by_cases hl : s.mem.list = some head
      · obtain ⟨cs, hv, hp⟩ := opened_of_some h hl hmark
        have hm := Move.stopTake hw hv
        have he : exec s.mem (.stopLoop (some head)) =
            (.stopTake, { s.mem with list := some .marker }, [.stopWalk (some head)]) := by
          simp only [exec, if_neg hmark, if_pos hl]
        unfold Simulated
        rw [he]
        refine ⟨_, hm, ?_⟩
        refine refines_winner (ρ := .stop 2) h hst (h.ok.move hm) rfl
          (by rw [hw]; simp [Winner.rank]) (.inr ⟨by rw [hw]; rfl, by rw [hw]; rfl⟩)
          (.inr ⟨rfl, rfl⟩) (fun he => by cases he) (fun ρ _ => roles_single (.stopWalk _) ρ) ?_ ?_
          (other_not_holding h hst (.inl ⟨cs, hv⟩)) rfl h.called ?_
        · intro g hg
          rw [List.mem_singleton.mp hg]
          exact ⟨cs, rfl, .inl hp⟩
        · rw [hv]
          intro he
          cases he
        · rw [h.requested, hw]
          rfl
      · have he : exec s.mem (.stopLoop (some head)) = (.tau, s.mem, [.stopLoop s.mem.list]) := by
          simp only [exec, if_neg hmark, if_neg hl]
        exact simulated_read h hst he rfl (list_of_seeking h hw)

/-- Who drains the sequence is the winner. -/
theorem winner_of_draining (h : Refines r s) {cs : List κ} (hv : r.view = .draining t cs) :
    r.winner = .draining t := by
  have := h.ok.agree
  rw [hv] at this
  cases hw : r.winner <;> simp_all [Agree, View.untaken]

theorem refines_stopWalk_null (h : Refines r s) (hst : s.threads t = .stopWalk none :: fs) :
    Simulated r s t (.stopWalk none) fs := by
  obtain ⟨cs, hv, hp | ⟨rfl, _⟩⟩ := frameOk_top h hst
  · obtain ⟨_, he, _⟩ := path_nodes_head hp
    cases he
  · have hw := winner_of_draining h hv
    have hm := Move.stopStore hv
    refine ⟨_, hm, ?_⟩
    refine refines_winner (ρ := .stop 3) h hst (h.ok.move hm) rfl
      (by rw [hw]; simp [Winner.rank]) (.inr ⟨by rw [hw]; rfl, by rw [hw]; rfl⟩)
      (.inr ⟨rfl, rfl⟩) (fun he => by cases he) (fun ρ _ => roles_single (.stopReturn true) ρ)
      ?_ (fun _ => rfl) ?_ rfl h.called ?_
    · simp [exec, FrameOk]
    · exact fun t' g hg ho => (not_other_holding h hst rfl hg ho).elim
    · rw [show (exec s.mem (.stopWalk none)).2.1.stop_requested = s.mem.stop_requested from rfl,
        h.requested, hw]
      rfl

theorem refines_stopWalk_call (h : Refines r s) {c : κ}
    (hst : s.threads t = .stopWalk (some (.callback c)) :: fs) :
    Simulated r s t (.stopWalk (some (.callback c))) fs := by
  obtain ⟨cs, hv, hp | ⟨_, he⟩⟩ := frameOk_top h hst
  · cases cs with
    | nil =>
      obtain ⟨he, _⟩ := hp
      cases he
    | cons c' cs =>
      obtain ⟨he, hrest⟩ := hp
      cases he
      have hm := Move.callStop hv
      refine ⟨_, hm, ?_⟩
      exact {
        ok := h.ok.move hm
        counts := by
          refine counts_same h.counts hst (fun ρ hρ => ?_) rfl
          rw [roles_single]
          exact roles_body c (.stopWalk _) ρ hρ
        frames := by
          refine frames_set h.frames hst ?_ (by rw [hv]; exact fun he => by cases he)
            fun t' g hg ho => (not_other_holding h hst rfl hg ho).elim
          intro g hg
          rcases List.mem_cons.mp hg with rfl | hg
          · trivial
          · rw [List.mem_singleton.mp hg]
            exact ⟨cs, rfl, .inl hrest⟩
        list := by
          have := h.list
          rw [hv] at this
          exact this
        called := by
          intro c'
          rcases eq_or_ne c' c with rfl | hne
          · simp [exec, Memory.call]
          · simpa [exec, Memory.call, hne] using h.called c'
        requested := h.requested
        phase := h.phase }
  · cases he

theorem refines_stopWalk_end (h : Refines r s) {node : Node κ} (hn : ∀ c, node ≠ .callback c)
    (hst : s.threads t = .stopWalk (some node) :: fs) :
    Simulated r s t (.stopWalk (some node)) fs := by
  obtain ⟨cs, hv, hp | ⟨_, he⟩⟩ := frameOk_top h hst
  · cases cs with
    | nil =>
      obtain ⟨he, hrest⟩ := hp
      cases he
      have he : exec s.mem (.stopWalk (some .endNode)) =
          (.tau, s.mem.call .endNode, [.stopWalk (s.mem.next .endNode)]) := rfl
      refine simulated_goto h hst he rfl ⟨[], hv, .inr ⟨rfl, hrest⟩⟩ (fun _ _ => rfl) rfl
        (fun c => ?_) rfl
      simp [Memory.call]
    | cons c' cs =>
      obtain ⟨he, _⟩ := hp
      cases he
      exact absurd rfl (hn c')
  · cases he

theorem refines_stopReturn (h : Refines r s) {won : Bool} (hst : s.threads t = .stopReturn won :: fs) :
    Simulated r s t (.stopReturn won) fs := by
  cases won with
  | false =>
    exact ⟨r, .stopLose, refines_quiet h hst (fun ρ hρ => by simp [exec, roles, Frame.role, hρ.symm])
      (fun g hg => absurd hg List.not_mem_nil) (fun _ _ => rfl) rfl (fun _ => rfl) rfl⟩
  | true =>
    have hw : r.winner = .finishing t := winner_top h hst rfl rfl
    have hm := Move.stopReturn hw
    refine ⟨_, hm, ?_⟩
    refine refines_winner (ρ := .idle) h hst (h.ok.move hm) rfl
      (by rw [hw]; simp [Winner.rank]) (.inr ⟨by rw [hw]; rfl, by rw [hw]; rfl⟩)
      (.inl ⟨rfl, rfl⟩) (fun he => by cases he) (fun ρ hρ => by simp [exec, roles, hρ.symm])
      (fun g hg => absurd hg List.not_mem_nil) id
      (fun t' g _ ho => h.frames t' g (mem_of_other hst ho)) h.list h.called ?_
    rw [show (exec s.mem (.stopReturn true)).2.1.stop_requested = s.mem.stop_requested from rfl,
      h.requested, hw]
    rfl

/-! ## 4. Runs -/

theorem refines_exec (h : Refines r s) {f : Frame κ} (hst : s.threads t = f :: fs) :
    Simulated r s t f fs := by
  cases f with
  | insertLoad c => exact refines_insertLoad h hst
  | insertLoop c head =>
    cases head with
    | none => exact refines_insertCall h hst
    | some head => exact refines_insertLoop h hst
  | insertReturn c => exact refines_insertReturn h hst
  | removeCheck c => exact refines_removeCheck h hst
  | removeLoad c => exact refines_removeLoad h hst
  | removeLoop c head => exact refines_removeLoop h hst
  | removeWalk c head node => exact refines_removeWalk h hst
  | removeStore c head => exact refines_removeStore h hst
  | removeReturn c => exact refines_removeReturn h hst
  | stopExchange => exact refines_stopExchange h hst
  | stopLoad => exact refines_stopLoad h hst
  | stopLoop head => exact refines_stopLoop h hst
  | stopWalk node =>
    match node with
    | none => exact refines_stopWalk_null h hst
    | some (.callback c) => exact refines_stopWalk_call h hst
    | some .marker => exact refines_stopWalk_end h (fun c he => by cases he) hst
    | some .endNode => exact refines_stopWalk_end h (fun c he => by cases he) hst
  | stopReturn won => exact refines_stopReturn h hst
  | body c =>
    exact ⟨r, .bodyReturn, refines_quiet h hst (fun ρ hρ => by simp [exec, roles, Frame.role, hρ.symm])
      (fun g hg => absurd hg List.not_mem_nil) (fun _ _ => rfl) rfl (fun _ => rfl) rfl⟩

/-- Pushing a frame that knows nothing about the list. -/
theorem frames_push (h : Refines r s) {g : Frame κ} (hg : ∀ v link, FrameOk v link t g) :
    ∀ t', ∀ f ∈ set s.threads t ([g] ++ s.threads t) t', FrameOk r.view s.mem.next t' f := by
  intro t' f hf
  rcases mem_push.mp hf with ⟨rfl, hm⟩ | hm
  · rw [List.mem_singleton.mp hm]
    exact hg _ _
  · exact h.frames t' f hm

/-- Starting `insert` or `remove`. -/
theorem refines_start (h : Refines r s) {c : κ} {g : Stage τ} {e : Event κ} {f : Frame κ}
    (hm : Move r (t, e) { r with stage := Function.update r.stage c g })
    (hc : (r.stage c).thread = none) (hg : g.thread = some t) (hrank : (r.stage c).rank ≠ g.rank)
    (hf : f.role = .op c g.rank) (hlight : ∀ v link, FrameOk v link t f)
    (he : phaseAfter s.phase e = Function.update s.phase c g.phase) :
    Refines { r with stage := Function.update r.stage c g } (s.start t e f).2 where
  ok := h.ok.move hm
  counts := by
    refine counts_stage h.counts .idle (.op c g.rank) (g := g) (c := c) rfl rfl hrank
      (.inl ⟨rfl, hc⟩) (.inr ⟨rfl, hg⟩) (fun he => by cases he) (fun ρ hρ t' => ?_)
    rw [← hf, State.start, roles_push]
    simp [hρ.symm]
  frames := frames_push h hlight
  list := h.list
  called := h.called
  requested := h.requested
  phase c' := by
    rw [State.start, he]
    rcases eq_or_ne c' c with rfl | hne
    · simp
    · simpa [hne] using h.phase c'

end Steps

/-- One step of the code is one move of the registry. -/
theorem refines_step {r : Registry τ κ} {s s' : State τ κ} {l : τ × Event κ} (h : Refines r s)
    (hs : (system τ κ).step s l s') : ∃ r', (registry τ κ).step r l r' ∧ Refines r' s' := by
  obtain ⟨t, e⟩ := l
  rcases step_cases hs with ⟨f, fs, hst, rfl, rfl⟩ | ⟨f, _, hst, hstart⟩
  · exact refines_exec h hst
  · obtain rfl : s' = (s.start t e f).2 := congrArg Prod.snd hst
    rcases hstart with ⟨c, rfl, rfl, hp⟩ | ⟨c, rfl, rfl, hp⟩ | ⟨rfl, rfl⟩
    · have hc : r.stage c = .fresh := by
        rw [h.phase c] at hp
        cases hs : r.stage c <;> simp_all [Stage.phase]
      refine ⟨_, .insertStart hc, refines_start h (.insertStart hc) ?_ rfl ?_ rfl ?_ rfl⟩
      · rw [hc]
        rfl
      · rw [hc]
        simp [Stage.rank]
      · exact fun _ _ => trivial
    · have hc : r.stage c = .inserted := by
        rw [h.phase c] at hp
        cases hs : r.stage c <;> simp_all [Stage.phase]
      refine ⟨_, .removeStart hc, refines_start h (.removeStart hc) ?_ rfl ?_ rfl ?_ rfl⟩
      · rw [hc]
        rfl
      · rw [hc]
        simp [Stage.rank]
      · exact fun _ _ => trivial
    · refine ⟨r, .stopStart, ?_⟩
      exact {
        ok := h.ok
        counts := fun ρ hρ t' => by
          rw [State.start, roles_push, ← h.counts ρ hρ t']
          simp [Frame.role, hρ.symm]
        frames := frames_push h fun _ _ => trivial
        list := h.list
        called := h.called
        requested := h.requested
        phase := h.phase }

theorem refines_initial : Refines (Registry.initial : Registry τ κ) State.initial where
  ok := Ok.initial
  counts ρ _ t := by
    have ho : (Registry.initial : Registry τ κ).owner ρ = none := by
      cases ρ with
      | op c k => exact ite_self _
      | stop k => exact ite_self _
      | idle => rfl
    rw [ho]
    rfl
  frames _ _ h := absurd h List.not_mem_nil
  list := ⟨.endNode, rfl, by simp, rfl, rfl⟩
  called _ := rfl
  requested := rfl
  phase _ := rfl

/-- Every run of the source is a run of the registry. -/
theorem refines_run {s : State τ κ} {tr : List (τ × Event κ)}
    (h : Run (system τ κ) State.initial tr s) :
    ∃ r, Run (registry τ κ) Registry.initial tr r ∧ Refines r s :=
  h.simulate refines_initial fun _ _ _ _ hr hs => refines_step hr hs

end Kuhllib.InPlaceStopSource
