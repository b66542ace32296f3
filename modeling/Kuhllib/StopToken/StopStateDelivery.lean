import Kuhllib.Container.IntrusiveList
import Kuhllib.StopToken.StopState

/-!
# Callback delivery of `stop_source`

`request_stop` sets the flag before it locks the list. An `insert` that comes in
between calls its callback and leaves it in the list, where `call()` finds it.

Results:
1. `listed_step`, `refines_list`: `d_list` is used as an intrusive list may be
   used, in every run.
2. `delivered_step`, `callbacks_called_once`: every callback is called once, in runs without
   such an `insert`.
-/

namespace Kuhllib.StopState

open Stacks Transition StopStateLemmas

variable {κ τ : Type} [DecidableEq κ] [DecidableEq τ]

def State.Has (s : State τ κ) (f : Frame κ) : Prop := ∃ t, f ∈ s.threads t

def Event.linked : Event κ → Option κ
  | .link c => some c
  | _ => none

def Event.called : Event κ → Option κ
  | .call _ c => some c
  | _ => none

/-- The callbacks that were put into the list. -/
def linked (tr : List (τ × Event κ)) : List κ := tr.filterMap fun l => l.2.linked

/-- How often a callback was called. -/
def calls (tr : List (τ × Event κ)) (c : κ) : Nat := (tr.filterMap fun l => l.2.called).count c

namespace StopStateDeliveryLemmas

omit [DecidableEq κ] [DecidableEq τ] in
@[simp]
theorem linked_snoc (tr : List (τ × Event κ)) (l : τ × Event κ) :
    linked (tr ++ [l]) = linked tr ++ l.2.linked.toList := by
  simp only [linked, List.filterMap_append]
  cases h : l.2.linked <;> simp [h]

omit [DecidableEq τ] in
@[simp]
theorem calls_snoc (tr : List (τ × Event κ)) (l : τ × Event κ) (c : κ) :
    calls (tr ++ [l]) c = calls tr c + (if l.2.called = some c then 1 else 0) := by
  simp only [calls, List.filterMap_append, List.count_append]
  cases h : l.2.called with
  | none => simp [h]
  | some c' => simp [h, List.count_singleton]

/-- What the step of a thread does to the memory, the phases and the frames of all
threads. -/
structure Moved (t : τ) (s s' : State τ κ) (f : Frame κ) : Prop where
  mem : s'.mem = (exec s.mem f).2.1
  phase : ∀ c, s'.phase c = phaseAfter s.phase t (exec s.mem f).1 c
  inserting : ∀ c, f.inserts = some c → s.phase c = .inserting t
  erasing : ∀ c, f.erases = some c → s.phase c = .erasing t
  requested : f.winning = true → s.mem.d_stop_requested = true
  has : s.Has f
  old : ∀ g, s'.Has g → g ∈ (exec s.mem f).2.2 ∨ s.Has g
  new : ∀ g ∈ (exec s.mem f).2.2, s'.Has g
  keep : ∀ g, s.Has g → g ≠ f → s'.Has g
  holding : f.holding = true → ∀ g, s'.Has g → g.holding = true → g ∈ (exec s.mem f).2.2
  winning : f.winning = true → ∀ g, s'.Has g → g.winning = true → g ∈ (exec s.mem f).2.2
  on : ∀ c, f.isOn c = true → ∀ g, s'.Has g → g.isOn c = true → g ∈ (exec s.mem f).2.2

theorem moved_exec {s : State τ κ} {t : τ} {f : Frame κ} {fs : List (Frame κ)} (h : Inv s)
    (hst : s.threads t = f :: fs) :
    Moved t s ⟨(exec s.mem f).2.1, set s.threads t ((exec s.mem f).2.2 ++ fs),
      phaseAfter s.phase t (exec s.mem f).1⟩ f := by
  have hf : f ∈ s.threads t := by rw [hst]; exact List.mem_cons_self
  have hsole : ∀ {P : Frame κ → Bool} {o : Option τ}, Sole P s.threads o → P f = true →
      ∀ t' g, g ∈ set s.threads t ((exec s.mem f).2.2 ++ fs) t' → P g = true →
        g ∈ (exec s.mem f).2.2 := by
    intro P o ho hP t' g hg hPg
    rcases mem_set hg with ⟨-, hg'⟩ | ⟨rfl, hg'⟩ | ⟨hne, hg'⟩
    · exact hg'
    · rw [ho.below hst hP g hg'] at hPg
      cases hPg
    · have howner := ho.owner hg' hPg
      rw [ho.owner hf hP] at howner
      exact absurd (Option.some.inj howner).symm hne
  obtain ⟨o, ho, -⟩ := h.busy
  obtain ⟨o', ho', hr⟩ := h.winner
  refine ⟨rfl, fun _ => rfl, h.inserts t f hf, h.erases t f hf,
    fun hP => hr (by simp [ho'.owner hf hP]), ⟨t, hf⟩, ?_, fun g hg => ?_, ?_,
    fun hP g hg => hg.elim (hsole ho hP · g), fun hP g hg => hg.elim (hsole ho' hP · g),
    fun c hP g hg => hg.elim (hsole (h.on c) hP · g)⟩
  · rintro g ⟨t', hg⟩
    exact (mem_exec hst hg).imp And.right fun hg => ⟨t', hg⟩
  · exact ⟨t, by simpa using List.mem_append_left fs hg⟩
  · rintro g ⟨t', hg⟩ hne
    rcases eq_or_ne t' t with rfl | ht
    · rw [hst] at hg
      have : g ∈ fs := (List.mem_cons.mp hg).resolve_left hne
      exact ⟨t', by simpa using List.mem_append_right _ this⟩
    · exact ⟨t', by simpa [ht] using hg⟩

/-- What the start of an operation does to them. -/
structure Started (t : τ) (s s' : State τ κ) (e : Event κ) (f : Frame κ) : Prop where
  mem : s'.mem = s.mem
  phase : ∀ c, s'.phase c = phaseAfter s.phase t e c
  has : ∀ g, s'.Has g ↔ g = f ∨ s.Has g
  start : (∃ c, e = .insertStart c ∧ f = .insertLock c ∧ s.phase c = .fresh) ∨
    (∃ c, e = .eraseStart c ∧ f = .eraseLock c ∧ s.phase c = .inserted) ∨
    (e = .requestStart ∧ f = .requestExchange)

/-- A step runs a frame or starts an operation. -/
theorem moved_step {s s' : State τ κ} {t : τ} {e : Event κ} (h : Inv s)
    (hs : (system τ κ).step s (t, e) s') :
    (∃ f, e = (exec s.mem f).1 ∧ Moved t s s' f) ∨ ∃ f, Started t s s' e f := by
  rcases step_cases hs with ⟨f, fs, hst, rfl, rfl⟩ | ⟨-, f, hstart, he⟩
  · exact .inl ⟨f, rfl, moved_exec h hst⟩
  · obtain rfl : s' = (s.start t e f).2 := congrArg Prod.snd hstart
    refine .inr ⟨f, rfl, fun _ => rfl, fun g => ?_, he⟩
    simp only [State.Has, State.start, mem_push, List.mem_singleton]
    constructor
    · rintro ⟨t', hg⟩
      exact hg.imp And.right fun hg => ⟨t', hg⟩
    · rintro (hg | ⟨t', hg⟩)
      · exact ⟨t, .inl ⟨rfl, hg⟩⟩
      · exact ⟨t', .inr hg⟩

end StopStateDeliveryLemmas

open StopStateDeliveryLemmas

/-! ## 1. The list -/

/-- Whether the callback of a frame was put into the list, and not taken out. -/
def Frame.side : Frame κ → Option (κ × Bool)
  | .insertLock c | .insertLink c => some (c, false)
  | .insertCheck c | .insertUnlock c | .insertReturn c | .eraseLock c | .eraseUnlink c =>
    some (c, true)
  | .eraseUnlock _ | .eraseReturn _ | .requestExchange | .callLock | .callTest | .callPop
  | .callUnlock | .requestReturn _ | .body _ => none

/-- What is in the list, where `cs` were put into it. -/
structure Listed (cs : List κ) (s : State τ κ) : Prop where
  nodup : s.mem.d_list.Nodup
  sub : ∀ c ∈ s.mem.d_list, c ∈ cs
  fresh : ∀ c, s.phase c = .fresh → c ∉ cs
  before : ∀ c g, s.Has g → g.side = some (c, false) → c ∉ cs
  inserted : ∀ c, s.phase c = .inserted → c ∈ cs
  behind : ∀ c g, s.Has g → g.side = some (c, true) → c ∈ cs
  front : s.Has .callPop → s.mem.d_list ≠ []

omit [DecidableEq κ] [DecidableEq τ] in
theorem listed_initial : Listed [] (State.initial : State τ κ) where
  nodup := List.nodup_nil
  sub _ h := absurd h List.not_mem_nil
  fresh _ _ := List.not_mem_nil
  before _ _ _ _ := List.not_mem_nil
  inserted _ h := by cases h
  behind _ _ h := by simp [State.initial, State.Has] at h
  front h := by simp [State.initial, State.Has] at h

namespace StopStateDeliveryLemmas

omit [DecidableEq τ]

variable {tr : List (τ × Event κ)} {s s' : State τ κ} {t : τ} {f : Frame κ}

theorem phaseAfter_fresh {ph : κ → Phase τ} {e : Event κ} {c : κ}
    (h : phaseAfter ph t e c = .fresh) : ph c = .fresh := by
  cases e with
  | insertStart c' | insertReturn c' | eraseStart c' | eraseReturn c' =>
    rcases eq_or_ne c c' with rfl | hne
    · simp [phaseAfter] at h
    · simpa [phaseAfter, hne] using h
  | _ => exact h

/-- A frame that does not link stays on its side, and the list gets no longer. -/
theorem exec_side (m : Memory κ) (hf : ∀ c, f ≠ .insertLink c) :
    (exec m f).1.linked = none ∧ (exec m f).2.1.d_list.Sublist m.d_list ∧
      ∀ g ∈ (exec m f).2.2, g.side = none ∨ g.side = f.side := by
  cases f with
  | insertLink c => exact absurd rfl (hf c)
  | insertLock c | eraseLock c | callLock =>
    cases hb : m.d_busy <;> simp [exec, Memory.lock, hb, Event.linked, Frame.side]
  | insertCheck c | requestExchange =>
    cases hr : m.d_stop_requested <;> simp [exec, hr, Event.linked, Frame.side]
  | callTest => cases hl : m.d_list <;> simp [exec, hl, Event.linked, Frame.side]
  | eraseUnlink c => simp [exec, Event.linked, Frame.side, List.erase_sublist]
  | callPop => simp [exec, Event.linked, Frame.side, List.tail_sublist]
  | insertUnlock c | insertReturn c | eraseUnlock c | eraseReturn c | callUnlock
  | requestReturn won | body c => simp [exec, Event.linked, Frame.side]

/-- The front of the list stays while it is called. -/
theorem exec_front (m : Memory κ) (hm : f = .callPop → m.d_list ≠ []) :
    (Frame.callPop ∈ (exec m f).2.2 → (exec m f).2.1.d_list ≠ []) ∧
      ((exec m f).2.1.d_list = m.d_list ∨ f.holding = true) := by
  cases f with
  | insertLock c | eraseLock c | callLock =>
    cases hb : m.d_busy <;> simp [exec, Memory.lock, hb]
  | insertCheck c | requestExchange =>
    cases hr : m.d_stop_requested <;> simp [exec, hr]
  | callTest => cases hl : m.d_list <;> simp [exec, hl]
  | insertLink c | insertUnlock c | insertReturn c | eraseUnlink c | eraseUnlock c | eraseReturn c
  | callPop | callUnlock | requestReturn won | body c => simp [exec, Frame.holding]

theorem phaseAfter_inserted {ph : κ → Phase τ} (m : Memory κ) {c : κ}
    (h : phaseAfter ph t (exec m f).1 c = .inserted) : ph c = .inserted ∨ f = .insertReturn c := by
  cases f with
  | insertReturn c' =>
    rcases eq_or_ne c c' with rfl | hne
    · exact .inr rfl
    · exact .inl (by simpa [exec, phaseAfter, hne] using h)
  | eraseReturn c' =>
    rcases eq_or_ne c c' with rfl | hne
    · simp [exec, phaseAfter] at h
    · exact .inl (by simpa [exec, phaseAfter, hne] using h)
  | insertLock c' | eraseLock c' | callLock =>
    cases hb : m.d_busy <;> exact .inl (by simpa [exec, Memory.lock, hb, phaseAfter] using h)
  | insertCheck c' | requestExchange =>
    cases hr : m.d_stop_requested <;> exact .inl (by simpa [exec, hr, phaseAfter] using h)
  | callTest => cases hl : m.d_list <;> exact .inl (by simpa [exec, hl, phaseAfter] using h)
  | insertLink c' | insertUnlock c' | eraseUnlink c' | eraseUnlock c' | callPop | callUnlock
  | requestReturn won | body c' => exact .inl (by simpa [exec, phaseAfter] using h)

theorem side_isOn {g : Frame κ} {c : κ} {b : Bool} (h : g.side = some (c, b)) :
    g.isOn c = true := by
  have hop : g.inserts = some c ∨ g.erases = some c := by
    cases g <;> cases h <;> first | exact .inl rfl | exact .inr rfl
  exact hop.elim inserts_isOn erases_isOn

/-- A callback is put into the list. -/
theorem listed_link {c : κ} (hl : Listed (linked tr) s) (hm : Moved t s s' (.insertLink c)) :
    Listed (linked (tr ++ [(t, (exec s.mem (.insertLink c)).1)])) s' := by
  have hnew : c ∉ linked tr := hl.before c _ hm.has rfl
  have hlist : s'.mem.d_list = s.mem.d_list ++ [c] := by rw [hm.mem]; rfl
  have hphase : ∀ c', s'.phase c' = s.phase c' := hm.phase
  have hlinked : linked (tr ++ [(t, (exec s.mem (.insertLink c)).1)]) = linked tr ++ [c] :=
    linked_snoc ..
  -- the thread of `c` is the one that links
  have hc : s.phase c = .inserting t := hm.inserting c rfl
  have hold : ∀ g, s'.Has g → g = .insertCheck c ∨ s.Has g := fun g hg =>
    (hm.old g hg).imp List.mem_singleton.mp id
  rw [hlinked]
  refine ⟨?_, fun c' hc' => ?_, fun c' hp => ?_, fun c' g hg hside => ?_, fun c' hp => ?_,
    fun c' g hg hside => ?_, fun _ => by simp [hlist]⟩
  · rw [hlist]
    exact hl.nodup.append (List.nodup_singleton c)
      (List.disjoint_singleton.mpr fun hmem => hnew (hl.sub c hmem))
  · rw [hlist, List.mem_append] at hc'
    exact List.mem_append.mpr (hc'.imp (hl.sub c') id)
  · rw [hphase] at hp
    refine fun hmem => (List.mem_append.mp hmem).elim (hl.fresh c' hp) fun he => ?_
    rw [List.mem_singleton.mp he, hc] at hp
    cases hp
  · refine fun hmem => (List.mem_append.mp hmem).elim ?_ fun he => ?_
    · rcases hold g hg with rfl | hg'
      · cases hside
      · exact hl.before c' g hg' hside
    · rw [List.mem_singleton.mp he] at hside
      rw [List.mem_singleton.mp (hm.on c (inserts_isOn rfl) g hg (side_isOn hside))] at hside
      cases hside
  · rw [hphase] at hp
    exact List.mem_append_left _ (hl.inserted c' hp)
  · rcases hold g hg with rfl | hg'
    · cases hside
      exact List.mem_append_right _ (List.mem_singleton_self _)
    · exact List.mem_append_left _ (hl.behind c' g hg' hside)

/-- A frame takes a step. -/
theorem listed_exec (hl : Listed (linked tr) s) (hm : Moved t s s' f) :
    Listed (linked (tr ++ [(t, (exec s.mem f).1)])) s' := by
  by_cases hf : ∃ c, f = .insertLink c
  · obtain ⟨c, rfl⟩ := hf
    exact listed_link hl hm
  obtain ⟨hlinked, hlist, hside⟩ := exec_side s.mem (not_exists.mp hf)
  have hsame : linked (tr ++ [(t, (exec s.mem f).1)]) = linked tr := by simp [hlinked]
  rw [← hm.mem] at hlist
  have hold : ∀ c b g, s'.Has g → g.side = some (c, b) → ∃ g, s.Has g ∧ g.side = some (c, b) := by
    intro c b g hg hgs
    rcases hm.old g hg with hg' | hg'
    · rcases hside g hg' with he | he
      · rw [he] at hgs
        cases hgs
      · exact ⟨f, hm.has, he ▸ hgs⟩
    · exact ⟨g, hg', hgs⟩
  rw [hsame]
  refine ⟨hl.nodup.sublist hlist, fun c hc => hl.sub c (hlist.subset hc), fun c hp => ?_,
    fun c g hg hgs => ?_, fun c hp => ?_, fun c g hg hgs => ?_, fun hpop => ?_⟩
  · rw [hm.phase] at hp
    exact hl.fresh c (phaseAfter_fresh hp)
  · obtain ⟨g', hg', hgs'⟩ := hold c _ g hg hgs
    exact hl.before c g' hg' hgs'
  · rw [hm.phase] at hp
    rcases phaseAfter_inserted s.mem hp with hp' | rfl
    · exact hl.inserted c hp'
    · exact hl.behind c _ hm.has rfl
  · obtain ⟨g', hg', hgs'⟩ := hold c _ g hg hgs
    exact hl.behind c g' hg' hgs'
  · obtain ⟨hfront, hkeep⟩ := exec_front s.mem fun hf => hl.front (hf ▸ hm.has)
    rw [hm.mem]
    rcases hkeep with he | hhold
    · rcases hm.old _ hpop with hg | hg
      · exact hfront hg
      · rw [he]
        exact hl.front hg
    · exact hfront (hm.holding hhold _ hpop rfl)

theorem Started.inserted {e : Event κ} (hs : Started t s s' e f) {c : κ}
    (hp : s'.phase c = .inserted) : s.phase c = .inserted := by
  rw [hs.phase] at hp
  rcases hs.start with ⟨c', rfl, -⟩ | ⟨c', rfl, -⟩ | ⟨rfl, -⟩
  · rcases eq_or_ne c c' with rfl | hne
    · simp [phaseAfter] at hp
    · simpa [phaseAfter, hne] using hp
  · rcases eq_or_ne c c' with rfl | hne
    · simp [phaseAfter] at hp
    · simpa [phaseAfter, hne] using hp
  · exact hp

/-- User code starts an operation. -/
theorem listed_start {e : Event κ} (hl : Listed (linked tr) s) (hs : Started t s s' e f) :
    Listed (linked (tr ++ [(t, e)])) s' := by
  have hlinked : linked (tr ++ [(t, e)]) = linked tr := by
    rcases hs.start with ⟨c, rfl, -⟩ | ⟨c, rfl, -⟩ | ⟨rfl, -⟩ <;> simp [Event.linked]
  rw [hlinked]
  refine ⟨hs.mem ▸ hl.nodup, hs.mem ▸ hl.sub, fun c hp => hl.fresh c ?_, fun c g hg hgs => ?_,
    fun c hp => hl.inserted c (hs.inserted hp), fun c g hg hgs => ?_, fun hpop => ?_⟩
  · rw [hs.phase] at hp
    exact phaseAfter_fresh hp
  · rcases (hs.has g).mp hg with rfl | hg'
    · rcases hs.start with ⟨c', -, rfl, hp⟩ | ⟨c', -, rfl, -⟩ | ⟨-, rfl⟩
      · cases hgs
        exact hl.fresh c hp
      · cases hgs
      · cases hgs
    · exact hl.before c g hg' hgs
  · rcases (hs.has g).mp hg with rfl | hg'
    · rcases hs.start with ⟨c', -, rfl, -⟩ | ⟨c', -, rfl, hp⟩ | ⟨-, rfl⟩
      · cases hgs
      · cases hgs
        exact hl.inserted c hp
      · cases hgs
    · exact hl.behind c g hg' hgs
  · rw [hs.mem]
    rcases (hs.has _).mp hpop with hf | hg
    · rcases hs.start with ⟨c', -, rfl, -⟩ | ⟨c', -, rfl, -⟩ | ⟨-, rfl⟩ <;> cases hf
    · exact hl.front hg

end StopStateDeliveryLemmas

theorem listed_step {tr : List (τ × Event κ)} {s s' : State τ κ} {l : τ × Event κ} (h : Inv s)
    (hl : Listed (linked tr) s) (hs : (system τ κ).step s l s') : Listed (linked (tr ++ [l])) s' := by
  obtain ⟨t, e⟩ := l
  rcases moved_step h hs with ⟨f, rfl, hm⟩ | ⟨f, hf⟩
  · exact listed_exec hl hm
  · exact listed_start hl hf

/-- The operation on `d_list`, whose head is `none`. -/
def listOp (l : τ × Event κ) : Option (IntrusiveList.Op Unit (Option κ)) :=
  match l.2 with
  | .link c => some (.push_back () (some c))
  | .unlink c => some (.erase (some c))
  | .pop => some (.pop_front ())
  | _ => none

/-- The sequence of `d_list` and the nodes that were inserted. -/
def seqs (tr : List (τ × Event κ)) (s : State τ κ) : IntrusiveList.Seqs Unit (Option κ) :=
  ⟨fun _ => s.mem.d_list.map some, (linked tr).reverse.map some⟩

namespace StopStateDeliveryLemmas

omit [DecidableEq τ] in
theorem list_exec {tr : List (τ × Event κ)} {s s' : State τ κ} {t : τ} {f : Frame κ}
    (hl : Listed (linked tr) s) (hhas : s.Has f) (hm : s'.mem = (exec s.mem f).2.1) :
    (listOp (t, (exec s.mem f).1) = none ∧
      seqs (tr ++ [(t, (exec s.mem f).1)]) s' = seqs tr s) ∨
    ∃ op, listOp (t, (exec s.mem f).1) = some op ∧
      IntrusiveList.Valid (fun _ => none) (seqs tr s) op ∧
      seqs (tr ++ [(t, (exec s.mem f).1)]) s' = (seqs tr s).apply op := by
  unfold seqs
  rw [hm]
  cases f with
  | insertLink c =>
    have hc : c ∉ s.mem.d_list := fun hc => hl.before c _ hhas rfl (hl.sub c hc)
    refine .inr ⟨.push_back () (some c), rfl, fun _ => ⟨?_, by simp⟩, ?_⟩
    · simpa [seqs] using hc
    · simp only [exec, linked_snoc, Event.linked, IntrusiveList.Seqs.apply]
      simp [funext_iff]
  | eraseUnlink c =>
    refine .inr ⟨.erase (some c), rfl, ?_, ?_⟩
    · have := hl.behind c _ hhas rfl
      simpa [seqs, IntrusiveList.Valid] using this
    · simp only [exec, linked_snoc, Event.linked, IntrusiveList.Seqs.apply]
      refine congrArg₂ IntrusiveList.Seqs.mk (funext fun _ => ?_) (by simp)
      exact @List.map_erase κ (Option κ) _ _ instBEqOfDecidableEq _ some
        (fun _ _ => Option.some.inj) c s.mem.d_list
  | callPop =>
    refine .inr ⟨.pop_front (), rfl, ?_, ?_⟩
    · simpa [seqs, IntrusiveList.Valid] using hl.front hhas
    · simp only [exec, linked_snoc, Event.linked, IntrusiveList.Seqs.apply]
      simp [funext_iff, List.map_tail]
  | insertLock c | eraseLock c | callLock =>
    left
    cases hb : s.mem.d_busy <;> simp [exec, Memory.lock, hb, listOp, Event.linked]
  | insertCheck c | requestExchange =>
    left
    cases hr : s.mem.d_stop_requested <;> simp [exec, hr, listOp, Event.linked]
  | callTest =>
    left
    cases hd : s.mem.d_list <;> simp [exec, hd, listOp, Event.linked]
  | insertUnlock c | insertReturn c | eraseUnlock c | eraseReturn c | callUnlock
  | requestReturn won | body c => exact .inl (by simp [exec, listOp, Event.linked])

/-- A step makes at most one operation on `d_list`, a valid one. -/
theorem list_step {tr : List (τ × Event κ)} {s s' : State τ κ} {l : τ × Event κ} (h : Inv s)
    (hl : Listed (linked tr) s) (hs : (system τ κ).step s l s') :
    (listOp l = none ∧ seqs (tr ++ [l]) s' = seqs tr s) ∨
    ∃ op, listOp l = some op ∧ IntrusiveList.Valid (fun _ => none) (seqs tr s) op ∧
      seqs (tr ++ [l]) s' = (seqs tr s).apply op := by
  obtain ⟨t, e⟩ := l
  rcases moved_step h hs with ⟨f, rfl, hm⟩ | ⟨f, hf⟩
  · exact list_exec hl hm.has hm.mem
  · left
    rcases hf.start with ⟨c, rfl, -⟩ | ⟨c, rfl, -⟩ | ⟨rfl, -⟩ <;>
      simp [listOp, seqs, hf.mem, Event.linked]

end StopStateDeliveryLemmas

/-- The links of a list that was used like `d_list` in a run: `empty()` and
`front()` are those of the sequence. -/
theorem refines_list {s : State τ κ} {tr : List (τ × Event κ)} {L₀ : Ring.Links (Option κ)}
    (h : Run (system τ κ) State.initial tr s) (h₀ : IntrusiveList.connect L₀ none none = L₀) :
    ∃ L, Run (IntrusiveList.system fun _ : Unit => none) (L₀, ⟨fun _ => [], []⟩)
        (tr.filterMap listOp) (L, seqs tr s) ∧
      (IntrusiveList.empty L none = true ↔ s.mem.d_list = []) ∧
      ∀ c cs, s.mem.d_list = c :: cs → IntrusiveList.begin L none = some c := by
  obtain ⟨L, hr, hfront⟩ := IntrusiveList.follows (fun _ : Unit => none) listOp seqs
    (fun tr s => Inv s ∧ Listed (linked tr) s) (fun _ _ _ => rfl) (fun _ => h₀) h
    ⟨inv_initial, listed_initial⟩ rfl
    fun tr s l s' hi hs => ⟨⟨inv_step hi.1 hs, listed_step hi.1 hi.2 hs⟩, list_step hi.1 hi.2 hs⟩
  refine ⟨L, hr, ?_, fun c cs hl => (hfront ()).2 (some c) (cs.map some) (by simp [seqs, hl])⟩
  rw [(hfront ()).1]
  simp [seqs]

/-! ## 2. Calls -/

/-- No `insert` calls its callback while the `request_stop` that has set the flag
is in front of the lock of `call()`. -/
def Clear (s : State τ κ) (l : τ × Event κ) : Prop :=
  ∀ c, l.2 = .call .insert c → ¬ s.Has .callLock

/-- What a frame still has to do with a callback, or with all of them. -/
inductive Stage (κ : Type)
  | check (c : κ)
  | inserted (c : κ)
  | pending
  | popping
  deriving DecidableEq, Repr

def Frame.stage : Frame κ → Option (Stage κ)
  | .insertCheck c => some (.check c)
  | .insertUnlock c | .insertReturn c => some (.inserted c)
  | .callLock | .callTest => some .pending
  | .callPop => some .popping
  | .insertLock _ | .insertLink _ | .eraseLock _ | .eraseUnlink _ | .eraseUnlock _ | .eraseReturn _
  | .requestExchange | .callUnlock | .requestReturn _ | .body _ => none

def State.At (s : State τ κ) (k : Stage κ) : Prop := ∃ g, s.Has g ∧ g.stage = some k

/-- Who has called a callback, or will call it. -/
structure Delivered (tr : List (τ × Event κ)) (s : State τ κ) : Prop where
  once : ∀ c, calls tr c ≤ 1
  unlinked : ∀ c, c ∉ linked tr → calls tr c = 0
  before : s.mem.d_stop_requested = false → ∀ c, calls tr c = 0
  check : ∀ c, s.At (.check c) → c ∈ s.mem.d_list ∧ calls tr c = 0
  inserted : ∀ c, s.phase c = .inserted ∨ s.At (.inserted c) → c ∈ s.mem.d_list ∨ calls tr c = 1
  pending : s.At .pending → ∀ c ∈ s.mem.d_list, calls tr c = 0
  popping : s.At .popping →
    ∃ c cs, s.mem.d_list = c :: cs ∧ calls tr c = 1 ∧ ∀ c' ∈ cs, calls tr c' = 0
  due : s.mem.d_stop_requested = true → ∀ c ∈ s.mem.d_list, calls tr c = 0 →
    s.At (.check c) ∨ s.At .pending ∨ s.At .popping

omit [DecidableEq τ] in
theorem delivered_initial : Delivered [] (State.initial : State τ κ) := by
  constructor <;> simp [State.initial, State.Has, State.At, calls]

namespace StopStateDeliveryLemmas

omit [DecidableEq τ]

variable {tr : List (τ × Event κ)} {s s' : State τ κ} {t : τ} {f : Frame κ} {c : κ} {k : Stage κ}

theorem Moved.at_old (hm : Moved t s s' f) (hk : s'.At k) :
    (∃ g ∈ (exec s.mem f).2.2, g.stage = some k) ∨ s.At k := by
  obtain ⟨g, hg, hgk⟩ := hk
  exact (hm.old g hg).imp (fun hg => ⟨g, hg, hgk⟩) fun hg => ⟨g, hg, hgk⟩

theorem Moved.at_keep (hm : Moved t s s' f) (hk : s.At k) (hf : f.stage ≠ some k) : s'.At k := by
  obtain ⟨g, hg, hgk⟩ := hk
  exact ⟨g, hm.keep g hg fun he => hf (he ▸ hgk), hgk⟩

theorem Moved.at_new {g : Frame κ} (hm : Moved t s s' f) (hg : g ∈ (exec s.mem f).2.2)
    (hk : g.stage = some k) : s'.At k :=
  ⟨g, hm.new g hg, hk⟩

omit [DecidableEq κ] in
theorem stage_inserts {g : Frame κ} (h : g.stage = some (.check c) ∨ g.stage = some (.inserted c)) :
    g.inserts = some c := by
  cases g <;> rcases h with h | h <;> cases h <;> rfl

omit [DecidableEq κ] in
theorem stage_holding {g : Frame κ} (hk : k = .popping ∨ ∃ c, k = .check c)
    (h : g.stage = some k) : g.holding = true := by
  rcases hk with rfl | ⟨c, rfl⟩ <;> cases g <;> cases h <;> rfl

omit [DecidableEq κ] in
theorem stage_winning {g : Frame κ} (h : g.stage = some .pending ∨ g.stage = some .popping) :
    g.winning = true := by
  cases g <;> rcases h with h | h <;> cases h <;> rfl

/-- A frame that holds the lock is the only one that does. -/
theorem Moved.at_holding (hm : Moved t s s' f) (hf : f.holding = true)
    (hk : k = .popping ∨ ∃ c, k = .check c) (hat : s'.At k) :
    ∃ g ∈ (exec s.mem f).2.2, g.stage = some k := by
  obtain ⟨g, hg, hgk⟩ := hat
  exact ⟨g, hm.holding hf g hg (stage_holding hk hgk), hgk⟩

/-- There is one `request_stop` that has set the flag. -/
theorem Moved.at_winning (hm : Moved t s s' f) (hf : f.winning = true) (hat : s'.At .pending) :
    ∃ g ∈ (exec s.mem f).2.2, g.stage = some .pending := by
  obtain ⟨g, hg, hgk⟩ := hat
  exact ⟨g, hm.winning hf g hg (stage_winning (.inl hgk)), hgk⟩

/-- A frame that neither changes the list or the flag nor calls a callback, and is
followed by one of its stage. -/
theorem delivered_quiet (hd : Delivered tr s) (hm : Moved t s s' f)
    (hlist : (exec s.mem f).2.1.d_list = s.mem.d_list)
    (hreq : (exec s.mem f).2.1.d_stop_requested = s.mem.d_stop_requested)
    (hlinked : (exec s.mem f).1.linked = none) (hcalled : (exec s.mem f).1.called = none)
    (hnew : ∀ g ∈ (exec s.mem f).2.2, g.stage = none ∨ g.stage = f.stage)
    (hnext : ∀ k, f.stage = some k → (∀ c, k ≠ .inserted c) →
      ∃ g ∈ (exec s.mem f).2.2, g.stage = some k) :
    Delivered (tr ++ [(t, (exec s.mem f).1)]) s' := by
  rw [← hm.mem] at hlist hreq
  have hcalls : ∀ c, calls (tr ++ [(t, (exec s.mem f).1)]) c = calls tr c := by simp [hcalled]
  have hsame : linked (tr ++ [(t, (exec s.mem f).1)]) = linked tr := by simp [hlinked]
  have hold : ∀ k, s'.At k → s.At k := by
    intro k hk
    rcases hm.at_old hk with ⟨g, hg, hgk⟩ | hk
    · rcases hnew g hg with he | he
      · rw [he] at hgk
        cases hgk
      · exact ⟨f, hm.has, he ▸ hgk⟩
    · exact hk
  have hkeep : ∀ k, (∀ c, k ≠ .inserted c) → s.At k → s'.At k := by
    intro k hk hat
    by_cases hf : f.stage = some k
    · obtain ⟨g, hg, hgk⟩ := hnext k hf hk
      exact hm.at_new hg hgk
    · exact hm.at_keep hat hf
  constructor
  · simpa only [hcalls] using hd.once
  · simpa only [hcalls, hsame] using hd.unlinked
  · simpa only [hcalls, hreq] using hd.before
  · intro c hk
    rw [hcalls, hlist]
    exact hd.check c (hold _ hk)
  · intro c hc
    rw [hcalls, hlist]
    refine hd.inserted c (hc.elim (fun hp => ?_) fun hk => .inr (hold _ hk))
    rw [hm.phase] at hp
    rcases phaseAfter_inserted s.mem hp with hp | rfl
    · exact .inl hp
    · exact .inr ⟨_, hm.has, rfl⟩
  · intro hk
    simpa only [hcalls, hlist] using hd.pending (hold _ hk)
  · intro hk
    simpa only [hcalls, hlist] using hd.popping (hold _ hk)
  · intro hr c hc hzero
    rw [hreq] at hr
    rw [hlist] at hc
    rw [hcalls] at hzero
    exact (hd.due hr c hc hzero).imp (hkeep _ (by simp)) (.imp (hkeep _ (by simp)) (hkeep _ (by simp)))

/-- A callback is put into the list. -/
theorem delivered_link (hl : Listed (linked tr) s) (hd : Delivered tr s)
    (hm : Moved t s s' (.insertLink c)) :
    Delivered (tr ++ [(t, (exec s.mem (.insertLink c)).1)]) s' := by
  have hzero : calls tr c = 0 := hd.unlinked c (hl.before c _ hm.has rfl)
  have hlist : s'.mem.d_list = s.mem.d_list ++ [c] := by rw [hm.mem]; rfl
  have hreq : s'.mem.d_stop_requested = s.mem.d_stop_requested := by rw [hm.mem]; rfl
  have hphase : ∀ c', s'.phase c' = s.phase c' := hm.phase
  have hcalls : ∀ c', calls (tr ++ [(t, (exec s.mem (.insertLink c)).1)]) c' = calls tr c' := by
    simp [exec, Event.called]
  have hnew : ∀ k, (∃ g ∈ (exec s.mem (.insertLink c)).2.2, g.stage = some k) → .check c = k := by
    rintro k ⟨g, hg, hgk⟩
    obtain rfl := List.mem_singleton.mp hg
    exact Option.some.inj hgk
  have hold : ∀ k, k ≠ .check c → s'.At k → s.At k := fun k hk hat =>
    (hm.at_old hat).resolve_left fun hg => hk (hnew k hg).symm
  have hkeep : ∀ k, s.At k → s'.At k := fun k hk => hm.at_keep hk (by rintro ⟨⟩)
  constructor
  · simpa only [hcalls] using hd.once
  · intro c' hc'
    rw [hcalls]
    exact hd.unlinked c' fun hmem => hc' (by simp [hmem])
  · simpa only [hcalls, hreq] using hd.before
  · intro c' hk
    cases hnew _ (hm.at_holding rfl (.inr ⟨c', rfl⟩) hk)
    rw [hcalls, hlist]
    exact ⟨by simp, hzero⟩
  · intro c' hc'
    rw [hcalls, hlist]
    have hc : s.phase c' = .inserted ∨ s.At (.inserted c') :=
      hc'.imp (fun hp => hphase c' ▸ hp) (hold _ (by simp))
    exact (hd.inserted c' hc).imp (List.mem_append_left _) id
  · intro hk c' hc'
    rw [hlist] at hc'
    rw [hcalls]
    rcases List.mem_append.mp hc' with hmem | he
    · exact hd.pending (hold _ (by simp) hk) c' hmem
    · rw [List.mem_singleton.mp he, hzero]
  · intro hk
    cases hnew _ (hm.at_holding rfl (.inl rfl) hk)
  · intro hr c' hc' hz
    rw [hreq] at hr
    rw [hlist] at hc'
    rw [hcalls] at hz
    rcases List.mem_append.mp hc' with hmem | he
    · exact (hd.due hr c' hmem hz).imp (hkeep _) (.imp (hkeep _) (hkeep _))
    · rw [List.mem_singleton.mp he]
      exact .inl (hm.at_new (List.mem_singleton_self _) rfl)

/-- `insert` calls its callback: no `request_stop` is in front of the list. -/
theorem delivered_insert_call (hl : Listed (linked tr) s) (hd : Delivered tr s)
    (hm : Moved t s s' (.insertCheck c)) (hr : s.mem.d_stop_requested = true)
    (hclear : ¬ s.Has .callLock) :
    Delivered (tr ++ [(t, (exec s.mem (.insertCheck c)).1)]) s' := by
  have he : exec s.mem (.insertCheck c) =
      (.call .insert c, s.mem, [.body c, .insertUnlock c]) := by simp [exec, hr]
  have hmem' : s'.mem = s.mem := by rw [hm.mem, he]
  have hphase : ∀ c', s'.phase c' = s.phase c' := fun c' => by rw [hm.phase, he]; rfl
  obtain ⟨hmem, hzero⟩ := hd.check c ⟨_, hm.has, rfl⟩
  have hnew : ∀ k, (∃ g ∈ (exec s.mem (.insertCheck c)).2.2, g.stage = some k) →
      .inserted c = k := by
    rintro k ⟨g, hg, hgk⟩
    rw [he] at hg
    rcases List.mem_cons.mp hg with rfl | hg
    · cases hgk
    · obtain rfl := List.mem_singleton.mp hg
      exact Option.some.inj hgk
  have hone : calls (tr ++ [(t, (exec s.mem (.insertCheck c)).1)]) c = 1 := by
    simp [he, Event.called, hzero]
  have hother : ∀ c', c' ≠ c →
      calls (tr ++ [(t, (exec s.mem (.insertCheck c)).1)]) c' = calls tr c' := fun c' hne => by
    simp [he, Event.called, hne.symm]
  have hsame : linked (tr ++ [(t, (exec s.mem (.insertCheck c)).1)]) = linked tr := by
    simp [he, Event.linked]
  constructor
  · intro c'
    rcases eq_or_ne c' c with rfl | hne
    · exact Nat.le_of_eq hone
    · rw [hother c' hne]
      exact hd.once c'
  · intro c' hc'
    rw [hsame] at hc'
    have hne : c' ≠ c := fun he => hc' (hl.sub c' (he ▸ hmem))
    rw [hother c' hne]
    exact hd.unlinked c' hc'
  · intro hnot
    rw [hmem', hr] at hnot
    cases hnot
  · intro c' hk
    cases hnew _ (hm.at_holding rfl (.inr ⟨c', rfl⟩) hk)
  · intro c' hc'
    rcases eq_or_ne c' c with rfl | hne
    · exact .inr hone
    · rw [hother c' hne, hmem']
      refine hd.inserted c' (hc'.imp (fun hp => hphase c' ▸ hp) fun hk => ?_)
      exact (hm.at_old hk).resolve_left fun hg => hne (Stage.inserted.inj (hnew _ hg)).symm
  · rintro ⟨g, hg, hgk⟩
    have hold : s.Has g := (hm.old g hg).resolve_left fun hg' => by cases hnew _ ⟨g, hg', hgk⟩
    cases g with
    | callLock => exact absurd hold hclear
    | callTest => cases hnew _ ⟨_, hm.holding rfl _ hg rfl, hgk⟩
    | _ => cases hgk
  · intro hk
    cases hnew _ (hm.at_holding rfl (.inl rfl) hk)
  · intro _ c' hc' hz
    have hne : c' ≠ c := by
      rintro rfl
      rw [hone] at hz
      cases hz
    rw [hother c' hne] at hz
    rw [hmem'] at hc'
    exact (hd.due hr c' hc' hz).imp
      (fun hk => hm.at_keep hk fun he => hne (Stage.check.inj (Option.some.inj he)).symm)
      (.imp (fun hk => hm.at_keep hk (by rintro ⟨⟩)) fun hk => hm.at_keep hk (by rintro ⟨⟩))

/-- `insert` reads the flag before it is set. -/
theorem delivered_insert_pass (hd : Delivered tr s) (hm : Moved t s s' (.insertCheck c))
    (hr : s.mem.d_stop_requested = false) :
    Delivered (tr ++ [(t, (exec s.mem (.insertCheck c)).1)]) s' := by
  have he : exec s.mem (.insertCheck c) = (.tau, s.mem, [.insertUnlock c]) := by simp [exec, hr]
  have hmem' : s'.mem = s.mem := by rw [hm.mem, he]
  have hphase : ∀ c', s'.phase c' = s.phase c' := fun c' => by rw [hm.phase, he]; rfl
  have hcalls : ∀ c', calls (tr ++ [(t, (exec s.mem (.insertCheck c)).1)]) c' = calls tr c' := by
    simp [he, Event.called]
  have hnew : ∀ k, (∃ g ∈ (exec s.mem (.insertCheck c)).2.2, g.stage = some k) →
      .inserted c = k := by
    rintro k ⟨g, hg, hgk⟩
    rw [he] at hg
    obtain rfl := List.mem_singleton.mp hg
    exact Option.some.inj hgk
  constructor
  · simpa only [hcalls] using hd.once
  · simpa [he, Event.linked, Event.called] using hd.unlinked
  · simpa only [hcalls, hmem'] using hd.before
  · intro c' hk
    cases hnew _ (hm.at_holding rfl (.inr ⟨c', rfl⟩) hk)
  · intro c' hc'
    rw [hcalls, hmem']
    rcases hc' with hp | hk
    · exact hd.inserted c' (.inl (hphase c' ▸ hp))
    · rcases hm.at_old hk with hg | hk
      · cases hnew _ hg
        exact .inl (hd.check c ⟨_, hm.has, rfl⟩).1
      · exact hd.inserted c' (.inr hk)
  · intro hk
    have hold : s.At .pending := (hm.at_old hk).resolve_left fun hg => by cases hnew _ hg
    simpa only [hcalls, hmem'] using hd.pending hold
  · intro hk
    cases hnew _ (hm.at_holding rfl (.inl rfl) hk)
  · intro hr'
    rw [hmem', hr] at hr'
    cases hr'

theorem delivered_insert (hl : Listed (linked tr) s) (hd : Delivered tr s) (hm : Moved t s s' f)
    (hc : Clear s (t, (exec s.mem f).1)) (hi : f.inserts = some c) :
    Delivered (tr ++ [(t, (exec s.mem f).1)]) s' := by
  cases f with
  | insertLock c' =>
    refine delivered_quiet hd hm ?_ ?_ ?_ ?_ ?_ (by rintro _ ⟨⟩) <;> cases hb : s.mem.d_busy <;>
      simp [exec, Memory.lock, hb, Event.linked, Event.called, Frame.stage]
  | insertLink c' => exact delivered_link hl hd hm
  | insertCheck c' =>
    cases hr : s.mem.d_stop_requested with
    | true => exact delivered_insert_call hl hd hm hr (hc c' (by simp [exec, hr]))
    | false => exact delivered_insert_pass hd hm hr
  | insertUnlock c' =>
    refine delivered_quiet hd hm rfl rfl rfl rfl (by simp [exec, Frame.stage]) fun k hk hne => ?_
    exact absurd (Option.some.inj hk).symm (hne c')
  | insertReturn c' =>
    refine delivered_quiet hd hm rfl rfl rfl rfl (by simp [exec]) fun k hk hne => ?_
    exact absurd (Option.some.inj hk).symm (hne c')
  | _ => cases hi

/-- A callback is taken out of the list. -/
theorem delivered_unlink (hd : Delivered tr s) (hm : Moved t s s' (.eraseUnlink c)) :
    Delivered (tr ++ [(t, (exec s.mem (.eraseUnlink c)).1)]) s' := by
  have hlist : s'.mem.d_list = s.mem.d_list.erase c := by rw [hm.mem]; rfl
  have hreq : s'.mem.d_stop_requested = s.mem.d_stop_requested := by rw [hm.mem]; rfl
  have hphase : ∀ c', s'.phase c' = s.phase c' := hm.phase
  have hcalls : ∀ c', calls (tr ++ [(t, (exec s.mem (.eraseUnlink c)).1)]) c' = calls tr c' := by
    simp [exec, Event.called]
  have hnew : ∀ k, ¬ ∃ g ∈ (exec s.mem (.eraseUnlink c)).2.2, g.stage = some k := by
    rintro k ⟨g, hg, hgk⟩
    obtain rfl := List.mem_singleton.mp hg
    cases hgk
  have hold : ∀ k, s'.At k → s.At k := fun k hk => (hm.at_old hk).resolve_left (hnew k)
  have hkeep : ∀ k, s.At k → s'.At k := fun k hk => hm.at_keep hk (by rintro ⟨⟩)
  constructor
  · simpa only [hcalls] using hd.once
  · simpa [exec, Event.linked, Event.called] using hd.unlinked
  · simpa only [hcalls, hreq] using hd.before
  · intro c' hk
    exact absurd (hm.at_holding rfl (.inr ⟨c', rfl⟩) hk) (hnew _)
  · intro c' hc'
    have hne : c' ≠ c := by
      rintro rfl
      rcases hc' with hp | ⟨g, hg, hgk⟩
      · rw [hphase, hm.erasing c' rfl] at hp
        cases hp
      · have hon := inserts_isOn (stage_inserts (.inr hgk))
        exact hnew _ ⟨g, hm.on c' (erases_isOn rfl) g hg hon, hgk⟩
    rw [hcalls, hlist]
    exact (hd.inserted c' (hc'.imp (fun hp => hphase c' ▸ hp) (hold _))).imp
      (List.mem_erase_of_ne hne).mpr id
  · intro hk c' hc'
    rw [hlist] at hc'
    rw [hcalls]
    exact hd.pending (hold _ hk) c' (List.mem_of_mem_erase hc')
  · intro hk
    exact absurd (hm.at_holding rfl (.inl rfl) hk) (hnew _)
  · intro hr c' hc' hz
    rw [hreq] at hr
    rw [hlist] at hc'
    rw [hcalls] at hz
    exact (hd.due hr c' (List.mem_of_mem_erase hc') hz).imp (hkeep _) (.imp (hkeep _) (hkeep _))

theorem delivered_erase (hd : Delivered tr s) (hm : Moved t s s' f) (he : f.erases = some c) :
    Delivered (tr ++ [(t, (exec s.mem f).1)]) s' := by
  cases f with
  | eraseLock c' =>
    refine delivered_quiet hd hm ?_ ?_ ?_ ?_ ?_ (by rintro _ ⟨⟩) <;> cases hb : s.mem.d_busy <;>
      simp [exec, Memory.lock, hb, Event.linked, Event.called, Frame.stage]
  | eraseUnlink c' => exact delivered_unlink hd hm
  | eraseUnlock c' | eraseReturn c' =>
    exact delivered_quiet hd hm rfl rfl rfl rfl (by simp [exec, Frame.stage]) (by rintro _ ⟨⟩)
  | _ => cases he

/-- `request_stop` sets the flag. -/
theorem delivered_win (hd : Delivered tr s) (hm : Moved t s s' .requestExchange)
    (hr : s.mem.d_stop_requested = false) :
    Delivered (tr ++ [(t, (exec s.mem .requestExchange).1)]) s' := by
  have he : exec s.mem (.requestExchange : Frame κ) =
      (.requestWin, { s.mem with d_stop_requested := true }, [.callLock]) := by simp [exec, hr]
  have hlist : s'.mem.d_list = s.mem.d_list := by rw [hm.mem, he]
  have hreq : s'.mem.d_stop_requested = true := by rw [hm.mem, he]
  have hphase : ∀ c', s'.phase c' = s.phase c' := fun c' => by rw [hm.phase, he]; rfl
  have hzero : ∀ c', calls (tr ++ [(t, (exec s.mem .requestExchange).1)]) c' = 0 := by
    simpa [he, Event.called] using hd.before hr
  have hold : ∀ k, k ≠ .pending → s'.At k → s.At k := by
    intro k hk hat
    refine (hm.at_old hat).resolve_left ?_
    rintro ⟨g, hg, hgk⟩
    rw [he] at hg
    obtain rfl := List.mem_singleton.mp hg
    exact hk (Option.some.inj hgk).symm
  constructor
  · intro c'
    rw [hzero]
    exact Nat.zero_le 1
  · exact fun c' _ => hzero c'
  · exact fun _ => hzero
  · intro c' hk
    rw [hlist]
    exact ⟨(hd.check c' (hold _ (by simp) hk)).1, hzero c'⟩
  · intro c' hc'
    have hin := hd.inserted c' (hc'.imp (fun hp => hphase c' ▸ hp) (hold _ (by simp)))
    rw [hd.before hr c'] at hin
    rw [hlist]
    exact .inl (hin.resolve_right (by decide))
  · exact fun _ c' _ => hzero c'
  · intro hk
    obtain ⟨c', -, -, hone, -⟩ := hd.popping (hold _ (by simp) hk)
    rw [hd.before hr c'] at hone
    cases hone
  · intro _ _ _ _
    exact .inr (.inl (hm.at_new (by rw [he]; exact List.mem_singleton_self _) rfl))

/-- `call()` finds the list empty. -/
theorem delivered_empty (hd : Delivered tr s) (hm : Moved t s s' .callTest)
    (hl : s.mem.d_list = []) : Delivered (tr ++ [(t, (exec s.mem .callTest).1)]) s' := by
  have he : exec s.mem (.callTest : Frame κ) = (.tau, s.mem, [.callUnlock]) := by simp [exec, hl]
  have hmem' : s'.mem = s.mem := by rw [hm.mem, he]
  have hphase : ∀ c', s'.phase c' = s.phase c' := fun c' => by rw [hm.phase, he]; rfl
  have hcalls : ∀ c', calls (tr ++ [(t, (exec s.mem .callTest).1)]) c' = calls tr c' := by
    simp [he, Event.called]
  have hnew : ∀ k, ¬ ∃ g ∈ (exec s.mem (.callTest : Frame κ)).2.2, g.stage = some k := by
    rintro k ⟨g, hg, hgk⟩
    rw [he] at hg
    obtain rfl := List.mem_singleton.mp hg
    cases hgk
  have hold : ∀ k, s'.At k → s.At k := fun k hk => (hm.at_old hk).resolve_left (hnew k)
  constructor
  · simpa only [hcalls] using hd.once
  · simpa [he, Event.linked, Event.called] using hd.unlinked
  · simpa only [hcalls, hmem'] using hd.before
  · intro c' hk
    exact absurd (hm.at_holding rfl (.inr ⟨c', rfl⟩) hk) (hnew _)
  · intro c' hc'
    rw [hcalls, hmem']
    exact hd.inserted c' (hc'.imp (fun hp => hphase c' ▸ hp) (hold _))
  · intro _ c' hc'
    rw [hmem', hl] at hc'
    cases hc'
  · intro hk
    exact absurd (hm.at_holding rfl (.inl rfl) hk) (hnew _)
  · intro _ c' hc'
    rw [hmem', hl] at hc'
    cases hc'

/-- `call()` calls the front of the list. -/
theorem delivered_front {cs : List κ} (hl : Listed (linked tr) s) (hd : Delivered tr s)
    (hm : Moved t s s' .callTest) (hcs : s.mem.d_list = c :: cs) :
    Delivered (tr ++ [(t, (exec s.mem .callTest).1)]) s' := by
  have he : exec s.mem (.callTest : Frame κ) = (.call .call c, s.mem, [.body c, .callPop]) := by
    simp [exec, hcs]
  have hmem' : s'.mem = s.mem := by rw [hm.mem, he]
  have hphase : ∀ c', s'.phase c' = s.phase c' := fun c' => by rw [hm.phase, he]; rfl
  have hzero : ∀ c' ∈ s.mem.d_list, calls tr c' = 0 := hd.pending ⟨_, hm.has, rfl⟩
  have hmem : c ∈ s.mem.d_list := by rw [hcs]; exact List.mem_cons_self
  have hnew : ∀ k, (∃ g ∈ (exec s.mem (.callTest : Frame κ)).2.2, g.stage = some k) →
      .popping = k := by
    rintro k ⟨g, hg, hgk⟩
    rw [he] at hg
    rcases List.mem_cons.mp hg with rfl | hg
    · cases hgk
    · obtain rfl := List.mem_singleton.mp hg
      exact Option.some.inj hgk
  have hone : calls (tr ++ [(t, (exec s.mem .callTest).1)]) c = 1 := by
    simp [he, Event.called, hzero c hmem]
  have hother : ∀ c', c' ≠ c →
      calls (tr ++ [(t, (exec s.mem .callTest).1)]) c' = calls tr c' := fun c' hne => by
    simp [he, Event.called, hne.symm]
  have hsame : linked (tr ++ [(t, (exec s.mem .callTest).1)]) = linked tr := by
    simp [he, Event.linked]
  constructor
  · intro c'
    rcases eq_or_ne c' c with rfl | hne
    · exact Nat.le_of_eq hone
    · rw [hother c' hne]
      exact hd.once c'
  · intro c' hc'
    rw [hsame] at hc'
    have hne : c' ≠ c := fun he => hc' (hl.sub c' (he ▸ hmem))
    rw [hother c' hne]
    exact hd.unlinked c' hc'
  · intro hnot
    rw [hmem', hm.requested rfl] at hnot
    cases hnot
  · intro c' hk
    cases hnew _ (hm.at_holding rfl (.inr ⟨c', rfl⟩) hk)
  · intro c' hc'
    rcases eq_or_ne c' c with rfl | hne
    · exact .inr hone
    · rw [hother c' hne, hmem']
      refine hd.inserted c' (hc'.imp (fun hp => hphase c' ▸ hp) fun hk => ?_)
      exact (hm.at_old hk).resolve_left fun hg => by cases hnew _ hg
  · intro hk
    cases hnew _ (hm.at_winning rfl hk)
  · intro _
    refine ⟨c, cs, hmem'.symm ▸ hcs, hone, fun c' hc' => ?_⟩
    have hnodup := hl.nodup
    rw [hcs] at hnodup
    have hne : c' ≠ c := fun he => (List.nodup_cons.mp hnodup).1 (he ▸ hc')
    rw [hother c' hne]
    exact hzero c' (by rw [hcs]; exact List.mem_cons_of_mem _ hc')
  · intro _ _ _ _
    exact .inr (.inr (hm.at_new (by rw [he]; exact List.mem_cons_of_mem _ (List.mem_singleton_self _)) rfl))

/-- `call()` takes the front out after it was called. -/
theorem delivered_pop (hd : Delivered tr s) (hm : Moved t s s' .callPop) :
    Delivered (tr ++ [(t, (exec s.mem .callPop).1)]) s' := by
  obtain ⟨c, cs, hcs, hone, hrest⟩ := hd.popping ⟨_, hm.has, rfl⟩
  have hlist : s'.mem.d_list = cs := by rw [hm.mem]; simp [exec, hcs]
  have hreq : s'.mem.d_stop_requested = s.mem.d_stop_requested := by rw [hm.mem]; rfl
  have hphase : ∀ c', s'.phase c' = s.phase c' := hm.phase
  have hcalls : ∀ c', calls (tr ++ [(t, (exec s.mem .callPop).1)]) c' = calls tr c' := by
    simp [exec, Event.called]
  have hnew : ∀ k, (∃ g ∈ (exec s.mem (.callPop : Frame κ)).2.2, g.stage = some k) →
      .pending = k := by
    rintro k ⟨g, hg, hgk⟩
    obtain rfl := List.mem_singleton.mp hg
    exact Option.some.inj hgk
  constructor
  · simpa only [hcalls] using hd.once
  · simpa [exec, Event.linked, Event.called] using hd.unlinked
  · simpa only [hcalls, hreq] using hd.before
  · intro c' hk
    cases hnew _ (hm.at_holding rfl (.inr ⟨c', rfl⟩) hk)
  · intro c' hc'
    rw [hcalls, hlist]
    have hold : s.phase c' = .inserted ∨ s.At (.inserted c') :=
      hc'.imp (fun hp => hphase c' ▸ hp) fun hk =>
        (hm.at_old hk).resolve_left fun hg => by cases hnew _ hg
    rcases hd.inserted c' hold with hmem | hcall
    · rw [hcs] at hmem
      rcases List.mem_cons.mp hmem with rfl | hmem
      · exact .inr hone
      · exact .inl hmem
    · exact .inr hcall
  · intro _ c' hc'
    rw [hlist] at hc'
    rw [hcalls]
    exact hrest c' hc'
  · intro hk
    cases hnew _ (hm.at_holding rfl (.inl rfl) hk)
  · intro _ _ _ _
    exact .inr (.inl (hm.at_new (List.mem_singleton_self _) rfl))

theorem delivered_call (hl : Listed (linked tr) s) (hd : Delivered tr s) (hm : Moved t s s' f)
    (hf : f.inserts = none ∧ f.erases = none) :
    Delivered (tr ++ [(t, (exec s.mem f).1)]) s' := by
  cases f with
  | requestExchange =>
    cases hr : s.mem.d_stop_requested with
    | true =>
      refine delivered_quiet hd hm ?_ ?_ ?_ ?_ ?_ (by rintro _ ⟨⟩) <;>
        simp [exec, hr, Event.linked, Event.called, Frame.stage]
    | false => exact delivered_win hd hm hr
  | callLock =>
    refine delivered_quiet hd hm ?_ ?_ ?_ ?_ ?_ fun k hk _ => ?_
    case refine_6 =>
      obtain rfl := Option.some.inj hk
      cases hb : s.mem.d_busy <;> simp [exec, Memory.lock, hb, Frame.stage]
    all_goals
      cases hb : s.mem.d_busy <;>
        simp [exec, Memory.lock, hb, Event.linked, Event.called, Frame.stage]
  | callTest =>
    cases hcs : s.mem.d_list with
    | nil => exact delivered_empty hd hm hcs
    | cons c cs => exact delivered_front hl hd hm hcs
  | callPop => exact delivered_pop hd hm
  | callUnlock | requestReturn won | body c' =>
    exact delivered_quiet hd hm rfl rfl rfl rfl (by simp [exec, Frame.stage]) (by rintro _ ⟨⟩)
  | insertLock c' | insertLink c' | insertCheck c' | insertUnlock c' | insertReturn c' =>
    cases hf.1
  | eraseLock c' | eraseUnlink c' | eraseUnlock c' | eraseReturn c' => cases hf.2

/-- User code starts an operation. -/
theorem delivered_start {e : Event κ} (hd : Delivered tr s) (hs : Started t s s' e f) :
    Delivered (tr ++ [(t, e)]) s' := by
  have hnone : f.stage = none ∧ e.linked = none ∧ e.called = none := by
    rcases hs.start with ⟨c, rfl, rfl, -⟩ | ⟨c, rfl, rfl, -⟩ | ⟨rfl, rfl⟩ <;> exact ⟨rfl, rfl, rfl⟩
  have hcalls : ∀ c, calls (tr ++ [(t, e)]) c = calls tr c := by simp [hnone.2.2]
  have hlinked : linked (tr ++ [(t, e)]) = linked tr := by simp [hnone.2.1]
  have hold : ∀ k, s'.At k → s.At k := by
    rintro k ⟨g, hg, hgk⟩
    rcases (hs.has g).mp hg with rfl | hg'
    · rw [hnone.1] at hgk
      cases hgk
    · exact ⟨g, hg', hgk⟩
  have hkeep : ∀ k, s.At k → s'.At k := by
    rintro k ⟨g, hg, hgk⟩
    exact ⟨g, (hs.has g).mpr (.inr hg), hgk⟩
  constructor
  · simpa only [hcalls] using hd.once
  · simpa only [hcalls, hlinked] using hd.unlinked
  · simpa only [hcalls, hs.mem] using hd.before
  · intro c' hk
    rw [hcalls, hs.mem]
    exact hd.check c' (hold _ hk)
  · intro c' hc'
    rw [hcalls, hs.mem]
    exact hd.inserted c' (hc'.imp hs.inserted (hold _))
  · intro hk
    simpa only [hcalls, hs.mem] using hd.pending (hold _ hk)
  · intro hk
    simpa only [hcalls, hs.mem] using hd.popping (hold _ hk)
  · intro hr c' hc' hz
    rw [hs.mem] at hr hc'
    rw [hcalls] at hz
    exact (hd.due hr c' hc' hz).imp (hkeep _) (.imp (hkeep _) (hkeep _))

end StopStateDeliveryLemmas

/-- Every clear step keeps the account. -/
theorem delivered_step {tr : List (τ × Event κ)} {s s' : State τ κ} {l : τ × Event κ} (h : Inv s)
    (hl : Listed (linked tr) s) (hd : Delivered tr s) (hs : (system τ κ).step s l s') (hc : Clear s l) :
    Delivered (tr ++ [l]) s' := by
  obtain ⟨t, e⟩ := l
  rcases moved_step h hs with ⟨f, rfl, hm⟩ | ⟨f, hf⟩
  · cases hi : f.inserts with
    | some c => exact delivered_insert hl hd hm hc hi
    | none =>
      cases he : f.erases with
      | some c => exact delivered_erase hd hm he
      | none => exact delivered_call hl hd hm ⟨hi, he⟩
  · exact delivered_start hd hf

/-- After the `request_stop` that set the flag, no other one does. -/
def Returned (tr : List (τ × Event κ)) (s : State τ κ) : Prop :=
  ∀ t, (t, .requestReturn true) ∈ tr →
    s.mem.d_stop_requested = true ∧ ∀ f, s.Has f → f.winning = false

/-- Only the frame in front of the return returns. -/
theorem exec_return {m : Memory κ} {f : Frame κ} {won : Bool}
    (h : (exec m f).1 = .requestReturn won) : f = .requestReturn won := by
  cases f with
  | requestReturn won' => exact congrArg _ (Event.requestReturn.inj h)
  | insertLock c | eraseLock c | callLock => cases hb : m.d_busy <;> simp [exec, Memory.lock, hb] at h
  | insertCheck c | requestExchange => cases hr : m.d_stop_requested <;> simp [exec, hr] at h
  | callTest => cases hl : m.d_list <;> simp [exec, hl] at h
  | insertLink c | insertUnlock c | insertReturn c | eraseUnlink c | eraseUnlock c | eraseReturn c
  | callPop | callUnlock | body c => cases h

theorem returned_step {tr : List (τ × Event κ)} {s s' : State τ κ} {l : τ × Event κ} (h : Inv s)
    (hr : Returned tr s) (hs : (system τ κ).step s l s') : Returned (tr ++ [l]) s' := by
  obtain ⟨t, e⟩ := l
  intro t' ht'
  rcases moved_step h hs with ⟨f, rfl, hm⟩ | ⟨f, hf⟩
  · by_cases hret : f = .requestReturn true
    · subst hret
      have hreq := hm.requested rfl
      refine ⟨by rw [hm.mem]; exact hreq, fun g hg => ?_⟩
      by_contra hg'
      exact absurd (hm.winning rfl g hg (by simpa using hg')) List.not_mem_nil
    · have hold : (t', Event.requestReturn true) ∈ tr := by
        refine (List.mem_append.mp ht').resolve_right fun hlast => hret ?_
        exact exec_return (congrArg Prod.snd (List.mem_singleton.mp hlast)).symm
      obtain ⟨hreq, hno⟩ := hr t' hold
      rcases exec_winner s.mem f with ⟨he, hcount⟩ | ⟨hnot, -⟩ | ⟨-, hwin, -⟩
      · refine ⟨by rw [hm.mem, he, hreq], fun g hg => ?_⟩
        rcases hm.old g hg with hg' | hg'
        · rw [List.countP_cons_of_neg (by simp [hno f hm.has]), List.countP_nil,
            List.countP_eq_zero] at hcount
          simpa using hcount g hg'
        · exact hno g hg'
      · rw [hreq] at hnot
        cases hnot
      · rw [hno f hm.has] at hwin
        cases hwin
  · have hold : (t', Event.requestReturn true) ∈ tr := by
      refine (List.mem_append.mp ht').resolve_right fun hlast => ?_
      rcases hf.start with ⟨c, rfl, -⟩ | ⟨c, rfl, -⟩ | ⟨rfl, -⟩ <;> simp at hlast
    obtain ⟨hreq, hno⟩ := hr t' hold
    refine ⟨by rw [hf.mem, hreq], fun g hg => ?_⟩
    rcases (hf.has g).mp hg with rfl | hg'
    · rcases hf.start with ⟨c, -, rfl, -⟩ | ⟨c, -, rfl, -⟩ | ⟨-, rfl⟩ <;> rfl
    · exact hno g hg'

/-- In every run without an `insert` between the setting of the flag and the lock
of `call()`: no callback is called twice, and when a `request_stop()` has
returned true, every callback that is registered has been called. -/
theorem callbacks_called_once {s : State τ κ} {tr : List (τ × Event κ)}
    (h : Run ((system τ κ).restrict Clear) State.initial tr s) :
    (∀ c, calls tr c ≤ 1) ∧
    ∀ t, (t, .requestReturn true) ∈ tr → ∀ c, s.phase c = .inserted → calls tr c = 1 := by
  have hi : Inv s ∧ Listed (linked tr) s ∧ Delivered tr s ∧ Returned tr s := by
    refine h.invariant (I := fun tr s => Inv s ∧ Listed (linked tr) s ∧ Delivered tr s ∧ Returned tr s)
      ⟨inv_initial, listed_initial, delivered_initial, fun _ ht => absurd ht List.not_mem_nil⟩ ?_
    rintro tr s l s' ⟨hi, hl, hd, hr⟩ ⟨hs, hc⟩
    exact ⟨inv_step hi hs, listed_step hi hl hs, delivered_step hi hl hd hs hc,
      returned_step hi hr hs⟩
  obtain ⟨hi, hl, hd, hr⟩ := hi
  refine ⟨hd.once, fun t ht c hc => ?_⟩
  obtain ⟨hreq, hno⟩ := hr t ht
  rcases hd.inserted c (.inl hc) with hmem | hone
  · by_contra hzero
    have hle := hd.once c
    have hquiet : ∀ g, s.Has g → g.winning = true → False := fun g hg hwin => by
      rw [hno g hg] at hwin
      cases hwin
    rcases hd.due hreq c hmem (by omega) with ⟨g, ⟨t', hg⟩, hgk⟩ | ⟨g, hg, hgk⟩ | ⟨g, hg, hgk⟩
    · have := hi.inserts t' g hg c (stage_inserts (.inl hgk))
      rw [hc] at this
      cases this
    · exact hquiet g hg (stage_winning (.inl hgk))
    · exact hquiet g hg (stage_winning (.inr hgk))
  · exact hone

/-- Thread `0` registers a callback, then thread `1` requests the stop. -/
def exClear : List (Nat × Choice Nat) :=
  [(0, .insert 0)] ++ List.replicate 5 (0, .run) ++ [(1, .request_stop)] ++
    List.replicate 8 (1, .run)

theorem callbacks_called_once_example :
    ∃ tr s, Run ((system Nat Nat).restrict Clear) State.initial tr s ∧
      (1, Event.requestReturn true) ∈ tr ∧ s.phase 0 = .inserted ∧ calls tr 0 = 1 := by
  have hrun : Run ((system Nat Nat).restrict Clear) State.initial
      ((run State.initial exClear).get rfl).1 ((run State.initial exClear).get rfl).2 :=
    (run_play exClear rfl).restrict (by
      intro e he s c hc
      have hno : ∀ e ∈ ((run State.initial exClear).get rfl).1, ∀ c ∈ e.2.called,
        e.2 ≠ .call .insert c := by decide
      exact absurd hc (hno e he c (by rw [hc]; rfl)))
  exact ⟨_, _, hrun, by decide, rfl, (callbacks_called_once hrun).2 1 (by decide) 0 rfl⟩

/-- The flag is set after the callback was linked and before `insert` reads it:
`insert` calls the callback, and so does `call()`. -/
def exTwice : List (Nat × Choice Nat) :=
  [(0, .insert 0), (0, .run), (0, .run), (1, .request_stop), (1, .run)] ++
    List.replicate 3 (0, .run) ++ List.replicate 2 (1, .run)

theorem called_twice :
    ¬ ∀ (tr : List (Nat × Event Nat)) (s : State Nat Nat), Run (system Nat Nat) State.initial tr s →
      (∀ c, calls tr c ≤ 1) ∧
      ∀ t, (t, .requestReturn true) ∈ tr → ∀ c, s.phase c = .inserted → calls tr c = 1 := by
  intro h
  have hle := (h _ _ (run_play exTwice rfl)).1 0
  have htwo : calls ((run State.initial exTwice).get rfl).1 0 = 2 := by decide
  rw [htwo] at hle
  exact absurd hle (by decide)

end Kuhllib.StopState
