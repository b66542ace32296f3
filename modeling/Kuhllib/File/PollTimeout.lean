import Kuhllib.File.PollContext
import Mathlib.Algebra.Order.Ring.Int
import Mathlib.Data.List.Forall2

/-!
# How long `poll_context` sleeps

The timeout that `poll` passes to `poll(2)`. Time points and durations are nanoseconds in
64 bits, their difference is undefined where it overflows.

`sleeps_iff`: when no timeout is too long or negative.
-/

namespace Kuhllib.PollContext

variable {κ : Type}

/-- `d_expiry - now`. -/
def time_left (d_expiry now : Int) : Option Int :=
  if -2 ^ 63 ≤ d_expiry - now ∧ d_expiry - now < 2 ^ 63 then some (d_expiry - now) else none

/-- `sleep` in a turn of the loop, where the clock says `now`. -/
def State.sleep (s : State κ) (now : Int) : Option Int :=
  match (s.d_timers.map TimerEvent.d_expiry).min? with
  | none => some (-1)
  | some d_expiry =>
    if d_expiry ≤ now then some 0
    else do
      let d ← time_left d_expiry now
      some (int32 (d.tdiv 1000000))

/-- The timeouts of the turns. There is another turn as long as `poll(2)` is interrupted. -/
def State.sleeps (s : State κ) (nows : List Int) : Option (List Int) := nows.mapM s.sleep

/-- The timeout is right for the timers. -/
structure Prompt (timers : List (TimerEvent κ)) (now sleep : Int) : Prop where
  due : (∃ t ∈ timers, t.d_expiry ≤ now) → sleep = 0
  early : timers ≠ [] → (∀ t ∈ timers, now < t.d_expiry) →
    0 ≤ sleep ∧ sleep < 2 ^ 31 ∧ ∀ t ∈ timers, sleep * 1000000 ≤ t.d_expiry - now
  forever : sleep = -1 → timers = []

/-- A first timer is due, or the time left is a duration whose milliseconds have a 31st bit
that is not set. -/
def Near (timers : List (TimerEvent κ)) (now : Int) : Prop :=
  ∀ t ∈ timers, (∀ u ∈ timers, t.d_expiry ≤ u.d_expiry) → t.d_expiry ≤ now ∨
    t.d_expiry - now < 2 ^ 63 ∧ (t.d_expiry - now) / 1000000 % 2 ^ 32 < 2 ^ 31

namespace PollTimeoutLemmas

variable {s : State κ} {now : Int}

theorem sleep_nil (h : s.d_timers = []) : s.sleep now = some (-1) := by
  rw [State.sleep, h]
  rfl

/-- The timeout is that of a first timer. -/
theorem sleep_first {t : TimerEvent κ} (ht : t ∈ s.d_timers)
    (hfirst : ∀ u ∈ s.d_timers, t.d_expiry ≤ u.d_expiry) :
    s.sleep now = if t.d_expiry ≤ now then some 0 else
      (time_left t.d_expiry now).bind fun d => some (int32 (d.tdiv 1000000)) := by
  have hmin : (s.d_timers.map TimerEvent.d_expiry).min? = some t.d_expiry := by
    rw [List.min?_eq_some_iff]
    exact ⟨List.mem_map_of_mem ht, fun _ hb =>
      have ⟨u, hu, he⟩ := List.mem_map.mp hb
      he ▸ hfirst u hu⟩
  rw [State.sleep, hmin]
  rfl

theorem exists_first (h : s.d_timers ≠ []) :
    ∃ t ∈ s.d_timers, ∀ u ∈ s.d_timers, t.d_expiry ≤ u.d_expiry := by
  have hne : s.d_timers.map TimerEvent.d_expiry ≠ [] := List.map_eq_nil_iff.not.mpr h
  obtain ⟨e, he⟩ := Option.isSome_iff_exists.mp (List.isSome_min?_of_ne_nil hne)
  obtain ⟨hmem, hle⟩ := List.min?_eq_some_iff.mp he
  obtain ⟨t, ht, rfl⟩ := List.mem_map.mp hmem
  exact ⟨t, ht, fun u hu => hle _ (List.mem_map_of_mem hu)⟩

/-- The milliseconds as an `int`. -/
theorem int32_nonneg {ms : Int} (h : 0 ≤ ms) :
    (ms % 2 ^ 32 < 2 ^ 31 → int32 ms = ms % 2 ^ 32 ∧ ms % 2 ^ 32 ≤ ms) ∧
      (¬ ms % 2 ^ 32 < 2 ^ 31 → int32 ms < 0) := by
  unfold int32
  constructor
  · intro hlt
    constructor
    · rw [Int.bmod_def]
      omega
    · omega
  · intro hge
    rw [Int.bmod_def]
    omega

theorem prompt_iff (s : State κ) (now : Int) :
    (∃ sleep, s.sleep now = some sleep ∧ Prompt s.d_timers now sleep) ↔ Near s.d_timers now := by
  by_cases hnil : s.d_timers = []
  · rw [sleep_nil hnil, hnil]
    refine iff_of_true ⟨-1, rfl, fun h => ?_, fun h => absurd rfl h, fun _ => rfl⟩ ?_
    · obtain ⟨t, ht, -⟩ := h
      cases ht
    · intro t ht
      cases ht
  · obtain ⟨t, ht, hfirst⟩ := exists_first hnil
    rw [sleep_first ht hfirst]
    by_cases hdue : t.d_expiry ≤ now
    · rw [if_pos hdue]
      refine iff_of_true ⟨0, rfl, fun _ => rfl, fun _ h => ?_, fun h => by cases h⟩ ?_
      · exact absurd (h t ht) (not_lt.mpr hdue)
      · exact fun u _ hu => .inl ((hu t ht).trans hdue)
    · rw [if_neg hdue]
      have hnone : ∀ u ∈ s.d_timers, now < u.d_expiry := fun u hu =>
        (not_le.mp hdue).trans_le (hfirst u hu)
      constructor
      · rintro ⟨sleep, hsleep, hprompt⟩ u hu hfirst'
        obtain ⟨d, hd, hsleep⟩ := Option.bind_eq_some_iff.mp hsleep
        obtain ⟨hrange, hd⟩ := Option.ite_none_right_eq_some.mp hd
        cases hd
        cases hsleep
        have he : u.d_expiry = t.d_expiry := le_antisymm (hfirst' t ht) (hfirst u hu)
        rw [he]
        refine .inr ⟨hrange.2, ?_⟩
        by_contra hge
        have hpos := (hprompt.early hnil hnone).1
        rw [Int.tdiv_eq_ediv_of_nonneg (by omega)] at hpos
        exact absurd hpos (not_le.mpr ((int32_nonneg (by omega)).2 hge))
      · intro hnear
        obtain ⟨hfit, hms⟩ := (hnear t ht hfirst).resolve_left hdue
        have hd : time_left t.d_expiry now = some (t.d_expiry - now) := if_pos ⟨by omega, hfit⟩
        rw [hd]
        obtain ⟨heq, hle⟩ := (int32_nonneg (show 0 ≤ (t.d_expiry - now) / 1000000 by omega)).1 hms
        refine ⟨_, rfl, ?_⟩
        rw [Int.tdiv_eq_ediv_of_nonneg (by omega), heq]
        refine ⟨fun h => ?_, fun _ _ => ⟨by omega, hms, fun u hu => ?_⟩, fun h => by omega⟩
        · obtain ⟨u, hu, hle'⟩ := h
          exact absurd (hnone u hu) (not_lt.mpr hle')
        · have := hfirst u hu
          omega

end PollTimeoutLemmas

open PollTimeoutLemmas

/-- In a call of `poll` every timeout is right exactly if in each turn a first timer is due or
the milliseconds that are left are an `int`, apart from multiples of 2 ^ 32. -/
theorem sleeps_iff (s : State κ) (nows : List Int) :
    (∃ sleeps, s.sleeps nows = some sleeps ∧ List.Forall₂ (Prompt s.d_timers) nows sleeps) ↔
      ∀ now ∈ nows, Near s.d_timers now := by
  induction nows with
  | nil => exact iff_of_true ⟨[], rfl, .nil⟩ (by simp)
  | cons now nows ih =>
    rw [List.forall_mem_cons, ← prompt_iff, ← ih, State.sleeps, List.mapM_cons]
    constructor
    · rintro ⟨sleeps, hsleeps, hall⟩
      obtain ⟨sleep, hsleep, hrest⟩ := Option.bind_eq_some_iff.mp hsleeps
      obtain ⟨rest, hmap, he⟩ := Option.bind_eq_some_iff.mp hrest
      cases he
      obtain ⟨hone, hall⟩ := List.forall₂_cons.mp hall
      exact ⟨⟨sleep, hsleep, hone⟩, rest, hmap, hall⟩
    · rintro ⟨⟨sleep, hsleep, hone⟩, rest, hrest, hall⟩
      refine ⟨sleep :: rest, ?_, .cons hone hall⟩
      rw [hsleep, show nows.mapM s.sleep = some rest from hrest]
      rfl

/-- A timer of thirty days. -/
def exMonth : State Nat := (State.initial 3).do_timer 0 2592000 0 1

/-- A wait without a limit, for a timer that is pending. -/
theorem not_sleeps : ¬ ∀ (s : State Nat) (nows : List Int), ∃ sleeps, s.sleeps nows = some sleeps ∧
    List.Forall₂ (Prompt s.d_timers) nows sleeps := by
  intro hall
  obtain ⟨sleeps, hsleeps, h⟩ := hall exMonth [0]
  obtain rfl : [-1702967296] = sleeps := Option.some.inj hsleeps
  have hearly := (List.forall₂_cons.mp h).1.early (by decide) (by decide)
  exact absurd hearly.1 (by decide)

end Kuhllib.PollContext
