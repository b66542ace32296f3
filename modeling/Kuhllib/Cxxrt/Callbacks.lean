import Kuhllib.Cxxrt.IosBase

/-!
# The reference counts of callbacks

Results:
1. `run_lists`: in every run each stream has the callbacks of lists that are copied, and
   nothing that has been deleted is used.
2. `callbacks_exact_iff`: the runs in which all counts are exact and no callback is leaked.

A new callback takes over the reference of the stream to the old list but counts one of its
own.
-/

namespace Kuhllib.Cxxrt.IosBase

open SharedLists Transition IosBaseLemmas

variable {B L C F : Type}

/-- The streams and callbacks that refer to a callback. -/
def referrers (w : World B L C F) (p : Nat) : Nat := heads w p + w.callbacks.links p

/-- Each stream that exists has the callbacks of the list it would have as a value. -/
def ListsCopied (tr : List (FormatOp B L C F)) (w : World B L C F) : Prop :=
  w.callbacks.undefined = false ∧ ∀ (i : Nat) (s : Format B L C), w.get i = some s →
    ∃ l, w.callbacks.list s.list = some l ∧ (values tr)[i]? = some (some l)

/-- Every count is the number of references, and a callback is deleted, once, with the last
one. -/
def CountsExact (w : World B L C F) : Prop :=
  ∀ (p : Nat) (c : Cell (F × Int)), w.callbacks.cells[p]? = some c →
    c.refcount = referrers w p ∧ c.deletions = if referrers w p = 0 then 1 else 0

/-- A callback is registered with a stream that has none. -/
def OnlyCallback (w : World B L C F) : FormatOp B L C F → Prop
  | .register_callback i _ _ => (w.get i).bind (·.list) = none
  | _ => True

section

variable {w w' : World B L C F} {v : Values F} {leak : Nat → Nat} {op : FormatOp B L C F}
  {tr : List (FormatOp B L C F)}

/-- The counts are exact if nothing is leaked. -/
theorem counts_exact_iff (hc : Consistent w v leak) : CountsExact w ↔ ∀ p, leak p = 0 := by
  constructor
  · intro h p
    by_contra hne
    have hlt := hc.counted.bound p (by omega)
    have hget := List.getElem?_eq_getElem hlt
    obtain ⟨hcount, -⟩ := h p _ hget
    rw [(hc.counted.exact p _ hget).1, referrers] at hcount
    omega
  · intro h p c hget
    have hexact := hc.counted.exact p c hget
    rwa [h p, Nat.add_zero] at hexact

theorem leaked_iff (w : World B L C F) (op : FormatOp B L C F) :
    (∀ p, leaked w op p = 0) ↔ OnlyCallback w op := by
  cases op with
  | register_callback i fn ud =>
    show (∀ p, one ((w.get i).bind (·.list)) p = 0) ↔ (w.get i).bind (·.list) = none
    cases (w.get i).bind (·.list) with
    | none => exact ⟨fun _ => rfl, fun _ _ => rfl⟩
    | some q =>
      refine ⟨fun h => ?_, fun h => nomatch h⟩
      have hq := h q
      rw [one_self] at hq
      cases hq
  | construct sb loc fill => exact ⟨fun _ => trivial, fun _ _ => rfl⟩
  | copyfmt i cpy => exact ⟨fun _ => trivial, fun _ _ => rfl⟩
  | destroy i => exact ⟨fun _ => trivial, fun _ _ => rfl⟩
  | imbue i loc => exact ⟨fun _ => trivial, fun _ _ => rfl⟩
  | set i x => exact ⟨fun _ => trivial, fun _ _ => rfl⟩

theorem Consistent.lists_copied (hc : Consistent w (values tr) leak) : ListsCopied tr w := by
  refine ⟨hc.counted.sound, fun i s hs => ?_⟩
  obtain ⟨hs, ha⟩ := get_iff.mp hs
  obtain ⟨l, hl, hv⟩ := hc.lists i s hs ha
  exact ⟨l, hl.list_eq hc.counted, hv⟩

/-- What a step does to counts that are exact. -/
theorem counts_exact_next (hr : Run (system B L C F) .start tr w) (h : CountsExact w)
    (hnext : next w op = some w') : CountsExact w' ↔ OnlyCallback w op := by
  obtain ⟨leak, hc⟩ := run_consistent hr
  have hzero := (counts_exact_iff hc).mp h
  rw [counts_exact_iff (consistent_next hc hnext), ← leaked_iff]
  refine forall_congr' fun p => ?_
  rw [hzero p, Nat.zero_add]

end

theorem run_lists {w : World B L C F} {tr : List (FormatOp B L C F)}
    (h : Run (system B L C F) .start tr w) : ListsCopied tr w := by
  obtain ⟨leak, hc⟩ := run_consistent h
  exact hc.lists_copied

/-- All along a sequence of operations the lists are those that are copied, and the counts are
exact if and only if no stream registers a second callback. -/
theorem callbacks_exact_iff (tr : List (FormatOp B L C F)) :
    (∀ p w, p <+: tr → Run (system B L C F) .start p w → ListsCopied p w ∧ CountsExact w) ↔
      ∀ p w op w', p ++ [op] <+: tr → Run (system B L C F) .start p w →
        (system B L C F).step w op w' → OnlyCallback w op := by
  refine prefixes_iff (I := fun p w => ListsCopied p w ∧ CountsExact w)
    ⟨run_lists .nil, ?_⟩ fun p w op w' hr h hstep => ?_
  · exact (counts_exact_iff consistent_start).mpr fun _ => rfl
  · rw [and_iff_right (run_lists (hr.snoc hstep)), counts_exact_next hr h.2 hstep]

/-- A stream with two callbacks is destroyed. -/
def two_callbacks : List (FormatOp Unit Unit Unit Unit) :=
  [.construct none () (), .register_callback 0 () 1, .register_callback 0 () 2, .destroy 0]

/-- The first callback is not deleted. -/
theorem not_counts_exact :
    ∃ w, Run (system Unit Unit Unit Unit) .start two_callbacks w ∧ ¬ CountsExact w := by
  refine ⟨(replay next .start two_callbacks).get (by decide),
    run_replay (fun _ _ _ h => h) (by decide), fun h => ?_⟩
  have hcell := h 0 ⟨((), 1), 1, none, 0⟩ (by decide)
  exact absurd hcell.2 (by decide)

end Kuhllib.Cxxrt.IosBase
