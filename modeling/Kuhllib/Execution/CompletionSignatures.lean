import Kuhllib.Execution.Signal
import Mathlib.Data.List.OfFn
import Mathlib.Data.List.Sections
import Mathlib.Logic.Relation

/-!
# Completion signatures

What a sender expression lists as its completions, and what its operation state
delivers. The adaptors compute the list from the list of the sender that they
adapt, apart from the receivers that send the signals.

Types are taken up to cv-qualifiers and references. Functions and predicates are
known by what they may do: which calls return and which ones throw. A function can be
called with whatever arrives at it; an expression for which that is not so does not
compile and has no operation state.

Results:
1. `sound_then`, `sound_let`, `sound_add_value`, `sound_inject_cancel`,
   `sound_repeat_effect_until`, `sound_when_all`: adaptors that list what they deliver.
2. `sound_upon_error`, `sound_upon_stopped`, `sound_timeout`: when the others do.
3. `signatures_sound`: all senders of an expression list what they deliver, if and only if
   the uses of those three in it are harmless.
-/

namespace Kuhllib.CompletionSignatures

/-- The types of a program. The code itself names `std::exception_ptr`. -/
inductive Ty (τ : Type)
  | exception_ptr
  | other (t : τ)
  deriving DecidableEq, Repr

/-- `Tag(Args...)` -/
abbrev Signature (τ : Type) := Signal (Ty τ) (Ty τ)

variable {τ : Type}

def tag : Signature τ → Tag
  | .value _ => .set_value
  | .error _ => .set_error
  | .stopped => .set_stopped

def args : Signature τ → List (Ty τ)
  | .value A => A
  | .error E => [E]
  | .stopped => []

/-! ## 1. Lists of signatures -/

def filter_completions (t : Tag) (l : List (Signature τ)) : List (Signature τ) :=
  l.filter fun c => tag c = t

def join_completions (ls : List (List (Signature τ))) : List (Signature τ) := ls.flatten

/-- `value_types_of_t`: the arguments of each `set_value`. -/
def value_types (l : List (Signature τ)) : List (List (Ty τ)) :=
  l.filterMap fun
    | .value A => some A
    | _ => none

/-- `error_types_of_t` -/
def error_types (l : List (Signature τ)) : List (Ty τ) :=
  l.filterMap fun
    | .error E => some E
    | _ => none

/-- The `variant_t` of the adaptors. -/
def variant_t (Es : List (Ty τ)) : List (Signature τ) := Es.map .error

section

variable [DecidableEq τ]

def sends_stopped (l : List (Signature τ)) : Bool := .stopped ∈ l

def unique_completion_signatures (ts : List (Signature τ)) :
    List (Signature τ) → List (Signature τ)
  | [] => ts
  | s :: ss => unique_completion_signatures (if s ∈ ts then ts else ts ++ [s]) ss

def merge_completion_signatures : List (List (Signature τ)) → List (Signature τ)
  | [] => []
  | l :: ls => ls.foldl unique_completion_signatures l

def add_signatures (l : List (Signature τ)) (c : Signature τ) : List (Signature τ) :=
  if c ∈ l then l else l ++ [c]

/-- The template ignores its parameter `SetStopped`, and no adaptor passes `SetError`. -/
def make_completion_signatures (l add : List (Signature τ))
    (SetValue : List (Ty τ) → List (Signature τ)) : List (Signature τ) :=
  merge_completion_signatures
    [add, merge_completion_signatures ((value_types l).map SetValue),
      merge_completion_signatures ((error_types l).map fun E => [.error E]),
      if sends_stopped l then [.stopped] else []]

end

namespace CompletionSignaturesLemmas

variable {l : List (Signature τ)} {c : Signature τ}

@[simp]
theorem mem_filter_completions {t : Tag} : c ∈ filter_completions t l ↔ c ∈ l ∧ tag c = t := by
  simp [filter_completions]

@[simp]
theorem mem_value_types {A : List (Ty τ)} : A ∈ value_types l ↔ .value A ∈ l := by
  simp only [value_types, List.mem_filterMap]
  refine ⟨?_, fun h => ⟨_, h, rfl⟩⟩
  rintro ⟨c, hc, he⟩
  cases c with
  | value B => exact Option.some.inj he ▸ hc
  | error E => cases he
  | stopped => cases he

@[simp]
theorem mem_error_types {E : Ty τ} : E ∈ error_types l ↔ .error E ∈ l := by
  simp only [error_types, List.mem_filterMap]
  refine ⟨?_, fun h => ⟨_, h, rfl⟩⟩
  rintro ⟨c, hc, he⟩
  cases c with
  | error F => exact Option.some.inj he ▸ hc
  | value B => cases he
  | stopped => cases he

variable [DecidableEq τ]

@[simp]
theorem mem_unique {ts : List (Signature τ)} :
    c ∈ unique_completion_signatures ts l ↔ c ∈ ts ∨ c ∈ l := by
  induction l generalizing ts with
  | nil => simp [unique_completion_signatures]
  | cons s ss ih =>
    rw [unique_completion_signatures, ih, List.mem_cons]
    split
    · next hs =>
      refine ⟨Or.imp id .inr, ?_⟩
      rintro (h | rfl | h)
      · exact .inl h
      · exact .inl hs
      · exact .inr h
    · simp [or_assoc]

@[simp]
theorem mem_merge {ls : List (List (Signature τ))} :
    c ∈ merge_completion_signatures ls ↔ ∃ l ∈ ls, c ∈ l := by
  have hfold : ∀ (ls : List (List (Signature τ))) l,
      c ∈ ls.foldl unique_completion_signatures l ↔ c ∈ l ∨ ∃ l' ∈ ls, c ∈ l' := by
    intro ls
    induction ls with
    | nil => simp
    | cons l' ls ih =>
      intro l
      rw [List.foldl_cons, ih, mem_unique]
      simp [or_assoc]
  cases ls with
  | nil => simp [merge_completion_signatures]
  | cons l ls => simp [merge_completion_signatures, hfold]

@[simp]
theorem mem_add_signatures {d : Signature τ} : c ∈ add_signatures l d ↔ c ∈ l ∨ c = d := by
  unfold add_signatures
  split
  · next h =>
    refine ⟨.inl, ?_⟩
    rintro (h' | rfl)
    · exact h'
    · exact h
  · simp

/-- What `make_completion_signatures` puts into the list. -/
theorem mem_make {add : List (Signature τ)} {SetValue : List (Ty τ) → List (Signature τ)} :
    c ∈ make_completion_signatures l add SetValue ↔
      c ∈ add ∨ (∃ A, .value A ∈ l ∧ c ∈ SetValue A) ∨ (∃ E, .error E ∈ l ∧ c = .error E) ∨
        (.stopped ∈ l ∧ c = .stopped) := by
  have hstop : c ∈ (if sends_stopped l then [.stopped] else [] : List (Signature τ)) ↔
      .stopped ∈ l ∧ c = .stopped := by
    by_cases hs : .stopped ∈ l <;> simp [sends_stopped, hs]
  unfold make_completion_signatures
  simp only [mem_merge, List.mem_cons, List.not_mem_nil, or_false, exists_eq_or_imp,
    exists_eq_left, hstop, List.mem_map, exists_exists_and_eq_and, mem_value_types, mem_error_types]

end CompletionSignaturesLemmas

open CompletionSignaturesLemmas

/-! ## 2. Sender expressions -/

/-- A function: its result types, where `none` is `void`, and whether a call may return or
throw. -/
structure Fun (τ : Type) where
  result : List (Ty τ) → Option (Ty τ)
  nothrow : List (Ty τ) → Bool
  returns : List (Ty τ) → Bool
  throws : List (Ty τ) → Bool
  -- an exception does not leave a `noexcept` function
  contained : ∀ A, nothrow A = true → throws A = false

/-- Whether the predicate may be true, and whether it or a copy of the sender may throw. -/
structure Predicate where
  accepts : Bool
  throws : Bool

/-- The token of `inject_cancel` is known by whether it can be stopped. -/
inductive Sender (τ : Type)
  | just (A : List (Ty τ))
  | just_error (E : Ty τ)
  | just_stopped
  | then_sender (t : Tag) (s : Sender τ) (f : Fun τ)
  | let_sender (t : Tag) (s : Sender τ) (f : List (Ty τ) → Sender τ)
  | add_value (s : Sender τ) (B : List (Ty τ))
  | inject_cancel (s : Sender τ) (stoppable : Bool)
  | repeat_effect_until (s : Sender τ) (p : Predicate)
  | when_all {n : ℕ} (ss : Fin (n + 1) → Sender τ)
  | timeout (s : Sender τ)

namespace Sender

def then_t (s : Sender τ) (f : Fun τ) : Sender τ := .then_sender .set_value s f

def upon_error (s : Sender τ) (f : Fun τ) : Sender τ := .then_sender .set_error s f

def upon_stopped (s : Sender τ) (f : Fun τ) : Sender τ := .then_sender .set_stopped s f

def let_value (s : Sender τ) (f : List (Ty τ) → Sender τ) : Sender τ := .let_sender .set_value s f

def let_error (s : Sender τ) (f : List (Ty τ) → Sender τ) : Sender τ := .let_sender .set_error s f

def let_stopped (s : Sender τ) (f : List (Ty τ) → Sender τ) : Sender τ :=
  .let_sender .set_stopped s f

end Sender

/-- `compl_sig_t` of `set_value_t` and the result of a function. -/
def Fun.set_value (f : Fun τ) (A : List (Ty τ)) : Signature τ := .value (f.result A).toList

/-- `let::rest` -/
def rest (t : Tag) (l : List (Signature τ)) : List (Signature τ) :=
  match t with
  | .set_value =>
    join_completions [filter_completions .set_error l, filter_completions .set_stopped l]
  | .set_error =>
    join_completions [filter_completions .set_value l, filter_completions .set_stopped l]
  | .set_stopped =>
    join_completions [filter_completions .set_value l, filter_completions .set_error l]

section

variable [DecidableEq τ]

/-- `when_all` compiles where each sender lists one `set_value`: then `set_value_list` is the one
concatenation of them. -/
def set_value_list (ls : List (List (Signature τ))) : List (Signature τ) :=
  (ls.map value_types).sections.map fun As => .value As.flatten

def set_error_list (ls : List (List (Signature τ))) : List (Signature τ) :=
  merge_completion_signatures (ls.map fun l => variant_t (error_types l))

def get_completion_signatures : Sender τ → List (Signature τ)
  | .just A => [.value A, .error .exception_ptr]
  | .just_error E => [.error E, .error .exception_ptr]
  | .just_stopped => [.stopped, .error .exception_ptr]
  | .then_sender .set_value s f =>
    let l := get_completion_signatures s
    make_completion_signatures l
      (merge_completion_signatures
        [if (value_types l).any fun A => !f.nothrow A then [.error .exception_ptr] else [],
          variant_t (error_types l)])
      fun A => [f.set_value A]
  | .then_sender .set_error _ _ => []
  -- the last argument is in the place of `SetValue`
  | .then_sender .set_stopped s f =>
    make_completion_signatures (get_completion_signatures s) [f.set_value []] fun _ => [.stopped]
  | .let_sender t s f =>
    let l := get_completion_signatures s
    join_completions
      [join_completions ((filter_completions t l).map fun c => get_completion_signatures (f (args c))),
        rest t l]
  | .add_value s B =>
    make_completion_signatures (get_completion_signatures s) [] fun A => [.value (A ++ B)]
  | .inject_cancel s _ => add_signatures (get_completion_signatures s) .stopped
  | .repeat_effect_until s _ =>
    merge_completion_signatures
      [[.value [], .error .exception_ptr, .stopped],
        variant_t (error_types (get_completion_signatures s))]
  | .when_all ss =>
    let ls := List.ofFn fun i => get_completion_signatures (ss i)
    merge_completion_signatures [set_value_list ls, set_error_list ls, [.stopped]]
  | .timeout _ => []

/-! ## 3. Deliveries -/

/-- `Delivers stop s c`: the operation state of `s` may complete its receiver with `c`.
The stop token of the receiver may be stopped in the meantime if `stop` holds.

The operations complete in `start`, if they do: `when_all` starts its senders one after the
other, and `timeout` starts the timer after the sender. -/
inductive Delivers : Bool → Sender τ → Signature τ → Prop
  -- the receivers do not throw, so the `catch` of `just` is not reached
  | just {stop A} : Delivers stop (.just A) (.value A)
  | just_error {stop E} : Delivers stop (.just_error E) (.error E)
  | just_stopped {stop} : Delivers stop .just_stopped .stopped
  | then_call {stop t s f c} : Delivers stop s c → tag c = t → f.returns (args c) = true →
      Delivers stop (.then_sender t s f) (f.set_value (args c))
  | then_catch {stop t s f c} : Delivers stop s c → tag c = t → f.throws (args c) = true →
      Delivers stop (.then_sender t s f) (.error .exception_ptr)
  | then_forward {stop t s f c} : Delivers stop s c → tag c ≠ t → Delivers stop (.then_sender t s f) c
  -- an exception of `f` ends the program
  | let_call {stop t s f c c'} : Delivers stop s c → tag c = t → Delivers stop (f (args c)) c' →
      Delivers stop (.let_sender t s f) c'
  | let_forward {stop t s f c} : Delivers stop s c → tag c ≠ t → Delivers stop (.let_sender t s f) c
  -- no `set_stopped`: the template of the receiver cannot be called
  | add_value {stop s B A} : Delivers stop s (.value A) →
      Delivers stop (.add_value s B) (.value (A ++ B))
  | add_value_error {stop s B E} : Delivers stop s (.error E) → Delivers stop (.add_value s B) (.error E)
  | inject_cancel {stop s stoppable c} : Delivers stoppable s c →
      Delivers stop (.inject_cancel s stoppable) c
  -- a later round of `next` does what the first one may do
  | repeat_stopped {s p A} : Delivers true s (.value A) →
      Delivers true (.repeat_effect_until s p) .stopped
  | repeat_done {stop s p A} : Delivers stop s (.value A) → p.accepts = true →
      Delivers stop (.repeat_effect_until s p) (.value [])
  | repeat_catch {stop s p A} : Delivers stop s (.value A) → p.throws = true →
      Delivers stop (.repeat_effect_until s p) (.error .exception_ptr)
  | repeat_forward {stop s p c} : Delivers stop s c → tag c ≠ .set_value →
      Delivers stop (.repeat_effect_until s p) c
  -- the values are stored under the types that the senders list
  | when_all_value {stop n} {ss : Fin (n + 1) → Sender τ} (A B : Fin (n + 1) → List (Ty τ)) :
      (∀ i, Delivers stop (ss i) (.value (A i))) →
      (∀ i, B i ∈ value_types (get_completion_signatures (ss i))) →
      Delivers stop (.when_all ss) (.value (List.ofFn B).flatten)
  -- so is the first error, in a variant
  | when_all_error {stop n} {ss : Fin (n + 1) → Sender τ} (cs : Fin (n + 1) → Signature τ)
      (i : Fin (n + 1)) {E F : Ty τ} :
      (∀ j, j ≤ i → Delivers stop (ss j) (cs j)) → (∀ j, i < j → Delivers true (ss j) (cs j)) →
      (∀ j, j < i → tag (cs j) = .set_value) → cs i = .error E →
      .error F ∈ set_error_list (List.ofFn fun i => get_completion_signatures (ss i)) →
      (.error E ∈ set_error_list (List.ofFn fun i => get_completion_signatures (ss i)) → F = E) →
      Delivers stop (.when_all ss) (.error F)
  | when_all_stopped {stop n} {ss : Fin (n + 1) → Sender τ} (cs : Fin (n + 1) → Signature τ)
      (i : Fin (n + 1)) :
      (∀ j, j ≤ i → Delivers stop (ss j) (cs j)) → (∀ j, i < j → Delivers true (ss j) (cs j)) →
      (∀ j, j < i → tag (cs j) = .set_value) → cs i = .stopped →
      Delivers stop (.when_all ss) .stopped
  -- `d_values` and `d_errors` are never set: the receiver of the sender drops both
  | timeout {stop s} : Delivers false s .stopped → Delivers stop (.timeout s) .stopped

/-- The sender lists what its operation state delivers. -/
def Sound (s : Sender τ) : Prop :=
  ∀ stop c, Delivers stop s c → c ∈ get_completion_signatures s

namespace CompletionSignaturesLemmas

variable {s : Sender τ} {c : Signature τ}

omit [DecidableEq τ] in
/-- The signatures other than those of `set_value`. -/
theorem mem_errors_stopped {l : List (Signature τ)} :
    ((∃ E, .error E ∈ l ∧ c = .error E) ∨ (.stopped ∈ l ∧ c = .stopped)) ↔
      tag c ≠ .set_value ∧ c ∈ l := by
  cases c <;> simp [tag]

omit [DecidableEq τ] in
theorem mem_throwing {f : Fun τ} {l : List (Signature τ)} :
    c ∈ (if (value_types l).any fun A => !f.nothrow A then [.error .exception_ptr]
        else [] : List (Signature τ)) ↔
      ∃ A, .value A ∈ l ∧ f.nothrow A = false ∧ c = .error .exception_ptr := by
  by_cases h : ∃ A, .value A ∈ l ∧ f.nothrow A = false
  · obtain ⟨A, hA, hn⟩ := h
    rw [if_pos (List.any_eq_true.mpr ⟨A, by simpa using hA, by simp [hn]⟩), List.mem_singleton]
    refine ⟨fun hc => ⟨A, hA, hn, hc⟩, ?_⟩
    rintro ⟨_, _, _, hc⟩
    exact hc
  · rw [if_neg fun hany => h ?_]
    · refine ⟨fun hc => absurd hc List.not_mem_nil, ?_⟩
      rintro ⟨A, hA, hn, -⟩
      exact absurd ⟨A, hA, hn⟩ h
    · obtain ⟨A, hA, hn⟩ := List.any_eq_true.mp hany
      exact ⟨A, by simpa using hA, by simpa using hn⟩

theorem mem_then {f : Fun τ} : c ∈ get_completion_signatures (s.then_t f) ↔
    (∃ A, .value A ∈ get_completion_signatures s ∧
      (c = f.set_value A ∨ f.nothrow A = false ∧ c = .error .exception_ptr)) ∨
    (tag c ≠ .set_value ∧ c ∈ get_completion_signatures s) := by
  simp only [Sender.then_t, get_completion_signatures, mem_make, mem_merge, List.mem_cons,
    List.not_mem_nil, or_false, exists_eq_or_imp, exists_eq_left, mem_throwing, mem_errors_stopped,
    variant_t, List.mem_map, mem_error_types]
  constructor
  · rintro ((⟨A, hA, hn, rfl⟩ | ⟨E, hE, rfl⟩) | ⟨A, hA, rfl⟩ | hc)
    · exact .inl ⟨A, hA, .inr ⟨hn, rfl⟩⟩
    · exact .inr ⟨by simp [tag], hE⟩
    · exact .inl ⟨A, hA, .inl rfl⟩
    · exact .inr hc
  · rintro (⟨A, hA, rfl | ⟨hn, rfl⟩⟩ | hc)
    · exact .inr (.inl ⟨A, hA, rfl⟩)
    · exact .inl (.inl ⟨A, hA, hn, rfl⟩)
    · exact .inr (.inr hc)

/-- `just(17) | then(f)`, where `f` returns `void` and may throw. -/
example : get_completion_signatures ((Sender.just [.other 17]).then_t
    ⟨fun _ => none, fun _ => false, fun _ => true, fun _ => true, nofun⟩) =
      [.error .exception_ptr, .value []] := by decide

theorem mem_upon_stopped {f : Fun τ} : c ∈ get_completion_signatures (s.upon_stopped f) ↔
    c = f.set_value [] ∨ ((∃ A, .value A ∈ get_completion_signatures s) ∧ c = .stopped) ∨
      (tag c ≠ .set_value ∧ c ∈ get_completion_signatures s) := by
  simp only [Sender.upon_stopped, get_completion_signatures, mem_make, mem_errors_stopped,
    List.mem_singleton, exists_and_right]

theorem mem_let {t : Tag} {f : List (Ty τ) → Sender τ} :
    c ∈ get_completion_signatures (.let_sender t s f) ↔
      (∃ d ∈ get_completion_signatures s, tag d = t ∧ c ∈ get_completion_signatures (f (args d))) ∨
      (tag c ≠ t ∧ c ∈ get_completion_signatures s) := by
  have hrest : c ∈ rest t (get_completion_signatures s) ↔
      tag c ≠ t ∧ c ∈ get_completion_signatures s := by
    cases t <;> cases c <;> simp [rest, join_completions, tag]
  have hcalls : c ∈ join_completions ((filter_completions t (get_completion_signatures s)).map
        fun d => get_completion_signatures (f (args d))) ↔
      ∃ d ∈ get_completion_signatures s, tag d = t ∧ c ∈ get_completion_signatures (f (args d)) := by
    simp [join_completions, and_assoc]
  rw [get_completion_signatures, join_completions, ← hcalls, ← hrest]
  simp

theorem mem_add_value {B : List (Ty τ)} : c ∈ get_completion_signatures (s.add_value B) ↔
    (∃ A, .value A ∈ get_completion_signatures s ∧ c = .value (A ++ B)) ∨
      (tag c ≠ .set_value ∧ c ∈ get_completion_signatures s) := by
  simp only [get_completion_signatures, mem_make, mem_errors_stopped, List.not_mem_nil, false_or,
    List.mem_singleton]

theorem mem_repeat {p : Predicate} : c ∈ get_completion_signatures (s.repeat_effect_until p) ↔
    c = .value [] ∨ c = .error .exception_ptr ∨ c = .stopped ∨
      ∃ E, .error E ∈ get_completion_signatures s ∧ c = .error E := by
  simp only [get_completion_signatures, mem_merge, List.mem_cons, List.not_mem_nil, or_false,
    exists_eq_or_imp, exists_eq_left, variant_t, List.mem_map, mem_error_types, or_assoc, eq_comm]

omit [DecidableEq τ] in
/-- The choices of one element of each list. -/
theorem mem_sections_ofFn {n : ℕ} {L : Fin n → List (List (Ty τ))} {l : List (List (Ty τ))} :
    l ∈ (List.ofFn L).sections ↔
      ∃ B : Fin n → List (Ty τ), (∀ i, B i ∈ L i) ∧ List.ofFn B = l := by
  rw [List.mem_sections, List.forall₂_iff_get]
  constructor
  · rintro ⟨hlen, hmem⟩
    rw [List.length_ofFn] at hlen
    subst hlen
    exact ⟨l.get, fun i => by simpa using hmem i i.2 (by simp), List.ofFn_get l⟩
  · rintro ⟨B, hB, rfl⟩
    exact ⟨by simp, fun i hi hi' => by simpa using hB ⟨i, by simpa using hi⟩⟩

theorem mem_when_all {n : ℕ} {ss : Fin (n + 1) → Sender τ} :
    c ∈ get_completion_signatures (.when_all ss) ↔
      (∃ B : Fin (n + 1) → List (Ty τ), (∀ i, .value (B i) ∈ get_completion_signatures (ss i)) ∧
        c = .value (List.ofFn B).flatten) ∨
      c ∈ set_error_list (List.ofFn fun i => get_completion_signatures (ss i)) ∨ c = .stopped := by
  have hvalue : c ∈ set_value_list (List.ofFn fun i => get_completion_signatures (ss i)) ↔
      ∃ B : Fin (n + 1) → List (Ty τ), (∀ i, .value (B i) ∈ get_completion_signatures (ss i)) ∧
        c = .value (List.ofFn B).flatten := by
    simp only [set_value_list, List.mem_map, List.map_ofFn, mem_sections_ofFn, Function.comp_apply,
      mem_value_types]
    constructor
    · rintro ⟨_, ⟨B, hB, rfl⟩, rfl⟩
      exact ⟨B, hB, rfl⟩
    · rintro ⟨B, hB, rfl⟩
      exact ⟨_, ⟨B, hB, rfl⟩, rfl⟩
  simp only [get_completion_signatures, mem_merge, List.mem_cons, List.not_mem_nil, or_false,
    exists_eq_or_imp, exists_eq_left, hvalue]

end CompletionSignaturesLemmas

/-! ## 4. Soundness -/

section

variable {s : Sender τ}

theorem sound_then {f : Fun τ} (h : Sound s) : Sound (s.then_t f) := by
  intro stop c hd
  unfold Sender.then_t at hd
  rw [mem_then]
  cases hd with
  | @then_call _ _ _ _ c hs ht _ =>
    cases c with
    | value A => exact .inl ⟨A, h _ _ hs, .inl rfl⟩
    | error E => cases ht
    | stopped => cases ht
  | @then_catch _ _ _ _ c hs ht hthrow =>
    cases c with
    | value A =>
      have hn : f.nothrow A = false := by
        by_contra hn
        have := f.contained A (by simpa using hn)
        rw [show f.throws A = true from hthrow] at this
        cases this
      exact .inl ⟨A, h _ _ hs, .inr ⟨hn, rfl⟩⟩
    | error E => cases ht
    | stopped => cases ht
  | then_forward hs hne => exact .inr ⟨hne, h _ _ hs⟩

theorem sound_let {t : Tag} {f : List (Ty τ) → Sender τ} (h : Sound s)
    (hf : ∀ c ∈ get_completion_signatures s, tag c = t → Sound (f (args c))) :
    Sound (.let_sender t s f) := by
  intro stop c hd
  rw [mem_let]
  cases hd with
  | let_call hs ht hc => exact .inl ⟨_, h _ _ hs, ht, hf _ (h _ _ hs) ht _ _ hc⟩
  | let_forward hs hne => exact .inr ⟨hne, h _ _ hs⟩

theorem sound_add_value {B : List (Ty τ)} (h : Sound s) : Sound (s.add_value B) := by
  intro stop c hd
  rw [mem_add_value]
  cases hd with
  | add_value hs => exact .inl ⟨_, h _ _ hs, rfl⟩
  | add_value_error hs => exact .inr ⟨by simp [tag], h _ _ hs⟩

theorem sound_inject_cancel {stoppable : Bool} (h : Sound s) :
    Sound (s.inject_cancel stoppable) := by
  intro stop c hd
  cases hd with
  | inject_cancel hs => exact mem_add_signatures.mpr (.inl (h _ _ hs))

theorem sound_repeat_effect_until {p : Predicate} (h : Sound s) :
    Sound (s.repeat_effect_until p) := by
  intro stop c hd
  rw [mem_repeat]
  cases hd with
  | repeat_stopped hs => exact .inr (.inr (.inl rfl))
  | repeat_done hs _ => exact .inl rfl
  | repeat_catch hs _ => exact .inr (.inl rfl)
  | repeat_forward hs hne =>
    cases c with
    | value A => exact absurd rfl hne
    | error E => exact .inr (.inr (.inr ⟨E, h _ _ hs, rfl⟩))
    | stopped => exact .inr (.inr (.inl rfl))

/-- The storage makes it so, whatever the senders deliver. -/
theorem sound_when_all {n : ℕ} (ss : Fin (n + 1) → Sender τ) : Sound (.when_all ss) := by
  intro stop c hd
  rw [mem_when_all]
  cases hd with
  | when_all_value A B _ hB => exact .inl ⟨B, fun i => mem_value_types.mp (hB i), rfl⟩
  | when_all_error cs i _ _ _ _ hF _ => exact .inr (.inl hF)
  | when_all_stopped cs i _ _ _ _ => exact .inr (.inr rfl)

/-- `upon_error` lists nothing. -/
theorem sound_upon_error {f : Fun τ} : Sound (s.upon_error f) ↔
    ∀ stop c, Delivers stop s c →
      tag c = .set_error ∧ f.returns (args c) = false ∧ f.throws (args c) = false := by
  have hnone : Sound (s.upon_error f) ↔ ∀ stop c, ¬ Delivers stop (s.upon_error f) c :=
    forall₂_congr fun _ _ => ⟨fun h hd => absurd (h hd) List.not_mem_nil, fun h hd => absurd hd h⟩
  rw [hnone]
  constructor
  · intro h stop c hs
    by_cases ht : tag c = .set_error
    · refine ⟨ht, ?_, ?_⟩
      · by_contra hr
        exact h _ _ (.then_call hs ht (by simpa using hr))
      · by_contra hthrow
        exact h _ _ (.then_catch hs ht (by simpa using hthrow))
    · exact absurd (.then_forward hs ht) (h _ _)
  · intro h stop c hd
    cases hd with
    | then_call hs _ hr =>
      rw [(h _ _ hs).2.1] at hr
      cases hr
    | then_catch hs _ hthrow =>
      rw [(h _ _ hs).2.2] at hthrow
      cases hthrow
    | then_forward hs hne => exact hne (h _ _ hs).1

/-- `upon_stopped` does not list the values of its sender, nor what its function throws. -/
theorem sound_upon_stopped {f : Fun τ} (h : Sound s) : Sound (s.upon_stopped f) ↔
    (∀ stop A, Delivers stop s (.value A) → A = (f.result []).toList) ∧
      ∀ stop, Delivers stop s .stopped → f.throws [] = true →
        .exception_ptr ∈ error_types (get_completion_signatures s) := by
  constructor
  · refine fun hu => ⟨fun stop A hs => ?_, fun stop hs hthrow => ?_⟩
    · rcases mem_upon_stopped.mp (hu _ _ (.then_forward hs (by simp [tag]))) with hc | ⟨-, hc⟩ | ⟨hne, -⟩
      · exact Signal.value.inj hc
      · cases hc
      · exact absurd rfl hne
    · rcases mem_upon_stopped.mp (hu _ _ (.then_catch hs rfl hthrow)) with hc | ⟨-, hc⟩ | ⟨-, hc⟩
      · cases hc
      · cases hc
      · exact mem_error_types.mpr hc
  · rintro ⟨hvalue, hthrown⟩ stop c hd
    rw [mem_upon_stopped]
    cases hd with
    | @then_call _ _ _ _ c hs ht _ =>
      cases c with
      | stopped => exact .inl rfl
      | value A => cases ht
      | error E => cases ht
    | @then_catch _ _ _ _ c hs ht hthrow =>
      cases c with
      | stopped => exact .inr (.inr ⟨by simp [tag], mem_error_types.mp (hthrown _ hs hthrow)⟩)
      | value A => cases ht
      | error E => cases ht
    | then_forward hs hne =>
      cases c with
      | value A => exact .inl (congrArg Signal.value (hvalue _ A hs))
      | error E => exact .inr (.inr ⟨by simp [tag], h _ _ hs⟩)
      | stopped => exact absurd rfl hne

/-- `timeout` lists nothing. -/
theorem sound_timeout : Sound s.timeout ↔ ¬ Delivers false s .stopped := by
  refine ⟨fun h hs => ?_, fun h stop c hd => ?_⟩
  · exact absurd (h false _ (.timeout hs)) List.not_mem_nil
  · cases hd with
    | timeout hs => exact absurd hs h

theorem sound_just (A : List (Ty τ)) : Sound (.just A) := by
  intro stop c hd
  cases hd with
  | just => exact List.mem_cons_self

theorem sound_just_error (E : Ty τ) : Sound (.just_error E) := by
  intro stop c hd
  cases hd with
  | just_error => exact List.mem_cons_self

theorem sound_just_stopped : Sound (.just_stopped : Sender τ) := by
  intro stop c hd
  cases hd with
  | just_stopped => exact List.mem_cons_self

/-! ## 5. Expressions -/

/-- The senders that an adaptor connects: the one that it adapts, and those that the function
of `let` returns for what that one lists. -/
inductive Child : Sender τ → Sender τ → Prop
  | then_sender {t r f} : Child r (.then_sender t r f)
  | let_sender {t r f} : Child r (.let_sender t r f)
  | let_call {t r f c} : c ∈ get_completion_signatures r → tag c = t →
      Child (f (args c)) (.let_sender t r f)
  | add_value {r B} : Child r (.add_value r B)
  | inject_cancel {r stoppable} : Child r (.inject_cancel r stoppable)
  | repeat_effect_until {r p} : Child r (.repeat_effect_until r p)
  | when_all {n i} {rs : Fin (n + 1) → Sender τ} : Child (rs i) (.when_all rs)
  | timeout {r} : Child r (.timeout r)

/-- The sender expressions that an expression is built from, itself included. -/
def Part : Sender τ → Sender τ → Prop := Relation.ReflTransGen Child

/-- Where an adaptor does no harm:
* `upon_error` over a sender that completes, if at all, with errors for which the function
  neither returns nor throws;
* `upon_stopped` over a sender that completes with `set_value`, if at all, as its function does,
  and that lists `exception_ptr` if the function may throw;
* `timeout` over a sender that is not stopped before the timer is started. -/
def Harmless : Sender τ → Prop
  | .then_sender .set_error s f => ∀ stop c, Delivers stop s c →
    tag c = .set_error ∧ f.returns (args c) = false ∧ f.throws (args c) = false
  | .then_sender .set_stopped s f =>
    (∀ stop A, Delivers stop s (.value A) → A = (f.result []).toList) ∧
      ∀ stop, Delivers stop s .stopped → f.throws [] = true →
        .exception_ptr ∈ error_types (get_completion_signatures s)
  | .timeout s => ¬ Delivers false s .stopped
  | _ => True

/-- An adaptor over senders that list what they deliver. -/
theorem sound_iff_harmless (h : ∀ r, Child r s → Sound r) : Sound s ↔ Harmless s := by
  cases s with
  | just A => exact iff_of_true (sound_just A) trivial
  | just_error E => exact iff_of_true (sound_just_error E) trivial
  | just_stopped => exact iff_of_true sound_just_stopped trivial
  | then_sender t s f =>
    cases t with
    | set_value => exact iff_of_true (sound_then (h s .then_sender)) trivial
    | set_error => exact sound_upon_error
    | set_stopped => exact sound_upon_stopped (h s .then_sender)
  | let_sender t s f =>
    exact iff_of_true (sound_let (h s .let_sender) fun c hc ht => h _ (.let_call hc ht)) trivial
  | add_value s B => exact iff_of_true (sound_add_value (h s .add_value)) trivial
  | inject_cancel s stoppable => exact iff_of_true (sound_inject_cancel (h s .inject_cancel)) trivial
  | repeat_effect_until s p =>
    exact iff_of_true (sound_repeat_effect_until (h s .repeat_effect_until)) trivial
  | when_all ss => exact iff_of_true (sound_when_all ss) trivial
  | timeout s => exact sound_timeout

theorem child_acc (s : Sender τ) : Acc Child s := by
  induction s with
  | just A | just_error E | just_stopped => exact ⟨_, fun r h => by cases h⟩
  | let_sender t s f ih ihf =>
    refine ⟨_, fun r h => ?_⟩
    cases h with
    | let_sender => exact ih
    | let_call _ _ => exact ihf _
  | when_all ss ih =>
    refine ⟨_, fun r h => ?_⟩
    cases h with
    | when_all => exact ih _
  | then_sender t s f ih | add_value s B ih | inject_cancel s stoppable ih
  | repeat_effect_until s p ih | timeout s ih =>
    refine ⟨_, fun r h => ?_⟩
    cases h
    exact ih

/-- All senders of an expression list what they deliver, if and only if all are harmless. -/
theorem signatures_sound (s : Sender τ) :
    (∀ r, Part r s → Sound r) ↔ ∀ r, Part r s → Harmless r := by
  constructor
  · intro h r hr
    exact (sound_iff_harmless fun r' hr' => h r' (hr.head hr')).mp (h r hr)
  · intro h r hr
    -- from the innermost senders outwards
    induction r using WellFounded.induction ⟨child_acc (τ := τ)⟩ with
    | _ r ih => exact (sound_iff_harmless fun r' hr' => ih r' hr' (hr.head hr')).mpr (h r hr)

/-- `timeout(just_stopped(), scheduler, time)` completes with `set_stopped`, and lists nothing. -/
theorem stop_not_listed : ¬ ∀ s : Sender ℕ, Sound s := by
  intro h
  exact absurd (h (.timeout .just_stopped) true _ (.timeout .just_stopped)) List.not_mem_nil

end

end

end Kuhllib.CompletionSignatures
