import Kuhllib.Cxxrt.NumGet

/-!
# `num_get`: booleans

With `boolalpha` the input is compared with the name of the value that the target has already, and
with no other. The target is not written, the end alone is no failure, and it is not looked for
behind the name.

Results:
1. `match_name_spec`: how far a name and the input agree.
2. `reads_bool_iff`: when the boolean is read that the input names.
-/

namespace Kuhllib.Cxxrt

/-- The names of `numpunct`. -/
structure BoolNames where
  truename : List Int
  falsename : List Int
  deriving DecidableEq, Repr

/-- `_CS_match`. -/
def BoolNames.name (np : BoolNames) (val : Bool) : List Int :=
  if val then np.truename else np.falsename

/-- The loop over a name and the input; what is left of both. -/
def match_name : List Int → List Int → List Int × List Int
  | [], begin => ([], begin)
  | x :: sit, [] => (x :: sit, [])
  | x :: sit, c :: begin => if x = c then match_name sit begin else (x :: sit, c :: begin)

/-- `do_get` for `bool`; `lval` is not initialised. -/
def get_bool (t : Cache) (np : BoolNames) (boolalpha : Bool) (bf : Basefield) (begin : List Int)
    (lval : Int) (val : Bool) : Got Bool :=
  if !boolalpha then
    let g := get_signed_integer t bf begin lval
    if g.failbit then ⟨g.begin, true, g.eofbit, val⟩
    else if g.val = 0 then ⟨g.begin, false, g.eofbit, false⟩
    else if g.val = 1 then ⟨g.begin, false, g.eofbit, true⟩
    else ⟨g.begin, true, g.eofbit, val⟩
  else
    let (sit, begin) := match_name (np.name val) begin
    if sit.isEmpty then ⟨begin, false, false, val⟩
    else if begin.isEmpty then ⟨begin, false, true, val⟩
    else ⟨begin, true, false, val⟩

/-! ## What is to be read -/

/-- The longest name at the beginning of the input. -/
def BoolNames.Longest (np : BoolNames) (input : List Int) (val : Bool) : Prop :=
  np.name val <+: input ∧
    (np.name (!val) <+: input → (np.name (!val)).length < (np.name val).length)

/-- The boolean that the input names is stored. -/
structure ReadsBool (np : BoolNames) (input : List Int) (val : Bool) (g : Got Bool) : Prop where
  named : ∀ v, np.Longest input v → g.val = v ∧ g.failbit = false
  unnamed : (∀ v, ¬np.Longest input v) → g.val = val ∧ g.failbit = true
  consumed : ∃ p, input = p ++ g.begin ∧ (p <+: np.truename ∨ p <+: np.falsename)
  eofbit : g.eofbit = true ↔ g.begin = []

namespace BoolNamesLemmas

variable {np : BoolNames} {input name : List Int} {val : Bool}

/-! ## 1. The loop -/

theorem match_name_spec (name input : List Int) :
    (∃ p, name = p ++ (match_name name input).1 ∧ input = p ++ (match_name name input).2) ∧
      ((match_name name input).1 = [] ↔ name <+: input) ∧
      ((match_name name input).2 = [] ↔ input <+: name) := by
  induction name generalizing input with
  | nil =>
    exact ⟨⟨[], rfl, rfl⟩, iff_of_true rfl List.nil_prefix, List.prefix_nil.symm⟩
  | cons x name ih =>
    cases input with
    | nil =>
      exact ⟨⟨[], rfl, rfl⟩, List.prefix_nil.symm, iff_of_true rfl List.nil_prefix⟩
    | cons c input =>
      rw [match_name, List.cons_prefix_cons, List.cons_prefix_cons]
      by_cases hc : x = c
      · obtain ⟨⟨p, hname, hinput⟩, hleft, hrest⟩ := ih input
        rw [if_pos hc, and_iff_right hc, and_iff_right hc.symm]
        exact ⟨⟨x :: p, congrArg (x :: ·) hname, by rw [hc]; exact congrArg (c :: ·) hinput⟩, hleft,
          hrest⟩
      · rw [if_neg hc]
        exact ⟨⟨[], rfl, rfl⟩, iff_of_false (List.cons_ne_nil _ _) fun hand => hc hand.1,
          iff_of_false (List.cons_ne_nil _ _) fun hand => hc hand.1.symm⟩

/-! ## 2. The target -/

theorem prefix_name {p : List Int} (h : p <+: np.name val) :
    p <+: np.truename ∨ p <+: np.falsename := by
  cases val with
  | true => exact .inl h
  | false => exact .inr h

/-- Two names at the beginning do not have the same length. -/
theorem length_ne (hne : np.truename ≠ np.falsename) (h : np.name val <+: input)
    (h' : np.name (!val) <+: input) : (np.name val).length ≠ (np.name (!val)).length := by
  intro hlen
  have heq := (List.prefix_of_prefix_length_le h h' (Nat.le_of_eq hlen)).eq_of_length hlen
  cases val with
  | true => exact hne heq
  | false => exact hne heq.symm

/-- The other name is not the longest one. -/
theorem longest_iff (hne : np.truename ≠ np.falsename) (h : np.name val <+: input) :
    np.Longest input (!val) ↔
      ¬(np.name (!val) <+: input → (np.name (!val)).length < (np.name val).length) := by
  unfold BoolNames.Longest
  rw [Bool.not_not, imp_iff_right h, Classical.not_imp]
  refine and_congr_right fun h' => ?_
  have hlen := length_ne hne h h'
  omega

/-- The name of the value that the target has. -/
theorem get_bool_matched (h : np.name val <+: input) (t : Cache) (bf : Basefield) (lval : Int) :
    get_bool t np true bf input lval val =
      ⟨(match_name (np.name val) input).2, false, false, val⟩ := by
  obtain ⟨-, hleft, -⟩ := match_name_spec (np.name val) input
  unfold get_bool
  rw [Bool.not_true, if_neg Bool.false_ne_true]
  dsimp only
  rw [hleft.mpr h]
  rfl

theorem get_bool_unmatched (h : ¬np.name val <+: input) (t : Cache) (bf : Basefield) (lval : Int) :
    get_bool t np true bf input lval val =
      ⟨(match_name (np.name val) input).2, !(match_name (np.name val) input).2.isEmpty,
        (match_name (np.name val) input).2.isEmpty, val⟩ := by
  obtain ⟨-, hleft, -⟩ := match_name_spec (np.name val) input
  have hne : (match_name (np.name val) input).1.isEmpty = false :=
    List.isEmpty_eq_false_iff.mpr fun hnil => h (hleft.mp hnil)
  unfold get_bool
  rw [Bool.not_true, if_neg Bool.false_ne_true]
  dsimp only
  rw [hne, if_neg Bool.false_ne_true]
  cases (match_name (np.name val) input).2.isEmpty <;> rfl

end BoolNamesLemmas

open BoolNamesLemmas

/-- The boolean is read unless the input ends within the name of the value that the target has, or
with it, or the other name is to be read. -/
theorem reads_bool_iff {np : BoolNames} (hne : np.truename ≠ np.falsename) (t : Cache)
    (bf : Basefield) (input : List Int) (lval : Int) (val : Bool) :
    ReadsBool np input val (get_bool t np true bf input lval val) ↔
      ¬input <+: np.name val ∧ (np.name (!val) <+: input →
        np.name val <+: input ∧ (np.name (!val)).length < (np.name val).length) := by
  obtain ⟨⟨p, hname, hinput⟩, -, hrest⟩ := match_name_spec (np.name val) input
  have hconsumed : p <+: np.truename ∨ p <+: np.falsename := prefix_name ⟨_, hname.symm⟩
  by_cases h : np.name val <+: input
  · rw [get_bool_matched h, and_iff_right h]
    constructor
    · intro hreads
      refine ⟨fun hall => Bool.false_ne_true (hreads.eofbit.mpr (hrest.mpr hall)), ?_⟩
      by_contra hlong
      have hval := (hreads.named (!val) ((longest_iff hne h).mpr hlong)).1
      exact Bool.not_ne_self val hval.symm
    · rintro ⟨hmore, hshort⟩
      refine ⟨fun v hv => ?_, fun hnone => absurd ⟨h, hshort⟩ (hnone val), ⟨p, hinput, hconsumed⟩,
        iff_of_false Bool.false_ne_true fun hnil => hmore (hrest.mp hnil)⟩
      rcases Bool.eq_or_eq_not v val with rfl | rfl
      · exact ⟨rfl, rfl⟩
      · exact absurd hshort ((longest_iff hne h).mp hv)
  · rw [get_bool_unmatched h]
    constructor
    · intro hreads
      have hother : ¬np.name (!val) <+: input := fun h' => by
        have hval :=
          (hreads.named (!val) ⟨h', fun h'' => absurd (by rwa [Bool.not_not] at h'') h⟩).1
        exact Bool.not_ne_self val hval.symm
      refine ⟨fun hall => ?_, fun h' => absurd h' hother⟩
      have hfail := (hreads.unnamed fun v hv => ?_).2
      · rw [hrest.mpr hall] at hfail
        cases hfail
      · rcases Bool.eq_or_eq_not v val with rfl | rfl
        · exact h hv.1
        · exact hother hv.1
    · rintro ⟨hmore, hother⟩
      have hne : (match_name (np.name val) input).2.isEmpty = false :=
        List.isEmpty_eq_false_iff.mpr fun hnil => hmore (hrest.mp hnil)
      rw [hne]
      refine ⟨fun v hv => ?_, fun _ => ⟨rfl, rfl⟩, ⟨p, hinput, hconsumed⟩,
        iff_of_false Bool.false_ne_true fun hnil => hmore (hrest.mp hnil)⟩
      rcases Bool.eq_or_eq_not v val with rfl | rfl
      · exact absurd hv.1 h
      · exact absurd (hother hv.1).1 h

/-- The target is false, and the name is not the end of the input. -/
theorem reads_bool_iff_example :
    let np : BoolNames := ⟨"true".toList.map widen, "false".toList.map widen⟩
    ReadsBool np ("false!".toList.map widen) false
      (get_bool classic np true .dec ("false!".toList.map widen) 0 false) :=
  (reads_bool_iff (by decide) classic .dec _ 0 false).mpr (by decide)

/-- The target is false. -/
theorem not_reads_bool :
    let np : BoolNames := ⟨"true".toList.map widen, "false".toList.map widen⟩
    ¬ReadsBool np ("true!".toList.map widen) false
      (get_bool classic np true .dec ("true!".toList.map widen) 0 false) := by
  intro np hreads
  have hfail := (hreads.named true (by unfold BoolNames.Longest; decide)).2
  revert hfail
  decide

end Kuhllib.Cxxrt
