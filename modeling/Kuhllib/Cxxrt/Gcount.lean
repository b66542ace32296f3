import Kuhllib.Cxxrt.Getline
import Kuhllib.Cxxrt.Ignoring
import Kuhllib.Cxxrt.StreambufCopies
import Kuhllib.Lib.Transition

/-!
# `gcount`

Each unformatted input function stores how many characters it extracts where it is about to return.
Where it does not get there the number of an earlier call is left, and `get(sb, d)` does not store
one at all.

Results:
1. `counted_iff`: what is counted is what is no longer there.
2. `ignore_loop_counts`, `get_to_loop_counts`: what a loop extracts.
3. `gcount_exact_iff`: when the number is right, in every run.
-/

namespace Kuhllib.Cxxrt

/-- A buffer that is read, and that characters are put back to. -/
structure Streambuf.Reader {σ α : Type} [DecidableEq α] (b : Streambuf σ α) (ok : σ → Prop)
    (supply : σ → Supply α) (early : Supply α → Supply α × Option α) : Prop
    extends b.Overruns ok supply early where
  get_area : ∀ s, ok s → (b.areas s).gend - (b.areas s).gcur < 2 ^ 31
  sputbackc : ∀ s c s' r, ok s → b.sputbackc s c = some (s', r) → ok s'
  sungetc : ∀ s s' r, ok s → b.sungetc s = some (s', r) → ok s'

/-- Unformatted input. The arrays of `get` and `getline` have room for `m + 1` characters. -/
inductive InputCall (α I τ : Type)
  | get
  | get_char
  | get_line (m : Nat) (d : α) (arr : Nat → α)
  | get_to (t : τ) (d : α)
  | getline (m : Nat) (d : α) (arr : Nat → α)
  | ignore_one
  | ignore (n : Int) (c : I)
  | read (n : Int)
  | readsome (n : Int)
  | peek
  | putback (c : α)
  | unget

namespace InputCall

variable {ι σ τ α I : Type} [DecidableEq α] [DecidableEq I] (b : Streambuf σ α)
  (to_sb : Streambuf τ α) (tr : CharTraits α I) (nul : α) (showmanyc : σ → Int)
  (throws : ι → Bool) (is : Istream ι σ)

/-- The stream behind the call, also if it throws. -/
def run (fuel : Nat) : InputCall α I τ → Option (Istream ι σ)
  | .get => (is.get b throws).map fun r => r.1
  | .get_char => (is.get_char b throws).map fun r => r.1
  | .get_line m d arr => (is.get_line b throws nul (m + 1) d arr).map fun r => r.1
  | .get_to t d => (is.get_to b throws to_sb d fuel t).map fun r => r.1
  | .getline m d arr => (is.getline b throws nul (m + 1) d arr).map fun r => r.1
  | .ignore_one => (is.ignore_one b throws).map fun r => r.1
  | .ignore n c => (is.ignore b throws tr n c fuel).map fun r => r.1
  | .read n => (is.read b throws n).map fun r => r.1
  | .readsome n => (is.readsome b throws showmanyc n).map fun r => r.1
  | .peek => (is.peek b throws).map fun r => r.1
  | .putback c => (is.putback b throws c).map fun r => r.1
  | .unget => (is.unget b throws).map fun r => r.1

/-- Calls one after the other. What `tie()->flush()` does is left to each of them. -/
def calls (ok : σ → Prop) :
    Transition.System (Istream ι σ) ((ι → Bool) × InputCall α I τ) where
  init is := ∀ s, is.m_sbuf = some s → ok s
  step is e is' := ∃ fuel, e.2.run b to_sb tr nul showmanyc e.1 is fuel = some is'

end InputCall

namespace Istream

variable {ι σ : Type} (throws : ι → Bool) (is : Istream ι σ)

/-- The sentry lets the call through. -/
def Passes : Prop := is.good = true ∧ is.m_tie.any throws = false

instance : Decidable (is.Passes throws) := inferInstanceAs (Decidable (_ ∧ _))

/-- The call ends in the constructor of the sentry. -/
def SentryThrows : Prop :=
  is.good = true ∧ is.m_tie.any throws = true ∧ is.m_exceptions &&& badbit ≠ 0

/-- `setstate(state)` throws. -/
def Throws (state : Iostate) : Prop := (is.m_state ||| state) &&& is.m_exceptions ≠ 0

end Istream

/-- Behind the line of `getline` everything is left, or nothing but the delimiter is missing. -/
def LeavesRest {α : Type} [DecidableEq α] (early : Supply α → Supply α × Option α) (m : Nat)
    (d : α) (S : Supply α) : Prop :=
  let p := (line d m S.content).length
  let rest := left_behind early S.peek m p
  rest = S.content.drop p ∨ p < S.content.length ∧ rest = d :: S.content.drop (p + 1)

section

variable {ι σ τ α I : Type} (supply : σ → Supply α)

/-- `gcount` is the number of characters that were extracted. -/
def CountsTaken (is is' : Istream ι σ) : Prop :=
  ∃ k : Nat, k ≤ (is.left supply).length ∧ is'.left supply = (is.left supply).drop k ∧
    is'.m_gcount = k

/-- What is required of `gcount` behind a call. -/
def InputCall.Exact (is is' : Istream ι σ) : InputCall α I τ → Prop
  | .peek => is'.m_gcount = 0
  | .putback _ | .unget => True
  | _ => CountsTaken supply is is'

variable [DecidableEq α] (b : Streambuf σ α) (to_sb : Streambuf τ α)
  (early : Supply α → Supply α × Option α) (showmanyc : σ → Int) (throws : ι → Bool)

/-- When it is as required. Either the call stores the number, or the one that is left is right. -/
def InputCall.Counts (is : Istream ι σ) : InputCall α I τ → Prop
  | .get => is.m_sbuf ≠ none ∧ (is.left supply = [] → ¬is.Throws (failbit ||| eofbit))
  | .get_char => (is.Passes throws → is.left supply = [] ∧ is.Throws (failbit ||| eofbit)) →
      is.m_gcount = 0
  | .ignore_one => (is.Passes throws → is.left supply = [] ∧ is.Throws eofbit) → is.m_gcount = 0
  | .get_line m d _ =>
      if is.Passes throws then ∀ s, is.m_sbuf = some s → Undisturbed early m d (supply s)
      else is.m_gcount = 0
  | .getline m d _ =>
      if is.Passes throws then ∀ s, is.m_sbuf = some s → LeavesRest early m d (supply s)
      else is.m_gcount = 0
  | .get_to t d => is.m_gcount = if is.Passes throws then
      (accepted to_sb t ((is.left supply).takeWhile (· ≠ d)) : Int) else 0
  | .ignore _ _ => ¬is.Passes throws → is.m_gcount = 0
  | .read _ => is.SentryThrows throws → is.m_gcount = 0
  | .readsome _ => is.SentryThrows throws ∨ (is.Passes throws ∧
      is.m_sbuf.map (Istream.in_avail b showmanyc) = some (-1) ∧ is.Throws eofbit) →
      is.m_gcount = 0
  | .peek | .putback _ | .unget => True

end

namespace GcountLemmas

open GetlineLemmas IgnoringLemmas Istream IstreamLemmas LineInputLemmas SourcesLemmas

section

variable {ι σ α : Type} {supply : σ → Supply α} {throws : ι → Bool} {is is' : Istream ι σ}

/-! ## 1. What is counted -/

theorem counted_iff {n : Nat} (hn : n ≤ (is.left supply).length)
    (hleft : is'.left supply = (is.left supply).drop n) :
    CountsTaken supply is is' ↔ is'.m_gcount = n := by
  constructor
  · rintro ⟨k, hk, hdrop, hcount⟩
    have hlen := congrArg List.length (hleft.symm.trans hdrop)
    rw [List.length_drop, List.length_drop] at hlen
    rw [hcount]
    omega
  · exact fun hcount => ⟨n, hn, hleft, hcount⟩

theorem counted_count {n : Nat} (hcount : is'.m_gcount = n) : CountsTaken supply is is' ↔
    n ≤ (is.left supply).length ∧ is'.left supply = (is.left supply).drop n := by
  constructor
  · rintro ⟨k, hk, hdrop, hcount'⟩
    obtain rfl : k = n := Int.ofNat_inj.mp (hcount'.symm.trans hcount)
    exact ⟨hk, hdrop⟩
  · exact fun ⟨hn, hdrop⟩ => ⟨n, hn, hdrop, hcount⟩

/-- Nothing is extracted. -/
theorem counted_idle (hbuf : is'.m_sbuf = is.m_sbuf) :
    CountsTaken supply is is' ↔ is'.m_gcount = 0 :=
  counted_iff (Nat.zero_le _) (by rw [left, hbuf]; rfl)

theorem idle_counts {ok : σ → Prop} (hsound : ∀ s, is.m_sbuf = some s → ok s)
    (hsame : is'.m_sbuf = is.m_sbuf ∧ is'.m_gcount = is.m_gcount) :
    (∀ s, is'.m_sbuf = some s → ok s) ∧ (CountsTaken supply is is' ↔ is.m_gcount = 0) := by
  rw [counted_idle hsame.1, hsame.1, hsame.2]
  exact ⟨hsound, Iff.rfl⟩

theorem setstate_same (is : Istream ι σ) (state : Iostate) :
    (is.setstate state).1.m_sbuf = is.m_sbuf ∧ (is.setstate state).1.m_gcount = is.m_gcount := by
  refine ⟨?_, rfl⟩
  show (is.toIos.clear (is.m_state ||| state)).1.m_sbuf = _
  unfold Ios.clear
  dsimp only
  generalize (if is.m_sbuf.isNone = true then _ else _) = st
  split
  · rfl
  · split <;> rfl

theorem setstate_throws (hbuf : is.m_sbuf ≠ none) (state : Iostate) :
    (is.setstate state).2 = true ↔ is.Throws state := by
  obtain ⟨f, hset⟩ := setstate_eq hbuf state
  rw [hset]
  exact decide_eq_true_iff

theorem report_same (is : Istream ι σ) (state : Iostate) :
    (is.report state).1.m_sbuf = is.m_sbuf ∧ (is.report state).1.m_gcount = is.m_gcount := by
  unfold report
  split
  · exact ⟨rfl, rfl⟩
  · dsimp only
    split
    · exact setstate_same is state
    · exact setstate_same is state

/-- The sentry lets nothing through. -/
theorem sentry_stops (h : ¬is.Passes throws) : ∃ is₁ threw,
    is.sentry throws none = some (is₁, threw) ∧ is₁.m_sbuf = is.m_sbuf ∧
      is₁.m_gcount = is.m_gcount ∧ is₁.good = false ∧
      (threw = true ↔ is.SentryThrows throws) := by
  unfold sentry
  by_cases hgood : is.good = true
  · have htie : is.m_tie.any throws = true := by
      rw [← Bool.not_eq_false]
      exact fun htie => h ⟨hgood, htie⟩
    rw [if_pos hgood, if_pos htie]
    refine ⟨_, _, rfl, rfl, rfl, ?_, ?_⟩
    · have hstate : is.m_state = goodbit := of_decide_eq_true hgood
      refine not_good badbit ?_
      show (is.m_state ||| badbit) &&& badbit ≠ 0
      rw [hstate]
      decide
    · show decide (is.m_exceptions &&& badbit ≠ 0) = true ↔ _
      rw [decide_eq_true_eq]
      exact ⟨fun hbad => ⟨hgood, htie, hbad⟩, fun hthrows => hthrows.2.2⟩
  · rw [if_neg hgood]
    exact ⟨is, false, rfl, rfl, rfl, Bool.not_eq_true _ ▸ hgood,
      iff_of_false Bool.false_ne_true fun hand => hgood hand.1⟩

variable {b : Streambuf σ α} {ok : σ → Prop}

theorem stopped_same {is₁ : Istream ι σ}
    (hsame : is₁.m_sbuf = is.m_sbuf ∧ is₁.m_gcount = is.m_gcount)
    (his' : is' = is₁ ∨ is' = (is₁.setstate failbit).1) :
    is'.m_sbuf = is.m_sbuf ∧ is'.m_gcount = is.m_gcount := by
  obtain ⟨hbuf, hcount⟩ := setstate_same is₁ failbit
  rcases his' with rfl | rfl
  · exact hsame
  · exact ⟨hbuf.trans hsame.1, hcount.trans hsame.2⟩

/-- Functions that leave the number as it is if the sentry lets nothing through. -/
theorem stopped_idle (hsound : ∀ s, is.m_sbuf = some s → ok s) {is₁ : Istream ι σ}
    (hsame : is₁.m_sbuf = is.m_sbuf ∧ is₁.m_gcount = is.m_gcount)
    (his' : is' = is₁ ∨ is' = (is₁.setstate failbit).1) :
    (∀ s, is'.m_sbuf = some s → ok s) ∧ (CountsTaken supply is is' ↔ is.m_gcount = 0) :=
  idle_counts hsound (stopped_same hsame his')

/-- Functions that store 0, unless the sentry throws. -/
theorem stopped_zero (hsound : ∀ s, is.m_sbuf = some s → ok s) {is₁ : Istream ι σ} {threw : Bool}
    (hsame : is₁.m_sbuf = is.m_sbuf ∧ is₁.m_gcount = is.m_gcount)
    (his' : if threw then is' = is₁
      else is' = (({ is₁ with m_gcount := 0 } : Istream ι σ).setstate failbit).1) :
    (∀ s, is'.m_sbuf = some s → ok s) ∧
      (CountsTaken supply is is' ↔ (threw = true → is.m_gcount = 0)) := by
  cases threw with
  | true =>
    rw [if_pos rfl] at his'
    rw [imp_iff_right rfl, his']
    exact idle_counts hsound hsame
  | false =>
    rw [if_neg Bool.false_ne_true] at his'
    obtain ⟨hbuf, hcount⟩ := setstate_same ({ is₁ with m_gcount := 0 } : Istream ι σ) failbit
    rw [← his'] at hbuf hcount
    have hbuf := hbuf.trans hsame.1
    refine ⟨fun s hs => hsound s (hbuf.symm.trans hs), ?_⟩
    rw [counted_idle hbuf]
    exact iff_of_true hcount fun h => absurd h Bool.false_ne_true

/-! ## 2. The calls -/

/-- Where `bits` are set at the end. If that throws, the number of an earlier call is left. -/
theorem end_counts {s : σ} (hbuf : is.m_sbuf = some s) (bits : Iostate)
    (his' : is' = if (is.setstate bits).2 then (is.setstate bits).1.process_exception.1
      else { (is.setstate bits).1 with m_gcount := 0 }) :
    is'.m_sbuf = some s ∧ (is'.m_gcount = 0 ↔
      (is.Throws bits → is.m_gcount = 0)) := by
  obtain ⟨hsame, hcount⟩ := setstate_same is bits
  rw [← setstate_throws (hbuf ▸ Option.some_ne_none s)]
  cases hthrow : (is.setstate bits).2 with
  | true =>
    rw [hthrow, if_pos rfl] at his'
    refine ⟨his' ▸ hsame.trans hbuf, ?_⟩
    rw [his', imp_iff_right rfl, ← hcount]
    exact Iff.rfl
  | false =>
    rw [hthrow, if_neg Bool.false_ne_true] at his'
    refine ⟨his' ▸ hsame.trans hbuf, ?_⟩
    rw [his']
    exact iff_of_true rfl fun h => absurd h Bool.false_ne_true

/-- One character is extracted, or `bits` are set at the end. -/
theorem bump_counts (h : b.Source ok supply) {s : σ} (hok : ok s) (hbuf : is.m_sbuf = some s)
    (bits : Iostate) : ∃ s', b.sbumpc s = some (s', (supply s).content.head?) ∧
    ∀ is', is' = (if (supply s).content.head?.isNone then
        (if ((is.with_sbuf s').setstate bits).2 then
          ((is.with_sbuf s').setstate bits).1.process_exception.1
        else { ((is.with_sbuf s').setstate bits).1 with m_gcount := 0 })
      else { is.with_sbuf s' with m_gcount := 1 }) →
    (∀ s, is'.m_sbuf = some s → ok s) ∧ (CountsTaken supply is is' ↔ (is.left supply = [] →
      is.Throws bits → is.m_gcount = 0)) := by
  obtain ⟨s', hs', hok', hsupply'⟩ := sbumpc_source h hok
  have hcontent' : (supply s').content = (supply s).content.tail := by
    rw [hsupply', Supply.content_bump]
  refine ⟨s', hs', fun is' his' => ?_⟩
  rw [left_of_some hbuf]
  cases hw : (supply s).content with
  | nil =>
    rw [hw, List.head?_nil, Option.isNone_none, if_pos rfl] at his'
    obtain ⟨hbuf', hcount⟩ := end_counts rfl bits his'
    refine ⟨fun s₁ hs₁ => ?_, ?_⟩
    · cases hbuf'.symm.trans hs₁
      exact hok'
    · rw [imp_iff_right rfl, counted_iff (n := 0) (Nat.zero_le _)]
      · exact hcount
      · rw [left_of_some hbuf', left_of_some hbuf, hcontent', hw]
        rfl
  | cons c w =>
    rw [hw, List.head?_cons, Option.isNone_some, if_neg Bool.false_ne_true] at his'
    subst his'
    refine ⟨fun s₁ hs₁ => ?_, ?_⟩
    · cases hs₁
      exact hok'
    · refine iff_of_true ⟨1, ?_, ?_, rfl⟩ fun hnil => absurd hnil (List.cons_ne_nil c w)
      · rw [left_of_some hbuf, hw]
        exact Nat.succ_pos _
      · rw [left_of_some hbuf, hw]
        exact hcontent'.trans (by rw [hw]; rfl)

/-- The sentry lets nothing through, or there is nothing and `bits` throw: nothing is stored. -/
theorem get_char_counts (h : b.Source ok supply) (hsound : ∀ s, is.m_sbuf = some s → ok s)
    {r : Istream ι σ × Option α × Bool} (hrun : is.get_char b throws = some r) :
    (∀ s, r.1.m_sbuf = some s → ok s) ∧ (CountsTaken supply is r.1 ↔
      ((is.Passes throws → is.left supply = [] ∧
        is.Throws (failbit ||| eofbit)) → is.m_gcount = 0)) := by
  unfold get_char at hrun
  by_cases hpass : is.Passes throws
  · rw [sentry_good hpass.1 hpass.2] at hrun
    simp only [Option.bind_eq_bind, Option.bind_some, Bool.false_eq_true, if_false, hpass.1,
      if_true] at hrun
    obtain ⟨s, hbuf, hrun⟩ := Option.bind_eq_some_iff.mp hrun
    obtain ⟨s', hs', hcounts⟩ := bump_counts h (hsound s hbuf) hbuf (failbit ||| eofbit)
    rw [hs'] at hrun
    rw [imp_iff_right hpass, and_imp]
    refine hcounts _ ?_
    cases hhead : (supply s).content.head? with
    | none =>
      rw [hhead] at hrun
      simp only [Option.bind_some] at hrun
      rw [Option.isNone_none, if_pos rfl]
      split at hrun
      · next hthrow =>
        cases hrun
        rw [if_pos hthrow]
      · next hthrow =>
        cases hrun
        rw [if_neg hthrow]
    | some c =>
      rw [hhead] at hrun
      cases hrun
      rfl
  · obtain ⟨is₁, threw, hsentry, hbuf₁, hcount₁, hgood₁, -⟩ := sentry_stops hpass
    rw [hsentry] at hrun
    simp only [Option.bind_eq_bind, Option.bind_some, hgood₁, Bool.false_eq_true, if_false] at hrun
    rw [imp_iff_right fun h => absurd h hpass]
    refine stopped_idle hsound ⟨hbuf₁, hcount₁⟩ ?_
    split at hrun <;> cases hrun
    · exact .inl rfl
    · exact .inr rfl

theorem ignore_one_counts (h : b.Source ok supply) (hsound : ∀ s, is.m_sbuf = some s → ok s)
    {r : Istream ι σ × Bool} (hrun : is.ignore_one b throws = some r) :
    (∀ s, r.1.m_sbuf = some s → ok s) ∧ (CountsTaken supply is r.1 ↔
      ((is.Passes throws → is.left supply = [] ∧
        is.Throws eofbit) → is.m_gcount = 0)) := by
  unfold ignore_one at hrun
  by_cases hpass : is.Passes throws
  · rw [sentry_good hpass.1 hpass.2] at hrun
    simp only [Option.bind_eq_bind, Option.bind_some, Bool.false_eq_true, if_false, hpass.1,
      if_true] at hrun
    obtain ⟨s, hbuf, hrun⟩ := Option.bind_eq_some_iff.mp hrun
    obtain ⟨s', hs', hcounts⟩ := bump_counts h (hsound s hbuf) hbuf eofbit
    rw [hs', Option.bind_some] at hrun
    rw [imp_iff_right hpass, and_imp]
    refine hcounts _ ?_
    split at hrun
    · next hnone =>
      rw [if_pos hnone]
      split at hrun
      · next hthrow =>
        cases hrun
        rw [if_pos hthrow]
      · next hthrow =>
        cases hrun
        rw [if_neg hthrow]
    · next hsome =>
      cases hrun
      rw [if_neg hsome]
  · obtain ⟨is₁, threw, hsentry, hbuf₁, hcount₁, hgood₁, -⟩ := sentry_stops hpass
    rw [hsentry] at hrun
    simp only [Option.bind_eq_bind, Option.bind_some, hgood₁, Bool.false_eq_true, if_false] at hrun
    have hsame : r.1.m_sbuf = is.m_sbuf ∧ r.1.m_gcount = is.m_gcount := by
      split at hrun <;> cases hrun <;> exact ⟨hbuf₁, hcount₁⟩
    rw [imp_iff_right fun h => absurd h hpass]
    exact idle_counts hsound hsame

/-- The bits that are looked at are none of those that `flags` gives. -/
theorem checked_sentry_eq (is : Istream ι σ) (throws : ι → Bool) :
    is.checked_sentry throws = some (is, false, true) := by
  have hmask : is.flags &&& (os_good ||| os_tie) = 0 := by
    have hnone : fmtmask &&& (os_good ||| os_tie) = 0 := by decide
    rw [Ios.flags, BitVec.and_assoc, hnone]
    exact BitVec.and_zero
  unfold checked_sentry
  rw [if_neg (not_not.mpr hmask)]

theorem get_counts (h : b.Source ok supply) (hsound : ∀ s, is.m_sbuf = some s → ok s)
    {r : Istream ι σ × Option α × Bool} (hrun : is.get b throws = some r) :
    (∀ s, r.1.m_sbuf = some s → ok s) ∧ (CountsTaken supply is r.1 ↔ is.m_sbuf ≠ none ∧
      (is.left supply = [] →
        ¬is.Throws (failbit ||| eofbit))) := by
  unfold Istream.get at hrun
  dsimp only at hrun
  cases hbuf : is.m_sbuf with
  | none =>
    rw [hbuf] at hrun
    cases hrun
    refine ⟨fun s hs => (Option.some_ne_none s (hs.symm.trans hbuf)).elim,
      iff_of_false ?_ fun hand => hand.1 rfl⟩
    rw [counted_idle (hbuf ▸ rfl)]
    exact Int.one_ne_zero
  | some s =>
    have hok := hsound s hbuf
    rw [hbuf] at hrun
    dsimp only at hrun
    rw [and_iff_right (Option.some_ne_none s)]
    split at hrun
    · -- `_CS_get`
      have hbuf₁ : ({ is with m_gcount := 1 } : Istream ι σ).m_sbuf = some s := hbuf
      obtain ⟨s', hs', hcounts⟩ := bump_counts h hok hbuf₁ (failbit ||| eofbit)
      have hnot : ∀ P Q : Prop, (P → Q → (1 : Int) = 0) ↔ (P → ¬Q) := fun P Q =>
        forall_congr' fun _ => by simp
      rw [← hnot]
      unfold get_slow at hrun
      rw [checked_sentry_eq] at hrun
      simp only [Option.bind_eq_bind, Option.bind_some, Bool.false_eq_true, if_false, if_true,
        hbuf, hs'] at hrun
      refine hcounts _ ?_
      cases hhead : (supply s).content.head? with
      | none =>
        rw [hhead] at hrun
        simp only at hrun
        rw [Option.isNone_none, if_pos rfl]
        split at hrun
        · next hthrow =>
          cases hrun
          rw [if_pos hthrow]
        · next hthrow =>
          cases hrun
          rw [if_neg hthrow]
      | some c =>
        rw [hhead] at hrun
        cases hrun
        rfl
    · next hchar =>
      -- `_CS_gbump`
      have hcur : (supply s).current ≠ [] := fun hnil => by
        rw [(empty_iff h hok).mpr hnil] at hchar
        simp at hchar
      obtain ⟨c, cs, hcs⟩ := List.exists_cons_of_ne_nil hcur
      obtain ⟨hok', hsupply'⟩ := h.skip s 1 hok (by rw [hcs]; exact Nat.succ_pos _)
      rw [load_source h hok hcs] at hrun
      cases hrun
      have hcontent : (supply s).content ≠ [] := fun hnil =>
        hcur (List.append_eq_nil_iff.mp hnil).1
      have hskip := congrArg Supply.content hsupply'
      rw [Supply.content_skip (by rw [hcs]; exact Nat.succ_pos _)] at hskip
      refine ⟨fun s₁ hs₁ => ?_, iff_of_true ⟨1, ?_, ?_, rfl⟩ fun hnil => ?_⟩
      · cases hs₁
        exact hok'
      · rw [left_of_some hbuf]
        exact List.length_pos_iff.mpr hcontent
      · rw [left_of_some hbuf]
        exact hskip
      · rw [left_of_some hbuf] at hnil
        exact absurd hnil hcontent

theorem peek_counts (h : b.Source ok supply) (hsound : ∀ s, is.m_sbuf = some s → ok s)
    {r : Istream ι σ × Option α × Bool} (hrun : is.peek b throws = some r) :
    (∀ s, r.1.m_sbuf = some s → ok s) ∧ r.1.m_gcount = 0 := by
  unfold Istream.peek at hrun
  dsimp only at hrun
  by_cases hpass : ({ is with m_gcount := 0 } : Istream ι σ).Passes throws
  · rw [sentry_good hpass.1 hpass.2] at hrun
    have hgood : ({ is with m_gcount := 0 } : Istream ι σ).good = true := hpass.1
    simp only [Option.bind_eq_bind, Option.bind_some, Bool.false_eq_true, if_false, hgood,
      if_true] at hrun
    obtain ⟨s, hbuf, hrun⟩ := Option.bind_eq_some_iff.mp hrun
    obtain ⟨s', hs', hok', -⟩ := sgetc_source h (hsound s hbuf)
    rw [hs'] at hrun
    cases hrun
    refine ⟨fun s₁ hs₁ => ?_, rfl⟩
    cases hs₁
    exact hok'
  · obtain ⟨is₁, threw, hsentry, hbuf₁, hcount₁, hgood₁, -⟩ :=
      sentry_stops hpass
    rw [hsentry] at hrun
    simp only [Option.bind_eq_bind, Option.bind_some, hgood₁, Bool.false_eq_true, if_false] at hrun
    have hsame : r.1.m_sbuf = is.m_sbuf ∧ r.1.m_gcount = 0 := by
      split at hrun <;> cases hrun <;> exact ⟨hbuf₁, hcount₁⟩
    exact ⟨hsame.1 ▸ hsound, hsame.2⟩

theorem nexts_chars (n : Nat) (w : List α) : nexts List.next? n w = (w.take n, w.drop n) := by
  induction n generalizing w with
  | zero => rfl
  | succ n ih =>
    cases w with
    | nil => rfl
    | cons c w =>
      rw [nexts, List.next?]
      dsimp only
      rw [ih]
      rfl

theorem reads_source (h : b.Source ok supply)
    (harea : ∀ s, ok s → (b.areas s).gend - (b.areas s).gcur < 2 ^ 31) :
    b.Reads (fun _ s w => ok s ∧ (supply s).content = w) List.next? where
  fewer _ _ _ hR := hR
  area n s w hR hne := by
    obtain ⟨hok, rfl⟩ := hR
    have hsize := area_size h hok
    have hpos : 0 < (supply s).current.length :=
      List.length_pos_iff.mpr fun hnil => hne ((empty_iff h hok).mpr hnil)
    refine ⟨by omega, fun k _ _ hle => ?_⟩
    have hk : k ≤ (supply s).current.length := by omega
    obtain ⟨hok', hsupply'⟩ := h.skip s k hok hk
    have hsmall := harea s hok
    rw [BlockTransferLemmas.gbump_eq ⟨Int.natCast_nonneg k, by omega⟩]
    refine ⟨_, _, read_source h hok hk, ?_, List.length_take_of_le hk, hok', rfl⟩
    rw [nexts_chars, Supply.take_content hk, hsupply', Supply.content_skip hk]
  bump n s w hR _ := by
    obtain ⟨hok, rfl⟩ := hR
    obtain ⟨s', hs', hok', hsupply'⟩ := sbumpc_source h hok
    have hcontent' : (supply s').content = (supply s).content.tail := by
      rw [hsupply', Supply.content_bump]
    refine ⟨fun hnone => ?_, fun c w hsome => ?_⟩
    · cases hw : (supply s).content with
      | nil =>
        rw [hw] at hs' hcontent'
        exact ⟨s', hs', hok', hcontent'⟩
      | cons c w =>
        rw [hw] at hnone
        cases hnone
    · cases hw : (supply s).content with
      | nil =>
        rw [hw] at hsome
        cases hsome
      | cons x v =>
        rw [hw] at hsome hs' hcontent'
        cases hsome
        exact ⟨s', hs', hok', hcontent'⟩

/-- `sgetn` takes the first characters. -/
theorem sgetn_source (h : b.Source ok supply)
    (harea : ∀ s, ok s → (b.areas s).gend - (b.areas s).gcur < 2 ^ 31) {s : σ} (hok : ok s)
    (n : Int) : ∃ s', b.sgetn s n = some (s', (supply s).content.take n.toNat) ∧ ok s' ∧
      (supply s').content = (supply s).content.drop n.toNat := by
  obtain ⟨k, rfl⟩ | hneg := (le_or_gt 0 n).imp_left Int.eq_ofNat_of_zero_le
  · obtain ⟨s', hsgetn, hok', hcontent'⟩ :=
      Streambuf.sgetn_spec (reads_source h harea) (n := k) (t := (supply s).content) ⟨hok, rfl⟩
    rw [nexts_chars] at hsgetn hcontent'
    exact ⟨s', hsgetn, hok', hcontent'⟩
  · rw [Streambuf.sgetn, Int.toNat_of_nonpos (Int.le_of_lt hneg)]
    exact ⟨s, rfl, hok, rfl⟩

/-- The first characters are extracted. -/
theorem counted_take {s s' : σ} {is' : Istream ι σ} {k : Nat} (hbuf : is.m_sbuf = some s)
    (hbuf' : is'.m_sbuf = some s') (hcontent' : (supply s').content = (supply s).content.drop k)
    (hcount : is'.m_gcount = ((supply s).content.take k).length) : CountsTaken supply is is' := by
  rw [List.length_take] at hcount
  refine ⟨min k (supply s).content.length, ?_, ?_, hcount⟩
  · rw [left_of_some hbuf]
    exact Nat.min_le_right _ _
  · rw [left_of_some hbuf, left_of_some hbuf', hcontent']
    rcases Nat.le_total k (supply s).content.length with hle | hge
    · rw [Nat.min_eq_left hle]
    · rw [Nat.min_eq_right hge, List.drop_length, List.drop_eq_nil_of_le hge]

theorem read_counts (h : b.Source ok supply)
    (harea : ∀ s, ok s → (b.areas s).gend - (b.areas s).gcur < 2 ^ 31)
    (hsound : ∀ s, is.m_sbuf = some s → ok s) {n : Int} {r : Istream ι σ × List α × Bool}
    (hrun : is.read b throws n = some r) :
    (∀ s, r.1.m_sbuf = some s → ok s) ∧ (CountsTaken supply is r.1 ↔
      (is.SentryThrows throws →
        is.m_gcount = 0)) := by
  unfold Istream.read at hrun
  by_cases hpass : is.Passes throws
  · rw [sentry_good hpass.1 hpass.2] at hrun
    simp only [Option.bind_eq_bind, Option.bind_some, Bool.false_eq_true, if_false, hpass.1,
      if_true] at hrun
    obtain ⟨s, hbuf, hrun⟩ := Option.bind_eq_some_iff.mp hrun
    obtain ⟨s', hs', hok', hcontent'⟩ := sgetn_source h harea (hsound s hbuf) n
    rw [hs', Option.bind_some] at hrun
    cases hrun
    obtain ⟨hbuf₁, hcount₁⟩ := report_same ({ is.with_sbuf s' with
      m_gcount := ((supply s).content.take n.toNat).length } : Istream ι σ)
      (if (((supply s).content.take n.toNat).length : Int) < n then eofbit ||| failbit else goodbit)
    refine ⟨fun s₁ hs₁ => ?_, iff_of_true (counted_take hbuf hbuf₁ hcontent' hcount₁)
      fun hand => ?_⟩
    · cases hbuf₁.symm.trans hs₁
      exact hok'
    · exact absurd (hpass.2.symm.trans hand.2.1) Bool.false_ne_true
  · obtain ⟨is₁, threw, hsentry, hbuf₁, hcount₁, hgood₁, hthrew⟩ :=
      sentry_stops hpass
    rw [hsentry] at hrun
    simp only [Option.bind_eq_bind, Option.bind_some, hgood₁, Bool.false_eq_true, if_false] at hrun
    rw [← hthrew]
    refine stopped_zero hsound ⟨hbuf₁, hcount₁⟩ ?_
    split at hrun
    · next ht =>
      cases hrun
      rw [if_pos ht]
    · next ht =>
      cases hrun
      rw [if_neg ht]

theorem readsome_counts (h : b.Source ok supply)
    (harea : ∀ s, ok s → (b.areas s).gend - (b.areas s).gcur < 2 ^ 31)
    (hsound : ∀ s, is.m_sbuf = some s → ok s) {showmanyc : σ → Int} {n : Int}
    {r : Istream ι σ × List α × Bool} (hrun : is.readsome b throws showmanyc n = some r) :
    (∀ s, r.1.m_sbuf = some s → ok s) ∧ (CountsTaken supply is r.1 ↔
      (is.SentryThrows throws ∨ (is.Passes throws ∧
        is.m_sbuf.map (in_avail b showmanyc) = some (-1) ∧ is.Throws eofbit) →
        is.m_gcount = 0)) := by
  unfold Istream.readsome at hrun
  by_cases hpass : is.Passes throws
  · rw [sentry_good hpass.1 hpass.2] at hrun
    simp only [Option.bind_eq_bind, Option.bind_some, Bool.false_eq_true, if_false, hpass.1,
      if_true] at hrun
    obtain ⟨s, hbuf, hrun⟩ := Option.bind_eq_some_iff.mp hrun
    have hcond : is.SentryThrows throws ∨ (is.Passes throws ∧
        is.m_sbuf.map (in_avail b showmanyc) = some (-1) ∧ is.Throws eofbit) ↔
        in_avail b showmanyc s = -1 ∧ is.Throws eofbit := by
      have hnot : ¬is.SentryThrows throws := fun hthrows =>
        Bool.false_ne_true (hpass.2.symm.trans hthrows.2.1)
      rw [or_iff_right hnot, and_iff_right hpass, hbuf, Option.map_some, Option.some.injEq]
    rw [hcond]
    split at hrun
    · next hend =>
      have hr : r.1 = if (is.setstate eofbit).2 then (is.setstate eofbit).1.process_exception.1
          else { (is.setstate eofbit).1 with m_gcount := 0 } := by
        split at hrun
        · next ht =>
          cases hrun
          rw [if_pos ht]
        · next ht =>
          cases hrun
          rw [if_neg ht]
      obtain ⟨hbuf', hcount⟩ := end_counts hbuf eofbit hr
      rw [and_iff_right hend, ← hcount]
      refine ⟨fun s₁ hs₁ => hsound s₁ (hbuf.trans (hbuf'.symm.trans hs₁)), ?_⟩
      exact counted_idle (hbuf'.trans hbuf.symm)
    · next hmore =>
      rw [iff_true_right fun hand => absurd hand.1 hmore]
      split at hrun
      · cases hrun
        have hbuf' : ({ is with m_gcount := 0 } : Istream ι σ).m_sbuf = is.m_sbuf := rfl
        exact ⟨hsound, (counted_idle hbuf').mpr rfl⟩
      · obtain ⟨s', hs', hok', hcontent'⟩ := sgetn_source h harea (hsound s hbuf)
          (if in_avail b showmanyc s < n then in_avail b showmanyc s else n)
        rw [hs', Option.bind_some] at hrun
        cases hrun
        refine ⟨fun s₁ hs₁ => ?_, counted_take hbuf rfl hcontent' rfl⟩
        cases hs₁
        exact hok'
  · obtain ⟨is₁, threw, hsentry, hbuf₁, hcount₁, hgood₁, hthrew⟩ :=
      sentry_stops hpass
    rw [hsentry] at hrun
    simp only [Option.bind_eq_bind, Option.bind_some, hgood₁, Bool.false_eq_true, if_false] at hrun
    rw [or_iff_left fun hand => hpass hand.1, ← hthrew]
    refine stopped_zero hsound ⟨hbuf₁, hcount₁⟩ ?_
    split at hrun
    · next ht =>
      cases hrun
      rw [if_pos ht]
    · next ht =>
      cases hrun
      rw [if_neg ht]

/-- What is extracted behind the first `m` characters. -/
theorem counts_behind {s s₁ : σ} {g : Int} {r : σ × Int × Iostate} {m : Nat}
    (hm : m ≤ (supply s).content.length)
    (hcontent₁ : (supply s₁).content = (supply s).content.drop m)
    (hnext : ok r.1 ∧ ∃ k : Nat, k ≤ (supply s₁).content.length ∧
      (supply r.1).content = (supply s₁).content.drop k ∧ r.2.1 = g + m + k) :
    ok r.1 ∧ ∃ k : Nat, k ≤ (supply s).content.length ∧
      (supply r.1).content = (supply s).content.drop k ∧ r.2.1 = g + k := by
  obtain ⟨hok', k, hk, hcontent', hcount⟩ := hnext
  rw [hcontent₁, List.length_drop] at hk
  refine ⟨hok', m + k, by omega, ?_, by rw [hcount]; omega⟩
  rw [hcontent', hcontent₁, List.drop_drop]

theorem reported_counts {s s' : σ} {k : Nat} {bits : Iostate} (hbuf : is.m_sbuf = some s)
    (hok' : ok s') (hk : k ≤ (supply s).content.length)
    (hcontent' : (supply s').content = (supply s).content.drop k) :
    (∀ s, ({ is.with_sbuf s' with m_gcount := k }.report bits).1.m_sbuf = some s → ok s) ∧
      CountsTaken supply is ({ is.with_sbuf s' with m_gcount := k }.report bits).1 := by
  obtain ⟨hbuf', hcount'⟩ := report_same ({ is.with_sbuf s' with m_gcount := k } : Istream ι σ) bits
  have hbuf' := hbuf'.trans (rfl : _ = some s')
  refine ⟨fun s₂ hs₂ => ?_, k, ?_, ?_, hcount'⟩
  · cases hbuf'.symm.trans hs₂
    exact hok'
  · rwa [left_of_some hbuf]
  · rw [left_of_some hbuf, left_of_some hbuf', hcontent']

/-- A character is put back, whichever function does it. -/
theorem back_sound {back : σ → Option (σ × Option α)}
    (hback : ∀ s s' c, ok s → back s = some (s', c) → ok s')
    (hsound : ∀ s, is.m_sbuf = some s → ok s) {r : Istream ι σ × Bool}
    (hrun : (do
      let (is, threw) ← is.sentry throws none
      if threw then some (is, true)
      else if is.good then do
        let s ← is.m_sbuf
        let (s, c) ← back s
        some ((is.with_sbuf s).report (if c.isNone then badbit else goodbit))
      else some (is.setstate failbit)) = some r) :
    ∀ s, r.1.m_sbuf = some s → ok s := by
  by_cases hpass : is.Passes throws
  · rw [sentry_good hpass.1 hpass.2] at hrun
    simp only [Option.bind_eq_bind, Option.bind_some, Bool.false_eq_true, if_false, hpass.1,
      if_true] at hrun
    obtain ⟨s, hbuf, hrun⟩ := Option.bind_eq_some_iff.mp hrun
    obtain ⟨⟨s', c'⟩, hs', hrun⟩ := Option.bind_eq_some_iff.mp hrun
    cases hrun
    intro s₁ hs₁
    rw [(report_same _ _).1] at hs₁
    cases hs₁
    exact hback s s' c' (hsound s hbuf) hs'
  · obtain ⟨is₁, threw, hsentry, hbuf₁, hcount₁, hgood₁, -⟩ := sentry_stops hpass
    rw [hsentry] at hrun
    simp only [Option.bind_eq_bind, Option.bind_some, hgood₁, Bool.false_eq_true, if_false] at hrun
    have hsame : r.1.m_sbuf = is.m_sbuf ∧ r.1.m_gcount = is.m_gcount := by
      refine stopped_same ⟨hbuf₁, hcount₁⟩ ?_
      split at hrun <;> cases hrun
      · exact .inl rfl
      · exact .inr rfl
    exact hsame.1 ▸ hsound

end

section

variable {ι σ α : Type} [DecidableEq α] {b : Streambuf σ α} {ok : σ → Prop}
  {supply : σ → Supply α} {early : Supply α → Supply α × Option α} {throws : ι → Bool}
  {is : Istream ι σ}

theorem get_line_counts (h : b.Overruns ok supply early)
    (hsound : ∀ s, is.m_sbuf = some s → ok s) {nul : α} {m : Nat} {d : α} {arr : Nat → α}
    {r : Istream ι σ × (Nat → α) × Bool} (hrun : is.get_line b throws nul (m + 1) d arr = some r) :
    (∀ s, r.1.m_sbuf = some s → ok s) ∧ (CountsTaken supply is r.1 ↔
      if is.Passes throws then
        ∀ s, is.m_sbuf = some s → Undisturbed early m d (supply s)
      else is.m_gcount = 0) := by
  by_cases hpass : is.Passes throws
  · rw [if_pos hpass]
    have hsome : ∃ s, is.m_sbuf = some s := by
      unfold get_line at hrun
      rw [sentry_good hpass.1 hpass.2] at hrun
      simp only [Option.bind_eq_bind, Option.bind_some, Bool.false_eq_true, if_false, hpass.1,
        if_true] at hrun
      obtain ⟨s, hbuf, -⟩ := Option.bind_eq_some_iff.mp hrun
      exact ⟨s, hbuf⟩
    obtain ⟨s, hbuf⟩ := hsome
    obtain ⟨s', hok', hget, hcontent'⟩ := get_line_eq (d := d) h (hsound s hbuf) hbuf hpass.1
      hpass.2 nul m arr
    obtain ⟨hbuf', hcount'⟩ := report_same ({ is.with_sbuf s' with
      m_gcount := ((line d m (supply s).content).length : Nat) } : Istream ι σ)
      (get_bits m (line d m (supply s).content).length (supply s).content.length)
    generalize Istream.report _ _ = y at hget hbuf' hcount'
    obtain ⟨is', threw⟩ := y
    rw [hget] at hrun
    cases hrun
    have hbuf' : is'.m_sbuf = some s' := hbuf'
    refine ⟨fun s₁ hs₁ => ?_, ?_⟩
    · cases hbuf'.symm.trans hs₁
      exact hok'
    · rw [counted_count hcount', left_of_some hbuf, left_of_some hbuf', hcontent',
        left_behind_iff, and_iff_right (length_line_le d m _).2]
      simp only [hbuf, Option.some.injEq, forall_eq']
  · rw [if_neg hpass]
    unfold get_line at hrun
    obtain ⟨is₁, threw, hsentry, hbuf₁, hcount₁, hgood₁, -⟩ := sentry_stops hpass
    rw [hsentry] at hrun
    simp only [Option.bind_eq_bind, Option.bind_some, hgood₁, Bool.false_eq_true, if_false] at hrun
    refine stopped_idle hsound ⟨hbuf₁, hcount₁⟩ ?_
    split at hrun <;> cases hrun
    · exact .inl rfl
    · exact .inr rfl

theorem leavesRest_iff {m : Nat} {d : α} {S : Supply α} :
    (∃ k : Nat, k ≤ S.content.length ∧ (getline_end early d m S).1 = S.content.drop k ∧
      (getline_end early d m S).2.1 + ((line d m S.content).length : Nat) = k) ↔
    LeavesRest early m d S := by
  obtain ⟨-, hlen⟩ := length_line_le d m S.content
  obtain ⟨x, hx⟩ : ∃ x, x = left_behind early S.peek m (line d m S.content).length := ⟨_, rfl⟩
  unfold LeavesRest getline_end
  dsimp only
  rw [← hx]
  split
  · next hm =>
    subst hm
    rw [left_behind, if_neg fun hand => hand.2, Supply.content_peek] at hx
    exact iff_of_true ⟨0, Nat.zero_le _, rfl, rfl⟩ (.inl hx)
  · next hm =>
    split
    · next hw =>
      rw [hw, line_nil, left_behind, if_neg fun hand => hm hand.1.symm, Supply.content_peek,
        hw] at hx
      rw [hw]
      exact iff_of_true ⟨0, Nat.zero_le _, rfl, by rw [line_nil]; rfl⟩ (.inl (by rw [hx, line_nil]))
    · by_cases hdelim : x.head? = some d
      · rw [line_end_of_head hdelim]
        obtain ⟨v, hv⟩ : ∃ v, x = d :: v := by
          cases x with
          | nil => cases hdelim
          | cons c v => exact ⟨v, by rw [Option.some.inj hdelim]⟩
        rw [hv]
        constructor
        · rintro ⟨k, hk, hrest, hcount⟩
          have hcount : (1 : Int) + ((line d m S.content).length : Nat) = k := hcount
          obtain rfl : k = (line d m S.content).length + 1 := by omega
          exact .inr ⟨hk, congrArg (d :: ·) hrest⟩
        · rintro (hrest | ⟨hlt, hrest⟩)
          · have hlt : (line d m S.content).length < S.content.length := by
              have hlen := congrArg List.length hrest
              rw [List.length_cons, List.length_drop] at hlen
              omega
            refine ⟨_, hlt, ?_, Int.add_comm _ _⟩
            rw [Nat.succ_eq_add_one, ← List.tail_drop, ← hrest]
          · exact ⟨_, hlt, (List.cons.inj hrest).2, Int.add_comm _ _⟩
      · rw [line_end_of_ne hdelim]
        constructor
        · rintro ⟨k, hk, hrest, hcount⟩
          have hcount : (0 : Int) + ((line d m S.content).length : Nat) = k := hcount
          obtain rfl : k = (line d m S.content).length := by omega
          exact .inl hrest
        · rintro (hrest | ⟨hlt, hrest⟩)
          · exact ⟨_, hlen, hrest, Int.zero_add _⟩
          · exact absurd (congrArg List.head? hrest) hdelim

theorem getline_counts (h : b.Overruns ok supply early)
    (hsound : ∀ s, is.m_sbuf = some s → ok s) {nul : α} {m : Nat} {d : α} {arr : Nat → α}
    {r : Istream ι σ × (Nat → α) × Bool} (hrun : is.getline b throws nul (m + 1) d arr = some r) :
    (∀ s, r.1.m_sbuf = some s → ok s) ∧ (CountsTaken supply is r.1 ↔
      if is.Passes throws then
        ∀ s, is.m_sbuf = some s → LeavesRest early m d (supply s)
      else is.m_gcount = 0) := by
  by_cases hpass : is.Passes throws
  · rw [if_pos hpass]
    have hsome : ∃ s, is.m_sbuf = some s := by
      unfold getline at hrun
      rw [sentry_good hpass.1 hpass.2] at hrun
      simp only [Option.bind_eq_bind, Option.bind_some, Bool.false_eq_true, if_false, hpass.1,
        if_true] at hrun
      obtain ⟨s, hbuf, -⟩ := Option.bind_eq_some_iff.mp hrun
      exact ⟨s, hbuf⟩
    obtain ⟨s, hbuf⟩ := hsome
    obtain ⟨s', hok', hget, hcontent'⟩ := getline_eq (d := d) h (hsound s hbuf) hbuf hpass.1
      hpass.2 nul m arr
    obtain ⟨hbuf', hcount'⟩ := report_same ({ is.with_sbuf s' with
      m_gcount := (getline_end early d m (supply s)).2.1 +
        ((line d m (supply s).content).length : Nat) } : Istream ι σ)
      (getline_end early d m (supply s)).2.2
    generalize Istream.report _ _ = y at hget hbuf' hcount'
    obtain ⟨is', threw⟩ := y
    rw [hget] at hrun
    cases hrun
    have hbuf' : is'.m_sbuf = some s' := hbuf'
    refine ⟨fun s₁ hs₁ => ?_, ?_⟩
    · cases hbuf'.symm.trans hs₁
      exact hok'
    · simp only [hbuf, Option.some.injEq, forall_eq']
      rw [← leavesRest_iff]
      constructor
      · rintro ⟨k, hk, hleft, hk'⟩
        rw [left_of_some hbuf] at hk hleft
        rw [left_of_some hbuf'] at hleft
        exact ⟨k, hk, hcontent'.symm.trans hleft, hcount'.symm.trans hk'⟩
      · rintro ⟨k, hk, hleft, hk'⟩
        refine ⟨k, ?_, ?_, hcount'.trans hk'⟩
        · rwa [left_of_some hbuf]
        · rw [left_of_some hbuf, left_of_some hbuf', hcontent', hleft]
  · rw [if_neg hpass]
    unfold getline at hrun
    obtain ⟨is₁, threw, hsentry, hbuf₁, hcount₁, hgood₁, -⟩ := sentry_stops hpass
    rw [hsentry] at hrun
    simp only [Option.bind_eq_bind, Option.bind_some, hgood₁, Bool.false_eq_true, if_false] at hrun
    refine stopped_idle hsound ⟨hbuf₁, hcount₁⟩ ?_
    split at hrun <;> cases hrun
    · exact .inl rfl
    · exact .inr rfl

/-! ## 3. Loops -/

theorem ignore_loop_counts {I : Type} [DecidableEq I] {tr : CharTraits α I} {c : I}
    (h : b.Source ok supply) {s : σ} (hok : ok s) {n g : Int}
    (hmax : n = streamsize_max → g ≤ streamsize_max) {fuel : Nat} {r : σ × Int × Iostate}
    (hrun : ignore_loop b tr n c fuel s g = some r) : ok r.1 ∧ ∃ k : Nat,
      k ≤ (supply s).content.length ∧ (supply r.1).content = (supply s).content.drop k ∧
        r.2.1 = g + k := by
  induction fuel generalizing s g with
  | zero => cases hrun
  | succ fuel ih =>
    by_cases hguard : g < n ∨ n = streamsize_max
    · cases hw : (supply s).content with
      | nil =>
        obtain ⟨s', hok', hloop, hcontent'⟩ := ignore_loop_end (c := c) h hok hguard hw fuel
        cases hloop.symm.trans hrun
        exact ⟨hok', 0, Nat.zero_le _, hcontent', (Int.add_zero g).symm⟩
      | cons x w =>
        have hne : (supply s).content ≠ [] := hw ▸ List.cons_ne_nil x w
        rw [← hw]
        by_cases hlt : g < n
        · obtain ⟨k, hk⟩ : ∃ k : Nat, n = g + k := ⟨(n - g).toNat, by omega⟩
          by_cases hcur : (supply s).current = []
          · obtain ⟨s₁, hok₁, hsupply₁, hround⟩ :=
              ignore_loop_single (c := c) h hok hguard hcur hw
            have hcontent₁ : (supply s₁).content = (supply s).content.drop 1 := by
              rw [hsupply₁, Supply.content_bump, List.drop_one]
            rw [hround] at hrun
            split at hrun
            · cases hrun
            · split at hrun
              · cases hrun
                exact ⟨hok₁, 1, List.length_pos_iff.mpr hne, hcontent₁, rfl⟩
              · have hnext := ih hok₁ (fun hn => by have := hmax hn; omega) hrun
                exact counts_behind (m := 1) (List.length_pos_iff.mpr hne) hcontent₁ hnext
          · obtain ⟨m, hm⟩ : ∃ m, m = min k (supply s).current.length := ⟨_, rfl⟩
            have hsize : 0 < (supply s).current.length := List.length_pos_iff.mpr hcur
            have hle : m ≤ (supply s).current.length := by omega
            have hall := Supply.length_current_le (supply s)
            have hround := ignore_loop_block tr c h hok hk hm (by omega) fuel
            dsimp only at hround
            rw [hround] at hrun
            split at hrun
            · next hmem =>
              have hhit : (((supply s).current.take m).takeWhile
                  (· ≠ tr.to_char_type c)).length < m := length_line_lt hmem
              obtain ⟨hok₁, hsupply₁⟩ := h.skip s
                ((((supply s).current.take m).takeWhile (· ≠ tr.to_char_type c)).length + 1) hok
                (by omega)
              cases hrun
              exact ⟨hok₁, _, by omega, by rw [hsupply₁, Supply.content_skip (by omega)], rfl⟩
            · obtain ⟨hok₁, hsupply₁⟩ := h.skip s m hok hle
              have hnext := ih hok₁ (fun hn => by omega) hrun
              exact counts_behind (m := m) (by omega) (by rw [hsupply₁, Supply.content_skip hle])
                hnext
        · have hn := hguard.resolve_left hlt
          have hg : g = streamsize_max := Int.le_antisymm (hmax hn) (by omega)
          rw [hg, hn, ignore_loop_overflow h hok hne] at hrun
          cases hrun
    · rw [ignore_loop, if_neg hguard] at hrun
      cases hrun
      exact ⟨hok, 0, Nat.zero_le _, rfl, (Int.add_zero g).symm⟩

theorem get_to_loop_counts {τ : Type} {to_sb : Streambuf τ α} (h : b.Source ok supply) {d : α}
    {s : σ} (hok : ok s) {t : τ} {inserted : Bool} {fuel : Nat} {r : σ × τ × Bool × Bool}
    (hrun : get_to_loop b to_sb d fuel s t inserted = some r) : ok r.1 ∧ ∃ k : Nat,
      put_until to_sb t ((supply s).content.takeWhile (· ≠ d)) = some (r.2.1, k) ∧
        k ≤ (supply s).content.length ∧ (supply r.1).content = (supply s).content.drop k := by
  induction fuel generalizing s t inserted with
  | zero => cases hrun
  | succ fuel ih =>
    obtain ⟨s₁, hs₁, hok₁, hsupply₁⟩ := sgetc_source h hok
    have hcontent₁ : (supply s₁).content = (supply s).content := by
      rw [hsupply₁, Supply.content_peek]
    rw [get_to_loop, hs₁, Option.bind_eq_bind, Option.bind_some] at hrun
    cases hw : (supply s).content with
    | nil =>
      rw [hw] at hrun hcontent₁
      cases hrun
      exact ⟨hok₁, 0, rfl, Nat.zero_le _, hcontent₁⟩
    | cons c w =>
      rw [hw, List.head?_cons] at hrun
      rw [hw] at hcontent₁
      dsimp only at hrun
      split at hrun
      · next hc =>
        cases hrun
        rw [List.takeWhile_cons_of_neg (by simpa)]
        exact ⟨hok₁, 0, rfl, Nat.zero_le _, hcontent₁⟩
      · next hc =>
        obtain ⟨⟨t₁, x⟩, ht₁, hrun⟩ := Option.bind_eq_some_iff.mp hrun
        rw [List.takeWhile_cons_of_pos (by simpa), put_until, ht₁]
        dsimp only at hrun
        cases x with
        | none =>
          cases hrun
          exact ⟨hok₁, 0, rfl, Nat.zero_le _, hcontent₁⟩
        | some x =>
          obtain ⟨s₂, hs₂, hok₂, hsupply₂⟩ := sbumpc_source h hok₁
          have hcontent₂ : (supply s₂).content = w := by
            rw [hsupply₂, Supply.content_bump, hcontent₁]
            rfl
          rw [hs₂] at hrun
          obtain ⟨hok', k, hput, hk, hcontent'⟩ := ih hok₂ hrun
          rw [hcontent₂] at hput hk hcontent'
          refine ⟨hok', k + 1, ?_, Nat.succ_le_succ hk, hcontent'⟩
          simp only [Option.bind_eq_bind, Option.bind_some, Option.isNone_some, Bool.false_eq_true,
            if_false, hput]

theorem ignore_counts {I : Type} [DecidableEq I] {tr : CharTraits α I} {c : I}
    (h : b.Source ok supply) (hsound : ∀ s, is.m_sbuf = some s → ok s) {n : Int} {fuel : Nat}
    {r : Istream ι σ × Bool} (hrun : is.ignore b throws tr n c fuel = some r) :
    (∀ s, r.1.m_sbuf = some s → ok s) ∧ (CountsTaken supply is r.1 ↔
      (¬is.Passes throws → is.m_gcount = 0)) := by
  unfold Istream.ignore at hrun
  by_cases hpass : is.Passes throws
  · rw [sentry_good hpass.1 hpass.2] at hrun
    simp only [Option.bind_eq_bind, Option.bind_some, Bool.false_eq_true, if_false, hpass.1,
      if_true] at hrun
    obtain ⟨s, hbuf, hrun⟩ := Option.bind_eq_some_iff.mp hrun
    obtain ⟨s₁, hs₁, hok₁, hsupply₁⟩ := sgetc_source h (hsound s hbuf)
    rw [hs₁, Option.bind_some] at hrun
    rw [iff_true_right fun hnot => absurd hpass hnot]
    split at hrun
    · cases hrun
      refine reported_counts hbuf hok₁ (Nat.zero_le _) ?_
      rw [hsupply₁, Supply.content_peek]
      rfl
    · obtain ⟨⟨s', g, bits⟩, hloop, hrun⟩ := Option.bind_eq_some_iff.mp hrun
      obtain ⟨hok', k, hk, hcontent', hcount⟩ :=
        ignore_loop_counts h hok₁ (fun _ => by decide) hloop
      have hcount : g = k := hcount.trans (Int.zero_add _)
      cases hrun
      rw [hsupply₁, Supply.content_peek] at hk hcontent'
      rw [hcount]
      exact reported_counts hbuf hok' hk hcontent'
  · obtain ⟨is₁, threw, hsentry, hbuf₁, hcount₁, hgood₁, -⟩ := sentry_stops hpass
    rw [hsentry] at hrun
    simp only [Option.bind_eq_bind, Option.bind_some, hgood₁, Bool.false_eq_true, if_false] at hrun
    rw [imp_iff_right hpass]
    refine stopped_idle hsound ⟨hbuf₁, hcount₁⟩ (.inl ?_)
    split at hrun <;> cases hrun <;> rfl

theorem get_to_counts {τ : Type} {to_sb : Streambuf τ α} (h : b.Source ok supply)
    (hsound : ∀ s, is.m_sbuf = some s → ok s) {t : τ} {d : α} {fuel : Nat}
    {r : Istream ι σ × τ × Bool} (hrun : is.get_to b throws to_sb d fuel t = some r) :
    (∀ s, r.1.m_sbuf = some s → ok s) ∧ (CountsTaken supply is r.1 ↔
      is.m_gcount = if is.Passes throws then
        (accepted to_sb t ((is.left supply).takeWhile (· ≠ d)) : Int) else 0) := by
  unfold get_to at hrun
  by_cases hpass : is.Passes throws
  · rw [sentry_good hpass.1 hpass.2] at hrun
    simp only [Option.bind_eq_bind, Option.bind_some, Bool.false_eq_true, if_false, hpass.1,
      if_true] at hrun
    obtain ⟨s, hbuf, hrun⟩ := Option.bind_eq_some_iff.mp hrun
    obtain ⟨⟨s', t', inserted, ended⟩, hloop, hrun⟩ := Option.bind_eq_some_iff.mp hrun
    cases hrun
    obtain ⟨hok', k, hput, hk, hcontent'⟩ := get_to_loop_counts h (hsound s hbuf) hloop
    obtain ⟨hbuf', hcount'⟩ := report_same (is.with_sbuf s')
      ((if ended then eofbit else goodbit) ||| (if inserted then goodbit else failbit))
    have hbuf' := hbuf'.trans (rfl : _ = some s')
    refine ⟨fun s₂ hs₂ => ?_, ?_⟩
    · cases hbuf'.symm.trans hs₂
      exact hok'
    · rw [← left_of_some hbuf] at hk hput
      rw [if_pos hpass, accepted, hput, counted_iff hk (by
        rw [left_of_some hbuf, left_of_some hbuf', hcontent']), hcount']
      rfl
  · obtain ⟨is₁, threw, hsentry, hbuf₁, hcount₁, hgood₁, -⟩ := sentry_stops hpass
    rw [hsentry] at hrun
    simp only [Option.bind_eq_bind, Option.bind_some, hgood₁, Bool.false_eq_true, if_false] at hrun
    rw [if_neg hpass]
    refine stopped_idle hsound ⟨hbuf₁, hcount₁⟩ ?_
    split at hrun <;> cases hrun
    · exact .inl rfl
    · exact .inr rfl

/-! ## 4. Runs -/

variable {τ I : Type} [DecidableEq I] {to_sb : Streambuf τ α} {tr : CharTraits α I} {nul : α}
  {showmanyc : σ → Int}

/-- One call; the cases are the functions. -/
theorem call_counts (h : b.Reader ok supply early) (hsound : ∀ s, is.m_sbuf = some s → ok s)
    {call : InputCall α I τ} {fuel : Nat} {is' : Istream ι σ}
    (hrun : call.run b to_sb tr nul showmanyc throws is fuel = some is') :
    (∀ s, is'.m_sbuf = some s → ok s) ∧ (call.Exact supply is is' ↔
      call.Counts supply b to_sb early showmanyc throws is) := by
  cases call <;> obtain ⟨r, hr, rfl⟩ := Option.map_eq_some_iff.mp hrun
  case get => exact get_counts h.toSource hsound hr
  case get_char => exact get_char_counts h.toSource hsound hr
  case get_line m d arr => exact get_line_counts h.toOverruns hsound hr
  case get_to t d => exact get_to_counts h.toSource hsound hr
  case getline m d arr => exact getline_counts h.toOverruns hsound hr
  case ignore_one => exact ignore_one_counts h.toSource hsound hr
  case ignore n c => exact ignore_counts h.toSource hsound hr
  case read n => exact read_counts h.toSource h.get_area hsound hr
  case readsome n => exact readsome_counts h.toSource h.get_area hsound hr
  case peek =>
    obtain ⟨hsound', hcount⟩ := peek_counts h.toSource hsound hr
    exact ⟨hsound', iff_of_true hcount trivial⟩
  case putback c =>
    exact ⟨back_sound (fun s s' r => h.sputbackc s c s' r) hsound hr, Iff.rfl⟩
  case unget => exact ⟨back_sound h.sungetc hsound hr, Iff.rfl⟩

end

end GcountLemmas

open GcountLemmas Transition

/-- Wherever a run of calls has come to, `gcount` is exact behind the next one if and only if the
state before it is one in which the number is stored, or the one that is left is right. -/
theorem gcount_exact_iff {ι σ τ α I : Type} [DecidableEq α] [DecidableEq I] {b : Streambuf σ α}
    {ok : σ → Prop} {supply : σ → Supply α} {early : Supply α → Supply α × Option α}
    (h : b.Reader ok supply early) (to_sb : Streambuf τ α) (tr : CharTraits α I) (nul : α)
    (showmanyc : σ → Int) {is₀ is is' : Istream ι σ} {trace : List ((ι → Bool) × InputCall α I τ)}
    {throws : ι → Bool} {call : InputCall α I τ} (hok : ∀ s, is₀.m_sbuf = some s → ok s)
    (hrun : Run (InputCall.calls b to_sb tr nul showmanyc ok) is₀ trace is)
    (hstep : (InputCall.calls b to_sb tr nul showmanyc ok).step is (throws, call) is') :
    call.Exact supply is is' ↔ call.Counts supply b to_sb early showmanyc throws is := by
  have hsound : (InputCall.calls b to_sb tr nul showmanyc ok).init is := by
    refine hrun.invariant_state hok fun is e is' hsound hcall => ?_
    obtain ⟨fuel, hcall⟩ := hcall
    exact (call_counts h hsound hcall).1
  obtain ⟨fuel, hrun⟩ := hstep
  exact (call_counts h hsound hrun).2

namespace Pipe

variable {α : Type}

theorem buf_reader [DecidableEq α] : (buf (α := α)).Reader Whole supply early where
  toOverruns := whole_overruns
  get_area s h := h.1.get_short
  sputbackc s c s' r h hs' := by
    unfold Streambuf.sputbackc at hs'
    dsimp only at hs'
    split at hs'
    · cases hs'
      exact h
    · next hne =>
      obtain ⟨c', -, hs'⟩ := Option.bind_eq_some_iff.mp hs'
      split at hs' <;> cases hs'
      · exact h
      · exact whole_back h hne
  sungetc s s' r h hs' := by
    unfold Streambuf.sungetc at hs'
    dsimp only at hs'
    split at hs'
    · cases hs'
      exact h
    · next hne =>
      obtain ⟨c', -, hs'⟩ := Option.bind_eq_some_iff.mp hs'
      cases hs'
      exact whole_back h hne

end Pipe

/-- Calls on a device that throws nothing; the characters are taken for themselves. -/
abbrev Pipe.calls : System (Istream Unit (Pipe (BitVec 8)))
    ((Unit → Bool) × InputCall (BitVec 8) Int (Pipe (BitVec 8))) :=
  InputCall.calls Pipe.buf Pipe.buf CharTraits.char 0 (fun _ => -1) Pipe.Whole

/-- Behind the first two characters there is one to get. -/
theorem gcount_exact_iff_example :
    let s := Pipe.stream (Pipe.bytes [.area 1 [2], .single 3])
    ∃ is is', Run Pipe.calls s [(fun _ => false, .read 2)] is ∧
      Pipe.calls.step is (fun _ => false, .get_char) is' ∧
      CountsTaken Pipe.supply is is' ∧ is'.m_gcount = 1 := by
  intro s
  let read := (InputCall.read 2).run Pipe.buf Pipe.buf CharTraits.char 0 (fun _ => -1)
    (fun _ => false) s 0
  let is := read.get (by decide)
  let next := InputCall.get_char.run Pipe.buf Pipe.buf CharTraits.char 0 (fun _ => -1)
    (fun _ => false) is 0
  let is' := next.get (by decide)
  have hrun : Run Pipe.calls s [(fun _ => false, .read 2)] is :=
    Run.single ⟨0, (Option.some_get _).symm⟩
  have hstep : Pipe.calls.step is (fun _ => false, .get_char) is' := ⟨0, (Option.some_get _).symm⟩
  refine ⟨is, is', hrun, hstep, ?_, by decide⟩
  refine (gcount_exact_iff Pipe.buf_reader Pipe.buf CharTraits.char 0 (fun _ => -1) ?_ hrun
    hstep).mpr fun hend => absurd (hend ⟨by decide, rfl⟩).1 (by decide)
  intro s' hs'
  cases hs'
  exact ⟨Pipe.ok_bytes (by decide), Int.le_refl _, by decide⟩

/-- The sentry of `get(c)` lets nothing through, and the number of the call before is left. -/
theorem not_gcount_exact :
    ¬∀ (s : Pipe (BitVec 8)) is is' trace call, s.Whole → Run Pipe.calls (Pipe.stream s) trace is →
      Pipe.calls.step is (fun _ => false, call) is' → call.Exact Pipe.supply is is' := by
  intro hexact
  let s := Pipe.bytes [.area 1 []]
  let read := (InputCall.read 2).run Pipe.buf Pipe.buf CharTraits.char 0 (fun _ => -1)
    (fun _ => false) (Pipe.stream s) 0
  let is := read.get (by decide)
  let next := InputCall.get_char.run Pipe.buf Pipe.buf CharTraits.char 0 (fun _ => -1)
    (fun _ => false) is 0
  let is' := next.get (by decide)
  have hrun : Run Pipe.calls (Pipe.stream s) [(fun _ => false, .read 2)] is :=
    Run.single ⟨0, (Option.some_get _).symm⟩
  have hstep : Pipe.calls.step is (fun _ => false, .get_char) is' := ⟨0, (Option.some_get _).symm⟩
  have hwhole : s.Whole := ⟨Pipe.ok_bytes (by decide), Int.le_refl _, by decide⟩
  obtain ⟨k, hk, -, hcount⟩ : CountsTaken Pipe.supply is is' :=
    hexact s is is' _ _ hwhole hrun hstep
  have hleft : is.left Pipe.supply = [] := by decide
  have hold : is'.m_gcount = 1 := by decide
  rw [hleft, List.length_nil] at hk
  omega

end Kuhllib.Cxxrt
