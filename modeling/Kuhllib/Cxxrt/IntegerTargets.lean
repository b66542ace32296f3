import Kuhllib.Cxxrt.IntegerStreams
import Kuhllib.Cxxrt.Istream

/-!
# The targets of `operator>>` for integers

The streams read from any buffer that gives the characters of a supply. `short` and `int` are read
through a `long` that is not initialised; it is cut to the limits and stored whatever has happened,
unless an exception leaves the operator.

Results:
1. `get_integer_failed`: what is left alone if `failbit` is set.
2. `get_numeric_fails`: whether a call that fails throws.
3. `target_kept_iff`: when the target keeps its value.
-/

namespace Kuhllib.Cxxrt

section

variable {σ : Type} (b : Streambuf σ Int)

/-- The characters that an iterator gives, from the current one on. -/
def Streambuf.upcoming : Nat → σ → Option Int → Option (List Int)
  | 0, _, _ => none
  | _ + 1, _, none => some []
  | fuel + 1, s, some c => do
    let (s, next) ← b.snextc s
    let cs ← upcoming fuel s next
    some (c :: cs)

/-- `++` of the iterator. -/
def Streambuf.advance : Nat → σ → Option σ
  | 0, s => some s
  | k + 1, s => do
    let (s, _) ← b.snextc s
    advance k s

/-- `num_get::get`, given by what it does with the characters that are left. -/
def Streambuf.num_get {V : Type} (fuel : Nat) (get : List Int → Got V) (s : σ) :
    Option (σ × Got V) := do
  let (s, c) ← b.sgetc s
  let input ← b.upcoming fuel s c
  let g := get input
  let s ← b.advance (input.length - g.begin.length) s
  some (s, g)

variable {ι : Type} (is_space : Int → Bool) (throws : ι → Bool) (fuel : Nat)

/-- `_CS_get_numeric`; the stream, what `val` holds at the end, and whether it throws. -/
def Istream.get_numeric {V : Type} (get : Basefield → List Int → V → Got V) (is : Istream ι σ)
    (val : V) : Option (Istream ι σ × V × Bool) := do
  let (is, threw) ← is.sentry throws (some (b.skip_ws is_space fuel))
  if threw then some (is, val, true)
  else do
    let (is, val, threw) ←
      if is.good then do
        let s ← is.m_sbuf
        let (s, g) ← b.num_get fuel (get (.of is.flags) · val) s
        let err := (if g.failbit then failbit else goodbit) |||
          (if g.eofbit then eofbit else goodbit)
        let (is, threw) := (is.with_sbuf s).setstate err
        some (is, g.val, threw)
      else
        let (is, threw) := is.setstate failbit
        some (is, val, threw)
    if threw then
      let (is, threw) := is.process_exception
      some (is, val, threw)
    else some (is, val, false)

/-- `operator>>`. The narrow signed types read a `long` that holds `tmp` before. -/
def Istream.extract_integer (t : Cache) (ty : IntType) (is : Istream ι σ) (tmp val : Int) :
    Option (Istream ι σ × Int × Bool) :=
  match ty with
  | .short | .int => do
    let (is, tmp, threw) ←
      is.get_numeric b is_space throws fuel (get_signed_integer t) tmp
    some (is, if threw then val else ty.clamp tmp, threw)
  | .long => is.get_numeric b is_space throws fuel (get_signed_integer t) val
  | .unsigned u => do
    let (is, val, threw) ←
      is.get_numeric b is_space throws fuel (get_unsigned_integer t u) val.toNat
    some (is, val, threw)

end

/-- `short` and `int`, which are read through a `long`. -/
def IntType.narrow : IntType → Bool
  | .short | .int => true
  | .long | .unsigned _ => false

/-- There is nothing but a sign, if at all. -/
def sign_only (t : Cache) : List Int → Bool
  | [] => true
  | [c] => t.find c = CacheBase.minus || t.find c = CacheBase.plus
  | _ => false

/-- `failure` is thrown by a call that fails, and leaves it. -/
def Istream.Leaves {ι σ : Type} (is : Istream ι σ) (ended : Bool) : Prop :=
  is.m_exceptions &&& badbit ≠ 0 ∧
    (is.m_state ||| failbit ||| if is.good && ended then eofbit else goodbit) &&&
      is.m_exceptions ≠ 0

/-- What is to be read. -/
def Istream.input {ι σ : Type} (supply : σ → Supply Int) (is_space : Int → Bool)
    (is : Istream ι σ) : List Int :=
  is.m_sbuf.elim [] fun s => (is.skipped is_space (supply s)).content

namespace IntegerTargetsLemmas

open IstreamLemmas SourcesLemmas

/-! ## 1. The facet -/

section

variable {t : Cache} {bf : Basefield} {w : List Int}

theorem check_overflow_read (base : Nat) (negative : Bool) (val : Nat) (begin : List Int) :
    (check_overflow t base negative val begin).failbit = false := by
  unfold check_overflow
  split
  · rfl
  · split
    · split
      · split
        · rfl
        · split <;> rfl
      · rfl
    · rfl

theorem get_value_read (base : Nat) (negative : Bool) (w : List Int) :
    (get_value t base negative w).failbit = false := by
  unfold get_value
  split
  · rfl
  · dsimp only
    split
    · rfl
    · split
      · exact check_overflow_read base negative _ _
      · rfl

theorem get_prefix_failed {negative : Bool} (h : ( get_prefix t bf negative w).failbit = true) :
    ( get_prefix t bf negative w).ok = false ∧ ( get_prefix t bf negative w).val = 0 ∧
      ( get_prefix t bf negative w).eofbit = w.isEmpty := by
  cases w with
  | nil => exact ⟨rfl, rfl, rfl⟩
  | cons c cs =>
    unfold get_prefix at h ⊢
    dsimp only at h ⊢
    by_cases hzero : t.find c = 0
    · -- behind a zero there is a value, whatever comes
      exfalso
      rw [if_pos hzero] at h
      split at h
      · cases h
      · split at h
        · split at h
          · split at h
            · cases h
            · split at h
              · cases h
              · rw [get_value_read] at h
                cases h
          · rw [get_value_read] at h
            cases h
        · rw [get_value_read] at h
          cases h
    · rw [if_neg hzero] at h ⊢
      by_cases hdigit : t.find c ≥ if bf.base = 17 then 10 else bf.base
      · rw [if_pos hdigit]
        exact ⟨rfl, rfl, rfl⟩
      · rw [if_neg hdigit, get_value_read] at h
        cases h

/-- Nothing is read if `failbit` is set. -/
theorem get_integer_failed (h : (get_integer t bf w).failbit = true) :
    (get_integer t bf w).ok = false ∧ (get_integer t bf w).val = 0 ∧
      (get_integer t bf w).eofbit = sign_only t w := by
  cases w with
  | nil => exact ⟨rfl, rfl, rfl⟩
  | cons c cs =>
    unfold get_integer at h ⊢
    dsimp only at h ⊢
    by_cases hminus : t.find c = CacheBase.minus
    · rw [if_pos hminus] at h ⊢
      obtain ⟨hok, hval, heof⟩ := get_prefix_failed h
      refine ⟨hok, hval, heof.trans ?_⟩
      cases cs with
      | nil => simp [sign_only, hminus]
      | cons d cs => rfl
    · rw [if_neg hminus] at h ⊢
      by_cases hplus : t.find c = CacheBase.plus
      · rw [if_pos hplus] at h ⊢
        obtain ⟨hok, hval, heof⟩ := get_prefix_failed h
        refine ⟨hok, hval, heof.trans ?_⟩
        cases cs with
        | nil => simp [sign_only, hplus]
        | cons d cs => rfl
      · rw [if_neg hplus] at h ⊢
        obtain ⟨hok, hval, heof⟩ := get_prefix_failed h
        refine ⟨hok, hval, heof.trans ?_⟩
        cases cs with
        | nil => simp [sign_only, hminus, hplus]
        | cons d cs => rfl

theorem get_signed_failed {val : Int} (h : (get_signed_integer t bf w val).failbit = true) :
    (get_signed_integer t bf w val).val = val ∧
      (get_signed_integer t bf w val).eofbit = sign_only t w := by
  obtain ⟨hok, hval, heof⟩ := get_integer_failed h
  refine ⟨?_, heof⟩
  unfold get_signed_integer
  dsimp only
  rw [hok, hval, if_neg Bool.false_ne_true, if_neg (by decide)]

theorem get_unsigned_failed {u : Unsigned} {val : Nat}
    (h : (get_unsigned_integer t u bf w val).failbit = true) :
    (get_unsigned_integer t u bf w val).val = val ∧
      (get_unsigned_integer t u bf w val).eofbit = sign_only t w := by
  obtain ⟨hok, hval, heof⟩ := get_integer_failed h
  refine ⟨?_, heof⟩
  unfold get_unsigned_integer
  dsimp only
  rw [hok, hval, if_neg Bool.false_ne_true, if_neg (by decide)]

end

/-! The characters of the buffer -/

section

variable {σ : Type} {b : Streambuf σ Int} {ok : σ → Prop} {supply : σ → Supply Int} {s : σ}

theorem upcoming_source (h : b.Source ok supply) (hok : ok s) {fuel : Nat} {S : Supply Int}
    (hS : supply s = S.peek) (hfuel : S.content.length < fuel) :
    b.upcoming fuel s S.content.head? = some S.content := by
  induction fuel generalizing s S with
  | zero => cases hfuel
  | succ fuel ih =>
    cases hw : S.content with
    | nil => rfl
    | cons c w =>
      obtain ⟨s₁, hs₁, hok₁, hsupply₁⟩ := snextc_source h hok
      rw [hS, Supply.content_peek, ← Supply.content_bump] at hs₁
      rw [hS, Supply.bump_peek] at hsupply₁
      have hrest : S.bump.content = w := by
        rw [Supply.content_bump, hw]
        rfl
      rw [hw] at hfuel
      have hrec := ih hok₁ hsupply₁ (hrest ▸ Nat.lt_of_succ_lt_succ hfuel)
      rw [List.head?_cons, Streambuf.upcoming, hs₁]
      simp only [Option.bind_eq_bind, Option.bind_some]
      rw [hrec, hrest]
      rfl

theorem advance_source (h : b.Source ok supply) (hok : ok s) (k : Nat) :
    ∃ s', b.advance k s = some s' ∧ ok s' := by
  induction k generalizing s with
  | zero => exact ⟨s, rfl, hok⟩
  | succ k ih =>
    obtain ⟨s₁, hs₁, hok₁, -⟩ := snextc_source h hok
    obtain ⟨s', hs', hok'⟩ := ih hok₁
    refine ⟨s', ?_, hok'⟩
    rw [Streambuf.advance, hs₁]
    exact hs'

theorem num_get_source {V : Type} (h : b.Source ok supply) (hok : ok s) {fuel : Nat}
    (hfuel : (supply s).content.length < fuel) (get : List Int → Got V) :
    ∃ s', b.num_get fuel get s = some (s', get (supply s).content) ∧ ok s' := by
  obtain ⟨s₁, hs₁, hok₁, hsupply₁⟩ := sgetc_source h hok
  obtain ⟨s', hs', hok'⟩ := advance_source h hok₁
    ((supply s).content.length - (get (supply s).content).begin.length)
  refine ⟨s', ?_, hok'⟩
  rw [Streambuf.num_get, hs₁]
  simp only [Option.bind_eq_bind, Option.bind_some]
  rw [upcoming_source h hok₁ hsupply₁ hfuel, Option.bind_some, hs']
  rfl

end

/-! ## 2. The stream -/

section

variable {ι σ : Type} {is : Istream ι σ} {s : σ}

theorem or_bad : ∀ x y : Iostate, x &&& badbit ≠ 0 → x ||| y ||| badbit = x ||| y := by decide

theorem or_bad_fail : ∀ x : Iostate, (x ||| badbit) &&& failbit = x &&& failbit := by decide

/-- A stream without a buffer is bad. -/
theorem setstate_any (hnull : is.m_sbuf = none → is.m_state &&& badbit ≠ 0) (state : Iostate) :
    ∃ f, is.setstate state = ({ is with fmtflags := f, m_state := is.m_state ||| state },
      decide ((is.m_state ||| state) &&& is.m_exceptions ≠ 0)) := by
  by_cases hbuf : is.m_sbuf = none
  · have hnone : is.m_sbuf.isNone = true := Option.isNone_iff_eq_none.mpr hbuf
    unfold Istream.setstate Ios.setstate Ios.clear
    simp only [hnone, if_true, or_bad _ state (hnull hbuf)]
    split
    · next hthrow =>
      rw [decide_eq_true hthrow]
      exact ⟨_, rfl⟩
    · next hthrow =>
      rw [decide_eq_false hthrow]
      split <;> exact ⟨_, rfl⟩
  · exact setstate_eq hbuf state

end

section

variable {ι σ V : Type} {b : Streambuf σ Int} {ok : σ → Prop} {supply : σ → Supply Int}
  {is_space : Int → Bool} {throws : ι → Bool} {fuel : Nat} (get : Basefield → List Int → V → Got V)
  {is is₁ : Istream ι σ} {s : σ} {t : Cache}

theorem get_numeric_thrown
    (hsentry : is.sentry throws (some (b.skip_ws is_space fuel)) = some (is₁, true)) (val : V) :
    is.get_numeric b is_space throws fuel get val = some (is₁, val, true) := by
  unfold Istream.get_numeric
  rw [hsentry]
  rfl

/-- The sentry has failed. -/
theorem get_numeric_refused
    (hsentry : is.sentry throws (some (b.skip_ws is_space fuel)) = some (is₁, false))
    (hgood : is₁.good = false) (hnull : is₁.m_sbuf = none → is₁.m_state &&& badbit ≠ 0) (val : V) :
    ∃ is', is.get_numeric b is_space throws fuel get val = some (is', val,
      decide (is₁.m_exceptions &&& badbit ≠ 0 ∧
        (is₁.m_state ||| failbit) &&& is₁.m_exceptions ≠ 0)) := by
  obtain ⟨f, hset⟩ := setstate_any hnull failbit
  unfold Istream.get_numeric
  rw [hsentry]
  simp only [Option.bind_eq_bind, Option.bind_some, hgood, Bool.false_eq_true, if_false, hset,
    decide_eq_true_eq]
  by_cases hthrow : (is₁.m_state ||| failbit) &&& is₁.m_exceptions ≠ 0
  · obtain ⟨f', hproc⟩ := process_exception_eq
      ({ is₁ with fmtflags := f, m_state := is₁.m_state ||| failbit } : Istream ι σ)
    rw [if_pos hthrow, hproc]
    exact ⟨_, congrArg (fun threw => some (_, val, threw))
      (decide_eq_decide.mpr (and_iff_left hthrow).symm)⟩
  · rw [if_neg hthrow, decide_eq_false fun hand => hthrow hand.2]
    exact ⟨_, rfl⟩

theorem fail_bits (failed ended : Bool) :
    ((if failed then failbit else goodbit) ||| (if ended then eofbit else goodbit)) &&&
      failbit ≠ 0 ↔ failed = true := by
  cases failed <;> cases ended <;> decide

/-- The facet is asked. -/
theorem get_numeric_asked (h : b.Source ok supply) (hbuf : is₁.m_sbuf = some s) (hok : ok s)
    (hfuel : (supply s).content.length < fuel)
    (hsentry : is.sentry throws (some (b.skip_ws is_space fuel)) = some (is₁, false))
    (hgood : is₁.good = true) (val : V) :
    let g := get (.of is₁.flags) (supply s).content val
    let err := (if g.failbit then failbit else goodbit) ||| (if g.eofbit then eofbit else goodbit)
    ∃ is', is.get_numeric b is_space throws fuel get val = some (is', g.val,
        decide (is₁.m_exceptions &&& badbit ≠ 0 ∧ err &&& is₁.m_exceptions ≠ 0)) ∧
      (is'.m_state &&& failbit ≠ 0 ↔ g.failbit = true) := by
  obtain ⟨s', hs', -⟩ := num_get_source h hok hfuel (get (.of is₁.flags) · val)
  have hstate : (is₁.with_sbuf s').m_state = goodbit := of_decide_eq_true hgood
  dsimp only
  generalize get (.of is₁.flags) (supply s).content val = g at hs' ⊢
  have hfail := fail_bits g.failbit g.eofbit
  unfold Istream.get_numeric
  rw [hsentry]
  simp only [Option.bind_eq_bind, Option.bind_some, hgood, Bool.false_eq_true, if_false, if_true,
    hbuf, hs']
  generalize (if g.failbit then failbit else goodbit) ||| (if g.eofbit then eofbit else goodbit) =
    err at hfail ⊢
  have hne : (is₁.with_sbuf s').m_sbuf ≠ none := Option.some_ne_none s'
  obtain ⟨f, hset⟩ := setstate_eq hne err
  rw [hstate, good_or] at hset
  rw [hset]
  dsimp only
  by_cases hthrow : err &&& (is₁.with_sbuf s').m_exceptions ≠ 0
  · obtain ⟨f', hproc⟩ := process_exception_eq
      ({ is₁.with_sbuf s' with fmtflags := f, m_state := err } : Istream ι σ)
    dsimp only at hproc
    rw [decide_eq_true hthrow, if_pos rfl, hproc]
    refine ⟨_, congrArg (fun threw => some (_, g.val, threw))
      (decide_eq_decide.mpr (and_iff_left hthrow).symm), ?_⟩
    show (err ||| badbit) &&& failbit ≠ 0 ↔ _
    rw [or_bad_fail]
    exact hfail
  · rw [decide_eq_false hthrow, if_neg Bool.false_ne_true]
    have hkept : decide (is₁.m_exceptions &&& badbit ≠ 0 ∧ err &&& is₁.m_exceptions ≠ 0) = false :=
      decide_eq_false fun hand => hthrow hand.2
    rw [hkept]
    exact ⟨{ is₁.with_sbuf s' with fmtflags := f, m_state := err }, rfl, hfail⟩

/-- The sentry has found the end. -/
theorem get_numeric_ended (hsbuf : is₁.m_sbuf = some s) (hgood : is₁.good = true)
    (hsentry : is.sentry throws (some (b.skip_ws is_space fuel)) =
      some (is₁.report (eofbit ||| failbit))) (val : V) : ∃ is' threw,
      is.get_numeric b is_space throws fuel get val = some (is', val, threw) ∧
        (threw = true ↔ is₁.Leaves true) := by
  have hstate : is₁.m_state = goodbit := of_decide_eq_true hgood
  have hleaves : is₁.Leaves true ↔ is₁.m_exceptions &&& badbit ≠ 0 ∧
      (eofbit ||| failbit) &&& is₁.m_exceptions ≠ 0 := by
    unfold Istream.Leaves
    rw [hgood, hstate]
    rfl
  obtain ⟨f, hset⟩ := setstate_eq (hsbuf ▸ Option.some_ne_none s) (eofbit ||| failbit)
  rw [hstate, good_or] at hset
  unfold Istream.report at hsentry
  rw [if_neg (by decide), hset] at hsentry
  dsimp only at hsentry
  by_cases hthrow : (eofbit ||| failbit) &&& is₁.m_exceptions ≠ 0
  · obtain ⟨f', hproc⟩ := process_exception_eq
      ({ is₁ with fmtflags := f, m_state := eofbit ||| failbit } : Istream ι σ)
    rw [decide_eq_true hthrow, if_pos rfl, hproc] at hsentry
    dsimp only at hsentry
    by_cases hbad : is₁.m_exceptions &&& badbit ≠ 0
    · rw [decide_eq_true hbad] at hsentry
      exact ⟨_, true, get_numeric_thrown get hsentry val,
        iff_of_true rfl (hleaves.mpr ⟨hbad, hthrow⟩)⟩
    · rw [decide_eq_false hbad] at hsentry
      obtain ⟨is', hrun⟩ := get_numeric_refused get hsentry
        (decide_eq_false (show ¬(eofbit ||| failbit) ||| badbit = goodbit by decide))
        (fun _ => (by decide : ((eofbit ||| failbit) ||| badbit : Iostate) &&& badbit ≠ 0)) val
      refine ⟨is', _, hrun, ?_⟩
      rw [decide_eq_true_eq, hleaves]
      exact iff_of_false (fun hand => hbad hand.1) fun hand => hbad hand.1
  · rw [decide_eq_false hthrow, if_neg Bool.false_ne_true] at hsentry
    obtain ⟨is', hrun⟩ := get_numeric_refused get hsentry
      (decide_eq_false (show ¬eofbit ||| failbit = goodbit by decide))
      (fun hnone => absurd (hsbuf.symm.trans hnone) (Option.some_ne_none s)) val
    refine ⟨is', _, hrun, ?_⟩
    rw [decide_eq_true_eq, hleaves]
    have hsame : (eofbit ||| failbit) ||| failbit = eofbit ||| failbit := rfl
    exact and_congr_right fun _ => iff_of_eq (congrArg (· &&& is₁.m_exceptions ≠ 0) hsame)

variable (is_space throws)

/-- What a call that fails leaves alone, and whether it throws. -/
theorem get_numeric_fails (h : b.Source ok supply)
    (hget : ∀ bf w v, (get bf w v).failbit = true →
      (get bf w v).val = v ∧ (get bf w v).eofbit = sign_only t w)
    (hbuf : ∀ s, is.m_sbuf = some s → ok s ∧ (supply s).content.length < fuel)
    (hnull : is.m_sbuf = none → is.m_state &&& badbit ≠ 0) (val : V) : ∃ is' val' threw,
      is.get_numeric b is_space throws fuel get val = some (is', val', threw) ∧
      (is'.m_state &&& failbit ≠ 0 →
        val' = val ∧ (threw = true ↔ is.Leaves (sign_only t (is.input supply is_space)))) := by
  cases hgood : is.good with
  | false =>
    have hsentry : is.sentry throws (some (b.skip_ws is_space fuel)) = some (is, false) := by
      rw [Istream.sentry, hgood]
      rfl
    obtain ⟨is', hrun⟩ := get_numeric_refused get hsentry hgood hnull val
    refine ⟨is', val, _, hrun, fun _ => ⟨rfl, ?_⟩⟩
    rw [decide_eq_true_eq, Istream.Leaves, hgood, Bool.false_and, if_neg Bool.false_ne_true]
    rw [show is.m_state ||| failbit ||| goodbit = is.m_state ||| failbit from BitVec.or_zero]
  | true =>
    have hstate : is.m_state = goodbit := of_decide_eq_true hgood
    obtain ⟨s, hsbuf⟩ := Option.ne_none_iff_exists'.mp fun hnone =>
      hnull hnone (by rw [hstate]; decide)
    obtain ⟨hok, hfuel⟩ := hbuf s hsbuf
    cases htie : is.m_tie.any throws with
    | true =>
      obtain ⟨f, hproc⟩ := process_exception_eq is
      have hsentry : is.sentry throws (some (b.skip_ws is_space fuel)) =
          some is.process_exception := by
        rw [Istream.sentry, hgood, htie]
        rfl
      rw [hproc, hstate] at hsentry
      by_cases hbad : is.m_exceptions &&& badbit ≠ 0
      · rw [decide_eq_true hbad] at hsentry
        refine ⟨_, val, true, get_numeric_thrown get hsentry val, fun hfail => absurd hfail ?_⟩
        exact not_not.mpr (show (goodbit ||| badbit) &&& failbit = 0 by decide)
      · rw [decide_eq_false hbad] at hsentry
        obtain ⟨is', hrun⟩ := get_numeric_refused get hsentry
          (decide_eq_false (show ¬goodbit ||| badbit = goodbit by decide))
          (fun _ => (by decide : (goodbit ||| badbit : Iostate) &&& badbit ≠ 0)) val
        refine ⟨is', val, _, hrun, fun _ => ⟨rfl, ?_⟩⟩
        rw [decide_eq_true_eq]
        exact iff_of_false (fun hand => hbad hand.1) fun hand => hbad hand.1
    | false =>
      have hinput : is.input supply is_space = (is.skipped is_space (supply s)).content := by
        rw [Istream.input, hsbuf]
        rfl
      obtain ⟨s₁, hok₁, hsupply₁, hsentry⟩ := sentry_skip is_space h hok hsbuf hgood htie hfuel
      have hsbuf₁ : (is.with_sbuf s₁).m_sbuf = some s₁ := rfl
      rw [← hinput] at hsentry
      by_cases hended : is.flags &&& skipws ≠ 0 ∧ is.input supply is_space = []
      · rw [if_pos hended] at hsentry
        rw [hended.2]
        obtain ⟨is', threw, hrun, hthrew⟩ := get_numeric_ended get hsbuf₁ hgood hsentry val
        exact ⟨is', val, threw, hrun, fun _ => ⟨rfl, hthrew⟩⟩
      · rw [if_neg hended] at hsentry
        obtain ⟨is', hrun, hfail⟩ := get_numeric_asked get h hsbuf₁
          hok₁ (Nat.lt_of_le_of_lt (hsupply₁ ▸ length_skipped _) hfuel) hsentry hgood val
        rw [hsupply₁, ← hinput] at hrun hfail
        refine ⟨is', _, _, hrun, fun hset => ?_⟩
        obtain ⟨hval, heof⟩ := hget _ _ _ (hfail.mp hset)
        refine ⟨hval, ?_⟩
        rw [heof, hfail.mp hset, decide_eq_true_eq, Istream.Leaves, hgood, hstate, Bool.true_and,
          good_or]
        rfl

end

theorem narrow_kept {ty : IntType} (hty : ty.narrow = true) {tmp tmp' val : Int} {threw : Bool}
    {L : Prop} (htmp : tmp' = tmp) (hthrew : threw = true ↔ L) :
    (if threw then val else ty.clamp tmp') = val ↔
      ty.narrow = false ∨ ty.clamp tmp = val ∨ L := by
  rw [htmp, hty, or_iff_right Bool.false_ne_true.symm, ← hthrew]
  cases threw with
  | true => exact iff_of_true rfl (.inr rfl)
  | false =>
    rw [if_neg Bool.false_ne_true]
    exact (or_iff_left Bool.false_ne_true).symm

end IntegerTargetsLemmas

open IntegerTargetsLemmas

/-- A call that fails leaves the target alone unless the type is `short` or `int`, and no exception
leaves it. -/
theorem target_kept_iff {ι σ : Type} {b : Streambuf σ Int} {ok : σ → Prop}
    {supply : σ → Supply Int} (h : b.Source ok supply) {is : Istream ι σ} {fuel : Nat}
    (hbuf : ∀ s, is.m_sbuf = some s → ok s ∧ (supply s).content.length < fuel)
    (hnull : is.m_sbuf = none → is.m_state &&& badbit ≠ 0) (is_space : Int → Bool)
    (throws : ι → Bool) (t : Cache) (ty : IntType) (tmp : Int) {val : Int}
    (hval : ty.min ≤ val ∧ val ≤ ty.max) : ∃ is' val' threw,
      is.extract_integer b is_space throws fuel t ty tmp val = some (is', val', threw) ∧
      (is'.m_state &&& failbit ≠ 0 → (val' = val ↔
        ty.narrow = false ∨ ty.clamp tmp = val ∨
          is.Leaves (sign_only t (is.input supply is_space)))) := by
  have hsigned := get_numeric_fails is_space throws (get_signed_integer t) h
    (fun _ _ _ => get_signed_failed) hbuf hnull
  cases ty with
  | short =>
    obtain ⟨is', tmp', threw, hrun, hfail⟩ := hsigned tmp
    refine ⟨is', _, threw, ?_, fun hset => narrow_kept rfl (hfail hset).1 (hfail hset).2⟩
    unfold Istream.extract_integer
    rw [hrun]
    rfl
  | int =>
    obtain ⟨is', tmp', threw, hrun, hfail⟩ := hsigned tmp
    refine ⟨is', _, threw, ?_, fun hset => narrow_kept rfl (hfail hset).1 (hfail hset).2⟩
    unfold Istream.extract_integer
    rw [hrun]
    rfl
  | long =>
    obtain ⟨is', val', threw, hrun, hfail⟩ := hsigned val
    exact ⟨is', val', threw, hrun, fun hset => iff_of_true (hfail hset).1 (.inl rfl)⟩
  | unsigned u =>
    obtain ⟨is', val', threw, hrun, hfail⟩ := get_numeric_fails is_space throws
      (get_unsigned_integer t u) h (fun _ _ _ => get_unsigned_failed) hbuf hnull val.toNat
    refine ⟨is', val', threw, ?_, fun hset => iff_of_true ?_ (.inl rfl)⟩
    · unfold Istream.extract_integer
      dsimp only
      rw [hrun]
      rfl
    · rw [(hfail hset).1]
      exact Int.toNat_of_nonneg hval.1

/-- No area at the beginning; the characters are numbers. -/
def Pipe.codes (chunks : List (Chunk Int)) : Pipe Int :=
  ⟨⟨(Device.new 0 []).areas, fun _ => 0, [], []⟩, chunks⟩

theorem Pipe.ok_codes {chunks : List (Chunk Int)}
    (hchunks : ∀ chunk ∈ chunks, chunk.elems.length < 2 ^ 31) : (Pipe.codes chunks).Ok where
  get_order := Int.le_refl _
  get_short := (by decide : (0 : Int) - 0 < 2 ^ 31)
  put_order := Int.le_refl _
  put_short := (by decide : (0 : Int) - 0 < 2 ^ 31)
  chunks := hchunks
  script := fun _ hmem => absurd hmem List.not_mem_nil

/-- The exception leaves the operator. -/
theorem target_kept_iff_example :
    let s := Pipe.codes [.area (widen ' ') [widen 'x']]
    let is := { Pipe.stream s with m_exceptions := failbit ||| badbit }
    ∃ is' val' threw, is.extract_integer Pipe.buf is_space (fun _ => false) 3 classic .short 9 5 =
      some (is', val', threw) ∧ is'.m_state &&& failbit ≠ 0 ∧ val' = 5 := by
  intro s is
  have hok : s.Ok := Pipe.ok_codes (by decide)
  have hbuf : ∀ s', is.m_sbuf = some s' → s'.Ok ∧ s'.supply.content.length < 3 := by
    intro s' hs'
    cases hs'
    exact ⟨hok, by decide⟩
  have hval : IntType.short.min ≤ 5 ∧ 5 ≤ IntType.short.max := by decide
  obtain ⟨is', val', threw, hrun, hkept⟩ := target_kept_iff Pipe.buf_source hbuf
    (fun hnone => nomatch hnone) is_space (fun _ => false) classic .short 9 hval
  have hset : (is.extract_integer Pipe.buf is_space (fun _ => false) 3 classic .short 9 5).map
      (fun r => r.1.m_state &&& failbit) = some failbit := by decide +kernel
  rw [hrun, Option.map_some] at hset
  have hfail : is'.m_state &&& failbit ≠ 0 := by
    rw [Option.some_inj.mp hset]
    decide
  exact ⟨is', val', threw, hrun, hfail,
    (hkept hfail).mpr (.inr (.inr ⟨by decide, by decide +kernel⟩))⟩

/-- What the temporary holds is stored. -/
theorem not_target_kept :
    let s := Pipe.codes [.area (widen 'x') []]
    ∃ is' val' threw, (Pipe.stream s).extract_integer Pipe.buf is_space (fun _ => false) 3 classic
      .short 9 5 = some (is', val', threw) ∧ is'.m_state &&& failbit ≠ 0 ∧ val' ≠ 5 := by
  intro s
  have hrun : ((Pipe.stream s).extract_integer Pipe.buf is_space (fun _ => false) 3 classic
      .short 9 5).map (fun r => (r.1.m_state, r.2.1)) = some (failbit, 9) := by decide +kernel
  obtain ⟨⟨is', val', threw⟩, heq, hseen⟩ := Option.map_eq_some_iff.mp hrun
  obtain ⟨hstate, hval⟩ := Prod.ext_iff.mp hseen
  dsimp only at hstate hval
  exact ⟨is', val', threw, heq, by rw [hstate]; decide, by rw [hval]; decide⟩

end Kuhllib.Cxxrt
