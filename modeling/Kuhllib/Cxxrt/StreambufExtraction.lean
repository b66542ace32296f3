import Kuhllib.Cxxrt.StreambufCopies

/-!
# Copying from an input stream to a stream buffer

The helpers of `operator>>` return a `char_type`. One of the characters is what `eof()` becomes,
and is taken for the end. The first character is looked at and inserted, and then `_CS_snextc`
takes it from the source and it is inserted once more.

Results:
1. `extract_loop_eq`, `extract_body_eq`: what is inserted.
2. `extract_sbuf_copies_iff`: when the characters of the source are copied.
-/

namespace Kuhllib.Cxxrt

section

variable {σ τ α : Type} [DecidableEq α] (b : Streambuf σ α) (t : Streambuf τ α) (lost : α)

/-- What is an `int_type` again after it was a `char_type`. -/
def through_char (c : Option α) : Option α := if c.getD lost = lost then none else c

/-- The loop of `operator>>`, and whether it finds the end. -/
def extract_sbuf_loop : Nat → σ → τ → Option (σ × τ × Bool)
  | 0, _, _ => none
  | fuel + 1, s, u => do
    let (s, c) ← b.sbumpc s
    match through_char lost c with
    | none => some (s, u, true)
    | some c => do
      let (u, r) ← t.sputc u c
      if r.isNone then some (s, u, false) else extract_sbuf_loop fuel s u

/-- The `try` block of `operator>>`, and what is passed to `setstate`. -/
def extract_sbuf_body (fuel : Nat) (s : σ) (u : τ) : Option (σ × τ × Iostate) := do
  let (s, c) ← b.sgetc s
  match through_char lost c with
  | none => some (s, u, failbit)
  | some c => do
    let (u, r) ← t.sputc u c
    if r.isNone then some (s, u, failbit)
    else do
      let (s, u, ended) ← extract_sbuf_loop b t lost fuel s u
      some (s, u, if ended then eofbit else goodbit)

/-- `operator>>(sb)`; the buffer that is written to, and whether it throws. -/
def Istream.extract_sbuf {ι : Type} (throws : ι → Bool) (is_space : α → Bool) (fuel : Nat)
    (sb : Option τ) (is : Istream ι σ) : Option (Istream ι σ × Option τ × Bool) := do
  let (is, threw) ← is.sentry throws (some (b.skip_ws is_space fuel))
  if threw then some (is, sb, true)
  else if is.good then
    match sb with
    | none =>
      let (is, threw) := is.setstate failbit
      some (is, none, threw)
    | some u => do
      let s ← is.m_sbuf
      let (s, u, bits) ← extract_sbuf_body b t lost fuel s u
      let (is, threw) := (is.with_sbuf s).report bits
      some (is, some u, threw)
  else
    let (is, threw) := is.setstate failbit
    some (is, sb, threw)

end

namespace StreambufExtractionLemmas

open IstreamLemmas SourcesLemmas StreambufCopiesLemmas

section

variable {σ τ α : Type} [DecidableEq α] {b : Streambuf σ α} {ok : σ → Prop}
  {supply : σ → Supply α} {s : σ} {t : Streambuf τ α} {okt : τ → Prop} {taken : τ → List α}
  {u : τ} {lost c : α} {w : List α}

/-! ## 1. What is inserted -/

theorem through_char_of_ne (h : c ≠ lost) : through_char lost (some c) = some c := if_neg h

/-- The characters in front of the one that is lost. -/
def found (lost : α) (w : List α) : List α := w.takeWhile (· ≠ lost)

theorem found_cons (h : c ≠ lost) : found lost (c :: w) = c :: found lost w :=
  List.takeWhile_cons_of_pos (by simpa)

/-- One more character is taken from the source than is inserted. -/
theorem extract_loop_eq (h : b.Source ok supply) (ht : t.Taker okt taken) (hok : ok s)
    (hu : okt u) {fuel : Nat} (hw : (supply s).content = w) (hfuel : w.length < fuel) : ∃ s' u',
      extract_sbuf_loop b t lost fuel s u =
        some (s', u', decide (accepted t u (found lost w) = (found lost w).length)) ∧
      taken u' = taken u ++ (found lost w).take (accepted t u (found lost w)) ∧
      (supply s').content = w.drop (accepted t u (found lost w) + 1) := by
  induction fuel generalizing s u w with
  | zero => cases hfuel
  | succ fuel ih =>
    obtain ⟨s₁, hs₁, hok₁, hsupply₁⟩ := sbumpc_source h hok
    have hcontent₁ : (supply s₁).content = w.tail := by rw [hsupply₁, Supply.content_bump, hw]
    rw [extract_sbuf_loop, hs₁, hw]
    simp only [Option.bind_eq_bind, Option.bind_some]
    cases w with
    | nil => exact ⟨s₁, u, by simp [through_char, found, accepted, put_until],
        (List.append_nil _).symm, hcontent₁⟩
    | cons c w =>
      by_cases hc : c = lost
      · subst hc
        have hnone : found c (c :: w) = [] := List.takeWhile_cons_of_neg (by simp)
        rw [hnone]
        exact ⟨s₁, u, by simp [through_char, accepted, put_until], (List.append_nil _).symm,
          hcontent₁⟩
      · obtain ⟨u₁, r, hput, hu₁, htaken₁, hacc⟩ := accepted_cons ht hu c (found lost w)
        rw [List.head?_cons, through_char_of_ne hc, found_cons hc, hacc]
        simp only [hput, Option.bind_some]
        cases r with
        | none =>
          refine ⟨s₁, u₁, by simp, ?_, hcontent₁⟩
          rw [htaken₁]
          simp
        | some c' =>
          rw [List.tail_cons] at hcontent₁
          obtain ⟨s', u', hloop, htaken', hsupply'⟩ :=
            ih hok₁ hu₁ hcontent₁ (Nat.lt_of_succ_lt_succ hfuel)
          refine ⟨s', u', ?_, ?_, hsupply'⟩
          · rw [if_neg (by simp), hloop]
            simp
          · rw [htaken', htaken₁]
            simp

/-- What is set if this many characters are inserted, the first one twice. -/
def bits_after (lost : α) (w : List α) (k : Nat) : Iostate :=
  if k = 0 then failbit else if k = (found lost w).length + 1 then eofbit else goodbit

theorem extract_body_eq (h : b.Source ok supply) (ht : t.Taker okt taken) (hok : ok s)
    (hu : okt u) {fuel : Nat} (hw : (supply s).content = c :: w) (hc : c ≠ lost)
    (hfuel : (c :: w).length < fuel) : ∃ s' u',
      extract_sbuf_body b t lost fuel s u = some (s', u',
        bits_after lost (c :: w) (accepted t u (c :: found lost (c :: w)))) ∧
      taken u' = taken u ++
        (c :: found lost (c :: w)).take (accepted t u (c :: found lost (c :: w))) ∧
      (supply s').content = (c :: w).drop (accepted t u (c :: found lost (c :: w))) := by
  obtain ⟨s₁, hs₁, hok₁, hsupply₁⟩ := sgetc_source h hok
  obtain ⟨u₁, r, hput, hu₁, htaken₁, hacc⟩ := accepted_cons ht hu c (found lost (c :: w))
  have hcontent₁ : (supply s₁).content = c :: w := by rw [hsupply₁, Supply.content_peek, hw]
  rw [extract_sbuf_body, hs₁, hw, List.head?_cons, hacc]
  simp only [Option.bind_eq_bind, Option.bind_some, through_char_of_ne hc, hput]
  cases r with
  | none =>
    refine ⟨s₁, u₁, rfl, ?_, hcontent₁⟩
    rw [htaken₁]
    simp
  | some c' =>
    obtain ⟨s', u', hloop, htaken', hsupply'⟩ := extract_loop_eq h ht hok₁ hu₁ hcontent₁ hfuel
    refine ⟨s', u', ?_, ?_, ?_⟩
    · rw [if_neg (by simp), hloop]
      simp [bits_after]
    · rw [htaken', htaken₁]
      simp
    · rw [hsupply']
      rfl

/-- Nothing is inserted. -/
theorem extract_body_lost (h : b.Source ok supply) (hok : ok s) (fuel : Nat)
    (hw : (supply s).content.head?.getD lost = lost) : ∃ s',
      extract_sbuf_body b t lost fuel s u = some (s', u, failbit) ∧
      (supply s').content = (supply s).content := by
  obtain ⟨s₁, hs₁, -, hsupply₁⟩ := sgetc_source h hok
  refine ⟨s₁, ?_, by rw [hsupply₁, Supply.content_peek]⟩
  rw [extract_sbuf_body, hs₁]
  simp only [Option.bind_eq_bind, Option.bind_some, through_char, hw, if_true]

/-! ## 2. What is to be inserted -/

omit [DecidableEq α] in
/-- A list that is not changed by one more element in front. -/
theorem take_cons_self_iff (k : Nat) :
    (c :: w).take k = w.take k ↔ w.take k = List.replicate k c := by
  induction k generalizing w with
  | zero => simp
  | succ k ih =>
    cases w with
    | nil => simp
    | cons d w =>
      rw [List.take_succ_cons, List.take_succ_cons, List.replicate_succ, List.cons.injEq,
        List.cons.injEq]
      constructor
      · rintro ⟨rfl, htake⟩
        exact ⟨rfl, ih.mp htake⟩
      · rintro ⟨rfl, htake⟩
        exact ⟨rfl, ih.mpr htake⟩

/-- Characters in front of the one that is lost. -/
theorem take_found {k : Nat} (hk : k ≤ (found lost w).length + 1) :
    (c :: found lost w).take k = (c :: w).take k := by
  have hfound : found lost w = w.take (found lost w).length :=
    List.prefix_iff_eq_take.mp (List.takeWhile_prefix _)
  rw [hfound, ← List.take_succ_cons, List.take_take, Nat.min_eq_left hk]

theorem length_found {k : Nat} (hc : c ≠ lost)
    (htake : w.take k = List.replicate k c) : k ≤ (found lost w).length := by
  have hsplit : found lost w = List.replicate k c ++ found lost (w.drop k) := by
    conv_lhs => rw [← List.take_append_drop k w, htake]
    refine List.takeWhile_append_of_pos fun x hx => ?_
    rw [List.eq_of_mem_replicate hx]
    simpa
  rw [hsplit, List.length_append, List.length_replicate]
  exact Nat.le_add_right _ _

/-- What is inserted is what is to be inserted. -/
theorem inserted_iff (ht : t.Taker okt taken) (hu : okt u) (hc : c ≠ lost) (w : List α) :
    ((c :: found lost (c :: w)).take (accepted t u (c :: found lost (c :: w))) =
        (c :: w).take (accepted t u (c :: w)) ∧
      (c :: w).drop (accepted t u (c :: found lost (c :: w))) =
        (c :: w).drop (accepted t u (c :: w)) ∧
      (bits_after lost (c :: w) (accepted t u (c :: found lost (c :: w))) &&& eofbit ≠ 0 ↔
        accepted t u (c :: w) = (c :: w).length) ∧
      (bits_after lost (c :: w) (accepted t u (c :: found lost (c :: w))) &&& failbit ≠ 0 ↔
        accepted t u (c :: w) = 0)) ↔
    accepted t u (c :: w) = 0 ∨ accepted t u (c :: w) < (c :: w).length ∧
      (c :: w).take (accepted t u (c :: w)) = List.replicate (accepted t u (c :: w)) c ∧
      accepted t u (c :: (c :: w).take (accepted t u (c :: w))) = accepted t u (c :: w) := by
  obtain ⟨-, -, -, hk, -⟩ := put_until_taker ht hu (c :: w)
  obtain ⟨-, -, -, hl, -⟩ := put_until_taker ht hu (c :: found lost (c :: w))
  have hzero : accepted t u (c :: found lost (c :: w)) = 0 ↔ accepted t u (c :: w) = 0 := by
    obtain ⟨u₁, r, hput, -, -, hacc⟩ := accepted_cons ht hu c (found lost (c :: w))
    obtain ⟨u₁', r', hput', -, -, hacc'⟩ := accepted_cons ht hu c w
    rw [hput] at hput'
    cases hput'
    rw [hacc, hacc']
    split <;> simp
  have hmore (k : Nat) (hle : k ≤ (found lost (c :: w)).length) :
      accepted t u (c :: (c :: w).take k) =
        min (k + 1) (accepted t u (c :: found lost (c :: w))) := by
    rw [← List.take_succ_cons, ← take_found (Nat.succ_le_succ hle), accepted_take ht hu]
  generalize accepted t u (c :: w) = k at *
  generalize accepted t u (c :: found lost (c :: w)) = l at *
  rw [List.length_cons] at hl
  constructor
  · rintro ⟨htake, -, heof, -⟩
    rcases Nat.eq_zero_or_pos k with rfl | hpos
    · exact .inl rfl
    · have hlen := congrArg List.length htake
      rw [List.length_take_of_le hl, List.length_take_of_le hk] at hlen
      subst hlen
      rw [take_found hl, take_cons_self_iff] at htake
      have hle := length_found hc htake
      have hne : l ≠ (c :: w).length := fun hall => by
        rw [bits_after, if_neg (Nat.ne_of_gt hpos), if_neg (by omega)] at heof
        exact heof.mpr hall rfl
      exact .inr ⟨Nat.lt_of_le_of_ne hk hne, htake, by rw [hmore l hle, Nat.min_eq_right]; omega⟩
  · intro hcond
    rcases Nat.eq_zero_or_pos l with rfl | hpos
    · have hbits : bits_after lost (c :: w) 0 = failbit := if_pos rfl
      rw [hzero.mp rfl, hbits]
      exact ⟨rfl, rfl, iff_of_false (by decide) (Nat.succ_ne_zero _).symm,
        iff_of_true (by decide) rfl⟩
    · obtain ⟨hlt, htake, hacc⟩ :=
        hcond.resolve_left fun hk0 => Nat.ne_of_gt hpos (hzero.mpr hk0)
      have hle := length_found hc htake
      rw [hmore k hle] at hacc
      obtain rfl : l = k := by omega
      have hbits : bits_after lost (c :: w) l = goodbit := by
        rw [bits_after, if_neg (Nat.ne_of_gt hpos), if_neg (by omega)]
      rw [hbits, take_found hl]
      exact ⟨(take_cons_self_iff l).mpr htake, rfl, iff_of_false (by decide) (Nat.ne_of_lt hlt),
        iff_of_false (by decide) (Nat.ne_of_gt hpos)⟩

/-! ## 3. The stream -/

variable {ι : Type} {throws : ι → Bool} {is_space : α → Bool} {is : Istream ι σ}

variable (lost)

/-- The sentry reports the end. -/
theorem extract_sbuf_ended (h : b.Source ok supply) (hok : ok s) (hbuf : is.m_sbuf = some s)
    (hgood : is.good = true) (htie : is.m_tie.any throws = false) {fuel : Nat}
    (hfuel : (supply s).content.length < fuel) (hskip : is.flags &&& skipws ≠ 0)
    (hw : (is.skipped is_space (supply s)).content = []) : ∃ is' s' threw,
      is.extract_sbuf b t lost throws is_space fuel (some u) = some (is', some u, threw) ∧
        is'.m_sbuf = some s' ∧ (supply s').content = [] ∧ is'.m_state &&& eofbit ≠ 0 ∧
        is'.m_state &&& failbit ≠ 0 := by
  obtain ⟨is₁, s₁, threw, hsentry, hbuf₁, -, hsupply₁, heof, hfail⟩ :=
    sentry_ended is_space h hok hbuf hgood htie hfuel hskip hw
  have hne : is₁.m_sbuf ≠ none := hbuf₁ ▸ Option.some_ne_none s₁
  rw [← hsupply₁] at hw
  unfold Istream.extract_sbuf
  rw [hsentry]
  simp only [Option.bind_eq_bind, Option.bind_some]
  cases threw with
  | true => exact ⟨is₁, s₁, true, rfl, hbuf₁, hw, heof, hfail⟩
  | false =>
    rw [if_neg Bool.false_ne_true, if_neg (by rw [not_good eofbit heof]; exact Bool.false_ne_true)]
    exact ⟨_, s₁, _, rfl, (setstate_sbuf hne _).1.trans hbuf₁, hw, setstate_keeps hne _ heof,
      setstate_keeps hne _ hfail⟩

/-- The sentry lets the stream pass. -/
theorem extract_sbuf_eq (h : b.Source ok supply) (hok : ok s) (hbuf : is.m_sbuf = some s)
    (hgood : is.good = true) (htie : is.m_tie.any throws = false) {fuel : Nat}
    (hfuel : (supply s).content.length < fuel)
    (hw : is.flags &&& skipws ≠ 0 → (is.skipped is_space (supply s)).content ≠ []) : ∃ s₁,
      ok s₁ ∧ supply s₁ = is.skipped is_space (supply s) ∧
      ∀ {s' : σ} {u' : τ} {bits : Iostate},
        extract_sbuf_body b t lost fuel s₁ u = some (s', u', bits) → ∃ is' threw,
          is.extract_sbuf b t lost throws is_space fuel (some u) = some (is', some u', threw) ∧
            is'.m_sbuf = some s' ∧ ∀ bit, badbit &&& bit = 0 →
              is'.m_state &&& bit = bits &&& bit := by
  obtain ⟨s₁, hok₁, hsupply₁, hsentry⟩ := sentry_passes is_space h hok hbuf hgood htie hfuel hw
  refine ⟨s₁, hok₁, hsupply₁, fun {s' u' bits} hbody => ?_⟩
  have hne : (is.with_sbuf s').m_sbuf ≠ none := Option.some_ne_none s'
  have hstate : (is.with_sbuf s').m_state = goodbit := of_decide_eq_true hgood
  have hgood₁ : (is.with_sbuf s₁).good = true := hgood
  refine ⟨((is.with_sbuf s').report bits).1, ((is.with_sbuf s').report bits).2, ?_,
    (report_sbuf hne bits).1, fun bit hbit => ?_⟩
  · unfold Istream.extract_sbuf
    rw [hsentry]
    simp only [Option.bind_eq_bind, Option.bind_some, Bool.false_eq_true, if_false, hgood₁, if_true]
    show (some s₁).bind _ = _
    rw [Option.bind_some, hbody]
    rfl
  · rw [report_state hne bits hbit, hstate]
    exact congrArg (· &&& bit) BitVec.zero_or

omit [DecidableEq α] in
theorem exists_result_iff {x : Option (Istream ι σ × Option τ × Bool)} {is' : Istream ι σ}
    {s' : σ} {u' : τ} {threw : Bool} (hx : x = some (is', some u', threw))
    (hbuf : is'.m_sbuf = some s') (p : Istream ι σ → σ → τ → Prop) :
    (∃ is' s' u' threw, x = some (is', some u', threw) ∧ is'.m_sbuf = some s' ∧ p is' s' u') ↔
      p is' s' u' := by
  subst hx
  constructor
  · rintro ⟨is₁, s₁, u₁, threw₁, heq, hbuf₁, hp⟩
    cases heq
    obtain rfl := Option.some.inj (hbuf.symm.trans hbuf₁)
    exact hp
  · exact fun hp => ⟨is', s', u', threw, rfl, hbuf, hp⟩

end

end StreambufExtractionLemmas

section

variable {ι σ τ α : Type} [DecidableEq α] (b : Streambuf σ α) (t : Streambuf τ α) (lost : α)
  (throws : ι → Bool) (is_space : α → Bool) (supply : σ → Supply α) (taken : τ → List α)

/-- The characters behind the spaces that the sentry skips are inserted, each once, until there
are no more or one is refused. The state tells which. -/
def ExtractsCopy (fuel : Nat) (is : Istream ι σ) (s : σ) (u : τ) : Prop :=
  let w := (is.skipped is_space (supply s)).content
  let k := accepted t u w
  ∃ is' s' u' threw,
    is.extract_sbuf b t lost throws is_space fuel (some u) = some (is', some u', threw) ∧
      is'.m_sbuf = some s' ∧ taken u' = taken u ++ w.take k ∧ (supply s').content = w.drop k ∧
      (is'.m_state &&& eofbit ≠ 0 ↔ k = w.length) ∧ (is'.m_state &&& failbit ≠ 0 ↔ k = 0)

/-- The first character is refused, or all that are accepted are equal, and the sink would refuse
one more of them. At the end there have to be spaces that are skipped. -/
def RefusesSame (skips : Bool) (u : τ) : List α → Prop
  | [] => skips = true
  | c :: w =>
    let k := accepted t u (c :: w)
    k = 0 ∨ c ≠ lost ∧ k < (c :: w).length ∧ (c :: w).take k = List.replicate k c ∧
      accepted t u (c :: (c :: w).take k) = k

end

open StreambufExtractionLemmas StreambufCopiesLemmas IstreamLemmas

/-- The characters are copied exactly where the first one is not to be inserted, or the others
that are inserted are the same. -/
theorem extract_sbuf_copies_iff {ι σ τ α : Type} [DecidableEq α] {b : Streambuf σ α}
    {ok : σ → Prop} {supply : σ → Supply α} (h : b.Source ok supply) {t : Streambuf τ α}
    {okt : τ → Prop} {taken : τ → List α} (ht : t.Taker okt taken) {lost : α} {throws : ι → Bool}
    {is_space : α → Bool} {is : Istream ι σ} {s : σ} {u : τ} (hok : ok s) (hu : okt u)
    (hbuf : is.m_sbuf = some s) (hgood : is.good = true) (htie : is.m_tie.any throws = false)
    {fuel : Nat} (hfuel : (supply s).content.length < fuel) :
    ExtractsCopy b t lost throws is_space supply taken fuel is s u ↔
      RefusesSame t lost (is.flags &&& skipws ≠ 0) u
        (is.skipped is_space (supply s)).content := by
  unfold ExtractsCopy
  have hlen : (is.skipped is_space (supply s)).content.length < fuel :=
    Nat.lt_of_le_of_lt (length_skipped _) hfuel
  by_cases hend : is.flags &&& skipws ≠ 0 ∧ (is.skipped is_space (supply s)).content = []
  · -- there is nothing but spaces
    obtain ⟨is', s', threw, hrun, hbuf', hcontent, heof, hfail⟩ :=
      extract_sbuf_ended lost (t := t) (u := u) h hok hbuf hgood htie hfuel hend.1 hend.2
    rw [hend.2]
    refine iff_of_true ⟨is', s', u, threw, hrun, hbuf', (List.append_nil _).symm, hcontent, ?_, ?_⟩
      (decide_eq_true hend.1)
    · exact iff_of_true heof rfl
    · exact iff_of_true hfail rfl
  · obtain ⟨s₁, hok₁, hsupply₁, hrun⟩ := extract_sbuf_eq lost (t := t) (u := u) h hok hbuf
      hgood htie hfuel fun hskip hw => hend ⟨hskip, hw⟩
    rw [← hsupply₁] at hend hlen ⊢
    cases hw : (supply s₁).content with
    | nil =>
      have hskip : ¬(is.flags &&& skipws ≠ 0) := fun hskip => hend ⟨hskip, hw⟩
      have hlost : (supply s₁).content.head?.getD lost = lost := by
        rw [hw]
        rfl
      obtain ⟨s', hbody, -⟩ := extract_body_lost (t := t) (u := u) h hok₁ fuel hlost
      obtain ⟨is', threw, hres, hbuf', hbits⟩ := hrun hbody
      rw [exists_result_iff hres hbuf' fun is' s' u' => _]
      refine iff_of_false (fun ⟨_, _, heof, _⟩ => heof.mpr rfl ?_)
        (by simpa [RefusesSame] using hskip)
      rw [hbits eofbit (by decide)]
      decide
    | cons c w =>
      rw [hw] at hlen
      by_cases hc : c = lost
      · have hlost : (supply s₁).content.head?.getD lost = lost := by
          rw [hw]
          exact hc
        obtain ⟨s', hbody, hcontent⟩ := extract_body_lost (t := t) (u := u) h hok₁ fuel hlost
        obtain ⟨is', threw, hres, hbuf', hbits⟩ := hrun hbody
        rw [exists_result_iff hres hbuf' fun is' s' u' => _, hbits eofbit (by decide),
          hbits failbit (by decide), hcontent, hw]
        constructor
        · rintro ⟨-, -, -, hfail⟩
          exact .inl (hfail.mp (by decide))
        · intro hcond
          rw [hcond.resolve_right fun hne => hne.1 hc]
          exact ⟨(List.append_nil _).symm, rfl, iff_of_false (by decide) (Nat.succ_ne_zero _).symm,
            iff_of_true (by decide) rfl⟩
      · obtain ⟨s', u', hbody, htaken', hcontent⟩ := extract_body_eq h ht hok₁ hu hw hc hlen
        obtain ⟨is', threw, hres, hbuf', hbits⟩ := hrun hbody
        rw [exists_result_iff hres hbuf' fun is' s' u' => _, hbits eofbit (by decide),
          hbits failbit (by decide), hcontent, htaken', List.append_cancel_left_eq,
          inserted_iff ht hu hc w]
        exact or_congr_right (and_iff_right hc).symm

instance {τ α : Type} [DecidableEq α] (t : Streambuf τ α) (lost : α) (skips : Bool) (u : τ) :
    ∀ w, Decidable (RefusesSame t lost skips u w)
  | [] => inferInstanceAs (Decidable (_ = true))
  | _ :: _ => inferInstanceAs (Decidable (_ ∨ _))

/-- Two equal characters are accepted, and no more. -/
theorem extract_sbuf_copies_iff_example :
    let s := Pipe.new [] [.area ' ' ['a', 'a'], .single 'b']
    ExtractsCopy Pipe.buf Device.buf '\xff' (fun _ => false) (· = ' ') Pipe.supply Device.written 10
      (Pipe.stream s) s (Device.new 2 []) := by
  intro s
  refine (extract_sbuf_copies_iff Pipe.buf_source Device.buf_taker
    (Pipe.ok_new (by decide) (by decide)) (Device.small_new (by decide) (by decide)) rfl rfl rfl
    (by decide)).mpr ?_
  decide

/-- The first character is inserted twice. -/
theorem not_extract_sbuf_copies :
    let s := Pipe.new [] [.area 'a' ['b']]
    ¬ExtractsCopy Pipe.buf Device.buf '\xff' (fun _ => false) (· = ' ') Pipe.supply
      Device.written 10 (Pipe.stream s) s (Device.new 5 []) := by
  rintro s ⟨is', s', u', threw, hrun, -, htaken, -⟩
  have hwritten : ((Pipe.stream s).extract_sbuf Pipe.buf Device.buf '\xff' (fun _ => false)
      (· = ' ') 10 (some (Device.new 5 []))).map (fun r => r.2.1.map Device.written) =
        some (some ['a', 'a', 'b']) := by decide
  rw [hrun, Option.map_some, Option.map_some, htaken] at hwritten
  revert hwritten
  decide

end Kuhllib.Cxxrt
