import Kuhllib.Cxxrt.Istream

/-!
# Copying from a stream buffer to an output stream

`operator<<` copies the characters of a buffer. It looks at a character that is alone in its area,
and does not take it.

Results:
1. `put_until_taker`: what a sink has accepted.
2. `insert_sbuf_copies_iff`: when the characters are copied. A character that is alone in its area
   is given to the sink over and over again.
-/

namespace Kuhllib.Cxxrt

/-- A buffer that is written to; `taken` is what it has accepted. -/
structure Streambuf.Taker {τ α : Type} (t : Streambuf τ α) (ok : τ → Prop) (taken : τ → List α) :
    Prop extends t.Lawful ok where
  put_area : ∀ u, ok u → (t.areas u).pend - (t.areas u).pcur < 2 ^ 31
  takes : ∀ u c, ok u → ∃ u' r, t.sputc u c = some (u', r) ∧
    taken u' = if r.isSome then taken u ++ [c] else taken u

/-- How many of these characters are accepted. -/
def accepted {τ α : Type} (t : Streambuf τ α) (u : τ) (cs : List α) : Nat :=
  ((put_until t u cs).map Prod.snd).getD 0

/-! ## `operator<<` -/

section

variable {σ τ α : Type} (b : Streambuf σ α) (t : Streambuf τ α)

/-- The loop of `operator<<` with the current character. -/
def insert_sbuf_loop : Nat → σ → τ → Option α → Option (σ × τ)
  | 0, _, _, _ => none
  | fuel + 1, s, u, c =>
    match c with
    | none => some (s, u)
    | some c =>
      let a := b.areas s
      let n := a.gend - a.gcur
      if n > 1 then do
        let cs ← b.read_chars s a.gcur n.toNat
        let (u, m) ← t.sputn u cs
        let s := b.with_areas s { a with gcur := a.gcur + m }
        if (m : Int) ≠ n then some (s, u)
        else do
          let (s, c) ← b.sgetc s
          insert_sbuf_loop fuel s u c
      else do
        let (u, r) ← t.sputc u c
        if r.isNone then some (s, u)
        else do
          let (s, c) ← b.sgetc s
          insert_sbuf_loop fuel s u c

variable {ι : Type} (throws : ι → Bool) (pubsync : τ → Option (τ × Bool))

/-- `setstate(failbit)` in a `try` block. -/
def Ios.report_failbit (os : Ios ι τ) : Ios ι τ × Bool :=
  let (os, threw) := os.setstate failbit
  if threw then os.process_exception else (os, false)

/-- The `try` block of `operator<<`. -/
def insert_sbuf_body (fuel : Nat) (s : σ) (os : Ios ι τ) : Option (Ios ι τ × σ × Bool) := do
  let u ← os.m_sbuf
  let (s, c) ← b.sgetc s
  match c with
  | none =>
    let (os, threw) := os.report_failbit
    some (os, s, threw)
  | some c => do
    let (u, r) ← t.sputc u c
    let os := { os with m_sbuf := some u }
    if r.isNone then
      let (os, threw) := os.report_failbit
      some (os, s, threw)
    else do
      let (s, c) ← b.snextc s
      let (s, u) ← insert_sbuf_loop b t fuel s u c
      some ({ os with m_sbuf := some u }, s, false)

/-- The destructor of the sentry. `pubsync` says whether it returns -1. -/
def sentry_flush (os : Ios ι τ) : Option (Ios ι τ × Bool) :=
  if os.flags &&& unitbuf ≠ 0 then
    match os.m_sbuf with
    | none => some (os, false)
    | some u => do
      let (u, failed) ← pubsync u
      let os := { os with m_sbuf := some u }
      if failed then some (os.setstate badbit) else some (os, false)
  else some (os, false)

/-- `operator<<(sb)`; the buffer that is read, and whether it throws. -/
def insert_sbuf (fuel : Nat) (sb : Option σ) (os : Ios ι τ) :
    Option (Ios ι τ × Option σ × Bool) :=
  if os.m_tie.any throws then some (os, sb, true)
  else do
    let (os, sb, threw) ←
      if os.good then
        match sb with
        | none =>
          let (os, threw) := os.setstate (badbit ||| failbit)
          some (os, none, threw)
        | some s => (insert_sbuf_body b t fuel s os).map fun r => (r.1, some r.2.1, r.2.2)
      else
        let (os, threw) := os.setstate failbit
        some (os, sb, threw)
    let (os, threw') ← sentry_flush pubsync os
    some (os, sb, threw || threw')

end

namespace StreambufCopiesLemmas

open BlockTransferLemmas SourcesLemmas

section

variable {σ τ α : Type} {b : Streambuf σ α} {ok : σ → Prop} {supply : σ → Supply α} {s : σ}
  {t : Streambuf τ α} {okt : τ → Prop} {taken : τ → List α} {u u' : τ} {cs ds : List α} {k : Nat}

/-! ## 1. The sink -/

theorem put_until_taker (h : t.Taker okt taken) (hok : okt u) (cs : List α) : ∃ u',
    put_until t u cs = some (u', accepted t u cs) ∧ okt u' ∧ accepted t u cs ≤ cs.length ∧
      taken u' = taken u ++ cs.take (accepted t u cs) := by
  unfold accepted
  induction cs generalizing u with
  | nil => exact ⟨u, rfl, hok, Nat.le_refl _, (List.append_nil _).symm⟩
  | cons c cs ih =>
    obtain ⟨u₁, r, hput, htaken₁⟩ := h.takes u c hok
    rw [put_until, hput]
    cases r with
    | none => exact ⟨u₁, rfl, h.sputc u c u₁ _ hok hput, Nat.zero_le _, by simpa using htaken₁⟩
    | some c' =>
      obtain ⟨u', hrest, hok', hle, htaken'⟩ := ih (h.sputc u c u₁ _ hok hput)
      simp only [Option.bind_eq_bind, Option.bind_some, Option.isNone_some, Bool.false_eq_true,
        if_false]
      rw [hrest]
      refine ⟨u', rfl, hok', Nat.succ_le_succ hle, ?_⟩
      rw [htaken', htaken₁]
      simp

/-- Characters behind those that are accepted, and none behind one that is refused. -/
theorem put_until_append (hput : put_until t u cs = some (u', k)) (ds : List α) :
    put_until t u (cs ++ ds) = if k = cs.length then
      (put_until t u' ds).map fun r => (r.1, cs.length + r.2) else some (u', k) := by
  induction cs generalizing u k with
  | nil =>
    cases hput
    simp
  | cons c cs ih =>
    rw [put_until] at hput
    obtain ⟨⟨u₁, r⟩, hc, hrest⟩ := Option.bind_eq_some_iff.mp hput
    rw [List.cons_append, put_until, hc]
    simp only [Option.bind_eq_bind, Option.bind_some]
    cases r with
    | none =>
      cases hrest
      have hne : 0 ≠ (c :: cs).length := (Nat.succ_ne_zero _).symm
      rw [if_neg hne]
      rfl
    | some c' =>
      obtain ⟨⟨u₂, n⟩, hcs, heq⟩ := Option.bind_eq_some_iff.mp hrest
      cases heq
      simp only [Option.isNone_some, Bool.false_eq_true, if_false, ih hcs, List.length_cons,
        Nat.add_right_cancel_iff]
      split
      · cases put_until t _ ds <;> simp [Nat.add_right_comm]
      · rfl

/-- Two blocks: the second one counts if all of the first is accepted. -/
theorem accepted_append (h : t.Taker okt taken) (hok : okt u) (cs ds : List α) : ∃ u',
    put_until t u cs = some (u', accepted t u cs) ∧ okt u' ∧ accepted t u cs ≤ cs.length ∧
      taken u' = taken u ++ cs.take (accepted t u cs) ∧
      accepted t u (cs ++ ds) = if accepted t u cs = cs.length then
        cs.length + accepted t u' ds else accepted t u cs := by
  obtain ⟨u₁, hcs, hok₁, hle, htaken⟩ := put_until_taker h hok cs
  obtain ⟨u₂, hds, -⟩ := put_until_taker h hok₁ ds
  refine ⟨u₁, hcs, hok₁, hle, htaken, ?_⟩
  rw [accepted, put_until_append hcs, hds]
  split <;> rfl

theorem accepted_cons (h : t.Taker okt taken) (hok : okt u) (c : α) (cs : List α) : ∃ u' r,
    t.sputc u c = some (u', r) ∧ okt u' ∧
      taken u' = (if r.isSome then taken u ++ [c] else taken u) ∧
      accepted t u (c :: cs) = if r.isSome then accepted t u' cs + 1 else 0 := by
  obtain ⟨u₁, r, hput, htaken⟩ := h.takes u c hok
  have hok₁ := h.sputc u c u₁ r hok hput
  obtain ⟨u₂, hcs, -⟩ := put_until_taker h hok₁ cs
  refine ⟨u₁, r, hput, hok₁, htaken, ?_⟩
  rw [accepted, put_until, hput]
  cases r with
  | none => rfl
  | some c' =>
    simp only [Option.bind_eq_bind, Option.bind_some, Option.isNone_some, Bool.false_eq_true,
      if_false, hcs]
    rfl

theorem accepted_take (ht : t.Taker okt taken) (hu : okt u) (k : Nat) (cs : List α) :
    accepted t u (cs.take k) = min k (accepted t u cs) := by
  obtain ⟨-, -, -, hle, -⟩ := put_until_taker ht hu cs
  obtain ⟨u₁, -, -, hpart, -, hacc⟩ := accepted_append ht hu (cs.take k) (cs.drop k)
  rw [List.take_append_drop] at hacc
  rw [List.length_take] at hacc hpart
  split at hacc <;> omega

end

end StreambufCopiesLemmas

/-- No character is alone in its area when it is the next one, unless it is refused. The areas are
used up one by one. -/
def InBlocks {α : Type} (S : Supply α) (k : Nat) : Prop :=
  ∀ j, j < S.content.length → j = 0 ∨ (S.drop j).current = [] →
    (S.drop j).peek.current.length ≤ 1 → k ≤ j

namespace StreambufCopiesLemmas

open BlockTransferLemmas IstreamLemmas SourcesLemmas

section

variable {σ τ α : Type} {b : Streambuf σ α} {ok : σ → Prop} {supply : σ → Supply α} {s s' : σ}
  {t : Streambuf τ α} {okt : τ → Prop} {taken : τ → List α} {u u' : τ} {S : Supply α}

/-! ## 2. `operator<<` -/

/-- Within a block no area begins. -/
theorem behind_block {j : Nat} (hlen : 1 < S.peek.current.length)
    (hstart : j = 0 ∨ (S.drop j).current = []) (halone : (S.drop j).peek.current.length ≤ 1) :
    S.peek.current.length ≤ j := by
  refine Nat.not_lt.mp fun hlt => ?_
  rcases Nat.eq_zero_or_pos j with rfl | hpos
  · exact Nat.not_le_of_lt hlen halone
  · have hcur := hstart.resolve_left (Nat.ne_of_gt hpos)
    rw [← Supply.drop_peek S hpos] at hcur
    exact Supply.current_within hlt hcur

/-- Behind a block it goes on the same way. -/
theorem inBlocks_block (hlen : 1 < S.peek.current.length) (k : Nat) :
    InBlocks S (S.peek.current.length + k) ↔ InBlocks (S.peek.drop S.peek.current.length) k := by
  have hdrop (j : Nat) : S.drop (S.peek.current.length + j) =
      (S.peek.drop S.peek.current.length).drop j := by
    rw [← Supply.drop_add, Supply.drop_peek _ (by omega)]
  have hempty := Supply.current_used S.peek
  have hsize : (S.peek.drop S.peek.current.length).content.length =
      S.content.length - S.peek.current.length := by
    rw [Supply.content_drop, Supply.content_peek, List.length_drop]
  constructor
  · intro h j hj hstart halone
    refine Nat.le_of_add_le_add_left (h _ (by omega) (.inr ?_) (by rwa [hdrop]))
    rw [hdrop]
    rcases hstart with rfl | hstart
    · exact hempty
    · exact hstart
  · intro h j hj hstart halone
    obtain ⟨i, rfl⟩ := Nat.exists_eq_add_of_le (behind_block hlen hstart halone)
    refine Nat.add_le_add_left (h i (by omega) (.inr ?_) (by rwa [← hdrop])) _
    rw [← hdrop]
    exact hstart.resolve_left (by omega)

/-- A round with a block. -/
theorem insert_loop_block (h : b.Source ok supply) (ht : t.Taker okt taken) (hok : ok s)
    (hu : okt u) (hlen : 1 < (supply s).current.length) {k : Nat}
    (hput : put_until t u (supply s).current = some (u', k)) (hk : k ≤ (supply s).current.length) :
    ∃ s₁ s₂, ok s₂ ∧ supply s₁ = (supply s).drop k ∧ supply s₂ = ((supply s).drop k).peek ∧
      ∀ fuel c, insert_sbuf_loop b t (fuel + 1) s u (some c) =
        if k = (supply s).current.length then
          insert_sbuf_loop b t fuel s₂ u' ((supply s).drop k).content.head?
        else some (s₁, u') := by
  obtain ⟨-, hread⟩ := h.area s hok
  obtain ⟨hok₁, hsupply₁⟩ := h.skip s k hok hk
  obtain ⟨s₂, hs₂, hok₂, hsupply₂⟩ := sgetc_source h hok₁
  rw [hsupply₁, Supply.skip_eq_drop hk] at hs₂ hsupply₂
  refine ⟨_, s₂, hok₂, hsupply₁.trans (Supply.skip_eq_drop hk), hsupply₂, fun fuel c => ?_⟩
  rw [insert_sbuf_loop]
  dsimp only
  rw [area_size h hok, if_pos (by omega), Int.toNat_natCast, hread]
  simp only [Option.bind_eq_bind, Option.bind_some, sputn_eq ht.toLawful ht.put_area hu, hput,
    ne_eq, Nat.cast_inj, hs₂, ite_not]

/-- A round with a character that is alone. It is not taken from the source. -/
theorem insert_loop_single (h : b.Source ok supply) (hok : ok s)
    (hlen : (supply s).current.length ≤ 1) {c : α} {r : Option α}
    (hput : t.sputc u c = some (u', r)) : ∃ s₁, ok s₁ ∧ supply s₁ = (supply s).peek ∧
      ∀ fuel, insert_sbuf_loop b t (fuel + 1) s u (some c) = if r.isNone then some (s, u')
        else insert_sbuf_loop b t fuel s₁ u' (supply s).content.head? := by
  obtain ⟨s₁, hs₁, hok₁, hsupply₁⟩ := sgetc_source h hok
  refine ⟨s₁, hok₁, hsupply₁, fun fuel => ?_⟩
  rw [insert_sbuf_loop]
  dsimp only
  rw [area_size h hok, if_neg (by omega), hput]
  simp only [Option.bind_eq_bind, Option.bind_some, hs₁]

/-- The induction is on how many characters are left. -/
theorem insert_loop_copies (h : b.Source ok supply) (ht : t.Taker okt taken) (hok : ok s)
    (hu : okt u) (hS : supply s = S.peek) (hblocks : InBlocks S (accepted t u S.content)) :
    ∃ fuel s' u', insert_sbuf_loop b t fuel s u S.content.head? = some (s', u') ∧ okt u' ∧
      taken u' = taken u ++ S.content.take (accepted t u S.content) ∧
      (supply s').content = S.content.drop (accepted t u S.content) := by
  generalize hlen : S.content.length = len
  induction len using Nat.strong_induction_on generalizing s u S with
  | _ len ih =>
    cases hw : S.content with
    | nil =>
      refine ⟨1, s, u, rfl, hu, (List.append_nil _).symm, ?_⟩
      rw [hS, Supply.content_peek, hw]
      rfl
    | cons c w =>
      by_cases hone : S.peek.current.length ≤ 1
      · -- the character is refused
        have hzero := hblocks 0 (by rw [hw]; exact Nat.succ_pos _) (.inl rfl) hone
        obtain ⟨u₁, r, hput, hu₁, htaken, hacc⟩ := accepted_cons ht hu c w
        rw [hw, hacc] at hzero
        cases r with
        | some c' => cases hzero
        | none =>
          obtain ⟨s₁, -, -, hround⟩ := insert_loop_single h hok (hS ▸ hone) hput
          refine ⟨1, s, u₁, hround 0, hu₁, ?_, ?_⟩
          · rw [htaken, hacc]
            exact (List.append_nil _).symm
          · rw [hS, Supply.content_peek, hw, hacc]
            rfl
      · -- the area is a block
        have hcontent : S.peek.current ++ S.peek.next.flatMap Chunk.elems = c :: w :=
          (Supply.content_peek S).trans hw
        obtain ⟨u₁, hput, hu₁, hle, htaken, hacc⟩ := accepted_append ht hu S.peek.current
          (S.peek.next.flatMap Chunk.elems)
        obtain ⟨s₁, s₂, hok₂, hsupply₁, hsupply₂, hround⟩ :=
          insert_loop_block h ht hok hu (by rw [hS]; omega) (hS ▸ hput) (hS ▸ hle)
        rw [hS] at hsupply₁ hsupply₂ hround
        rw [hcontent] at hacc
        split at hacc
        · next hall =>
          rw [hall] at hsupply₂ hround htaken
          rw [List.take_length] at htaken
          have hrest : (S.peek.drop S.peek.current.length).content =
              S.peek.next.flatMap Chunk.elems := by
            rw [Supply.content_drop]
            exact List.drop_left
          have hless : (S.peek.drop S.peek.current.length).content.length < len := by
            rw [Supply.content_drop, List.length_drop, Supply.content_peek, ← hlen, hw,
              List.length_cons]
            omega
          rw [hw, hacc, inBlocks_block (by omega), ← hrest] at hblocks
          obtain ⟨fuel, s', u', hloop, hu', htaken', hsupply'⟩ :=
            ih _ hless hok₂ hu₁ hsupply₂ hblocks rfl
          refine ⟨fuel + 1, s', u', ?_, hu', ?_, ?_⟩
          · rw [List.head?_cons, hround, if_pos rfl]
            exact hloop
          · rw [htaken', htaken, hacc, ← hcontent, hrest, List.append_assoc, List.take_append]
            simp
          · rw [hsupply', hacc, ← hcontent, hrest, List.drop_append]
            simp
        · next hpart =>
          refine ⟨1, s₁, u₁, ?_, hu₁, ?_, ?_⟩
          · rw [List.head?_cons, hround, if_neg hpart]
          · rw [htaken, hacc, ← hcontent, List.take_append_of_le_length hle]
          · rw [hsupply₁, hacc, Supply.content_drop, Supply.content_peek, hw]

/-- A character that is alone is inserted until it is refused. -/
theorem insert_loop_alone (h : b.Source ok supply) (ht : t.Taker okt taken) (hok : ok s)
    (hu : okt u) (hS : supply s = S.peek) (hlen : S.peek.current.length ≤ 1)
    (hne : S.content ≠ []) {fuel : Nat}
    (hloop : insert_sbuf_loop b t fuel s u S.content.head? = some (s', u')) :
    okt u' ∧ (supply s').content = S.content ∧
      (taken u).length + min 1 (accepted t u S.content) ≤ (taken u').length := by
  induction fuel generalizing s u with
  | zero => cases hloop
  | succ fuel ih =>
    cases hw : S.content with
    | nil => exact absurd hw hne
    | cons c w =>
      obtain ⟨u₁, r, hput, hu₁, htaken, hacc⟩ := accepted_cons ht hu c w
      obtain ⟨s₁, hok₁, hsupply₁, hround⟩ := insert_loop_single h hok (hS ▸ hlen) hput
      rw [hw, List.head?_cons, hround] at hloop
      cases r with
      | none =>
        cases hloop
        rw [hS, Supply.content_peek, htaken, hacc]
        exact ⟨hu₁, hw, Nat.le_refl _⟩
      | some c' =>
        rw [hS] at hsupply₁ hloop
        rw [Supply.content_peek] at hloop
        rw [Supply.peek_peek] at hsupply₁
        obtain ⟨hu', hsupply', hle⟩ := ih hok₁ hu₁ hsupply₁ hloop
        refine ⟨hu', hsupply'.trans hw, Nat.le_trans ?_ (Nat.le_trans (Nat.le_add_right _ _) hle)⟩
        rw [htaken]
        simp

/-- A character is inserted and stays the next one of the source. -/
theorem insert_loop_repeats (h : b.Source ok supply) (ht : t.Taker okt taken) (hok : ok s)
    (hu : okt u) (hS : supply s = S.peek) (hblocks : ¬InBlocks S (accepted t u S.content))
    {fuel : Nat} (hloop : insert_sbuf_loop b t fuel s u S.content.head? = some (s', u')) :
    okt u' ∧ ∃ j, j < S.content.length ∧ (supply s').content = S.content.drop j ∧
      (taken u).length + j < (taken u').length := by
  induction fuel generalizing s u S with
  | zero => cases hloop
  | succ fuel ih =>
    cases hw : S.content with
    | nil => exact absurd (fun j hj => by rw [hw] at hj; cases hj) hblocks
    | cons c w =>
      by_cases hone : S.peek.current.length ≤ 1
      · have hne : S.content ≠ [] := hw ▸ List.cons_ne_nil c w
        obtain ⟨hu', hsupply', hle⟩ := insert_loop_alone h ht hok hu hS hone hne hloop
        have hpos : accepted t u S.content ≠ 0 := fun hzero =>
          hblocks fun j _ _ _ => hzero ▸ Nat.zero_le j
        refine ⟨hu', 0, Nat.succ_pos _, hsupply'.trans hw, ?_⟩
        omega
      · have hlen : 1 < S.peek.current.length := Nat.lt_of_not_le hone
        have hcontent : S.peek.current ++ S.peek.next.flatMap Chunk.elems = c :: w :=
          (Supply.content_peek S).trans hw
        obtain ⟨u₁, hput, hu₁, hle, htaken, hacc⟩ := accepted_append ht hu S.peek.current
          (S.peek.next.flatMap Chunk.elems)
        obtain ⟨s₁, s₂, hok₂, -, hsupply₂, hround⟩ :=
          insert_loop_block h ht hok hu (by rwa [hS]) (hS ▸ hput) (hS ▸ hle)
        rw [hcontent, ← hw] at hacc
        rw [hS] at hround hsupply₂
        rw [hw, List.head?_cons, hround] at hloop
        split at hacc
        · next hall =>
          have hrest : (S.peek.drop S.peek.current.length).content =
              S.peek.next.flatMap Chunk.elems := by
            rw [Supply.content_drop]
            exact List.drop_left
          rw [hacc, inBlocks_block hlen, ← hrest] at hblocks
          rw [hall] at hsupply₂ hloop htaken
          rw [if_pos rfl] at hloop
          obtain ⟨hu', j, hj, hsupply', hlt⟩ := ih hok₂ hu₁ hsupply₂ hblocks hloop
          rw [Supply.content_drop, Supply.content_peek, hw] at hj hsupply'
          rw [List.length_drop] at hj
          refine ⟨hu', S.peek.current.length + j, by omega, ?_, ?_⟩
          · rw [hsupply', List.drop_drop]
          · rw [htaken, List.take_length, List.length_append] at hlt
            omega
        · next hpart =>
          refine absurd (fun j _ hstart halone => ?_) hblocks
          exact hacc ▸ Nat.le_trans hle (behind_block hlen hstart halone)

variable {ι : Type} {throws : ι → Bool} {pubsync : τ → Option (τ × Bool)} {os : Ios ι τ}

theorem report_failbit_sbuf (hbuf : os.m_sbuf = some u) :
    os.report_failbit.1.m_sbuf = some u := by
  obtain ⟨f, hclear⟩ := clear_eq os (by rw [hbuf]; exact Option.some_ne_none u)
    (os.m_state ||| failbit)
  unfold Ios.report_failbit Ios.setstate
  rw [hclear]
  dsimp only
  split <;> exact hbuf

/-- Nothing is inserted: there is no character. -/
theorem insert_body_end (h : b.Source ok supply) (hok : ok s) (hbuf : os.m_sbuf = some u)
    (hw : (supply s).content = []) (fuel : Nat) : ∃ os' s₁ threw,
      insert_sbuf_body b t fuel s os = some (os', s₁, threw) ∧ os'.m_sbuf = some u ∧
        (supply s₁).content = [] := by
  obtain ⟨s₁, hs₁, -, hsupply₁⟩ := sgetc_source h hok
  rw [hw] at hs₁
  refine ⟨os.report_failbit.1, s₁, os.report_failbit.2, ?_, report_failbit_sbuf hbuf, ?_⟩
  · rw [insert_sbuf_body, hbuf]
    simp only [Option.bind_eq_bind, Option.bind_some, hs₁, List.head?_nil]
  · rw [hsupply₁, Supply.content_peek, hw]

/-- Nothing is inserted: the first character is refused. -/
theorem insert_body_refused (h : b.Source ok supply) (hok : ok s) (hbuf : os.m_sbuf = some u)
    {c : α} {w : List α} (hw : (supply s).content = c :: w) (hput : t.sputc u c = some (u', none))
    (fuel : Nat) : ∃ os' s₁ threw,
      insert_sbuf_body b t fuel s os = some (os', s₁, threw) ∧ os'.m_sbuf = some u' ∧
        (supply s₁).content = c :: w := by
  obtain ⟨s₁, hs₁, -, hsupply₁⟩ := sgetc_source h hok
  rw [hw] at hs₁
  let os₁ : Ios ι τ := { os with m_sbuf := some u' }
  refine ⟨os₁.report_failbit.1, s₁, os₁.report_failbit.2, ?_, report_failbit_sbuf rfl, ?_⟩
  · rw [insert_sbuf_body, hbuf]
    simp only [Option.bind_eq_bind, Option.bind_some, hs₁, List.head?_cons, hput,
      Option.isNone_none, if_true, os₁]
  · rw [hsupply₁, Supply.content_peek, hw]

/-- The first character is inserted. -/
theorem insert_body_loop (h : b.Source ok supply) (hok : ok s) (hbuf : os.m_sbuf = some u)
    {c c' : α} {w : List α} (hw : (supply s).content = c :: w)
    (hput : t.sputc u c = some (u', some c')) : ∃ s₁, ok s₁ ∧ supply s₁ = (supply s).bump.peek ∧
      ∀ fuel, insert_sbuf_body b t fuel s os =
        (insert_sbuf_loop b t fuel s₁ u' (supply s).bump.content.head?).map
          fun r => ({ os with m_sbuf := some r.2 }, r.1, false) := by
  obtain ⟨s₁, hs₁, hok₁, hsupply₁⟩ := sgetc_source h hok
  obtain ⟨s₂, hs₂, hok₂, hsupply₂⟩ := snextc_source h hok₁
  rw [hsupply₁, Supply.content_peek, ← Supply.content_bump] at hs₂
  rw [hsupply₁, Supply.bump_peek] at hsupply₂
  rw [hw] at hs₁
  refine ⟨s₂, hok₂, hsupply₂, fun fuel => ?_⟩
  rw [insert_sbuf_body, hbuf]
  simp only [Option.bind_eq_bind, Option.bind_some, hs₁, List.head?_cons, hput,
    Option.isNone_some, Bool.false_eq_true, if_false, hs₂]
  cases insert_sbuf_loop b t fuel s₂ u' _ <;> rfl

/-- Behind the `try` block the sink may be flushed. -/
theorem sentry_flush_taken (hsync : ∀ u, okt u → ∃ u' failed, pubsync u = some (u', failed) ∧
      taken u' = taken u) (hu : okt u) (hbuf : os.m_sbuf = some u) : ∃ os' u' threw,
    sentry_flush pubsync os = some (os', threw) ∧ os'.m_sbuf = some u' ∧ taken u' = taken u := by
  obtain ⟨u', failed, hu', htaken⟩ := hsync u hu
  unfold sentry_flush
  rw [hbuf]
  split
  · simp only [Option.bind_eq_bind, Option.bind_some, hu']
    split
    · obtain ⟨f, hclear⟩ := clear_eq { os with m_sbuf := some u' } (Option.some_ne_none u')
        (os.m_state ||| badbit)
      exact ⟨_, u', _, rfl, congrArg (fun r => r.1.m_sbuf) hclear, htaken⟩
    · exact ⟨_, u', _, rfl, rfl, htaken⟩
  · exact ⟨os, u, false, rfl, hbuf, rfl⟩

end

end StreambufCopiesLemmas

section

variable {ι σ τ α : Type} (b : Streambuf σ α) (t : Streambuf τ α) (throws : ι → Bool)
  (pubsync : τ → Option (τ × Bool)) (supply : σ → Supply α) (taken : τ → List α)

/-- The sink accepts the first characters of the source, each once, and the others are left. They
are all of them if the sink refuses none. -/
def InsertsCopy (os : Ios ι τ) (s : σ) (u : τ) : Prop :=
  let w := (supply s).content
  ∃ fuel os' s' u' threw k,
    insert_sbuf b t throws pubsync fuel (some s) os = some (os', some s', threw) ∧
      os'.m_sbuf = some u' ∧ k ≤ w.length ∧ taken u' = taken u ++ w.take k ∧
      (supply s').content = w.drop k ∧ (accepted t u w = w.length → k = w.length)

end

namespace StreambufCopiesLemmas

open SourcesLemmas

section

variable {ι σ τ α : Type} {b : Streambuf σ α} {ok : σ → Prop} {supply : σ → Supply α} {s : σ}
  {t : Streambuf τ α} {okt : τ → Prop} {taken : τ → List α} {u : τ} {throws : ι → Bool}
  {pubsync : τ → Option (τ × Bool)} {os : Ios ι τ}

/-- The stream passes the sentry. -/
theorem insert_sbuf_eq (hgood : os.good = true) (htie : os.m_tie.any throws = false) (fuel : Nat) :
    insert_sbuf b t throws pubsync fuel (some s) os =
      (insert_sbuf_body b t fuel s os).bind fun r =>
        (sentry_flush pubsync r.1).map fun r' => (r'.1, some r.2.1, r.2.2 || r'.2) := by
  unfold insert_sbuf
  rw [htie, if_neg Bool.false_ne_true, if_pos hgood]
  dsimp only
  cases insert_sbuf_body b t fuel s os with
  | none => rfl
  | some r =>
    obtain ⟨os₁, s₁, threw₁⟩ := r
    simp only [Option.map_some, Option.bind_eq_bind, Option.bind_some]
    cases sentry_flush pubsync os₁ <;> rfl

theorem copy_of_inBlocks (h : b.Source ok supply) (ht : t.Taker okt taken)
    (hsync : ∀ u, okt u → ∃ u' failed, pubsync u = some (u', failed) ∧ taken u' = taken u)
    (hok : ok s) (hu : okt u) (hbuf : os.m_sbuf = some u) (hgood : os.good = true)
    (htie : os.m_tie.any throws = false)
    (hblocks : InBlocks (supply s).bump (accepted t u (supply s).content - 1)) :
    InsertsCopy b t throws pubsync supply taken os s u := by
  -- behind the `try` block as many characters as can be are copied
  have hcopied {fuel : Nat} {os₁ : Ios ι τ} {s₁ : σ} {u₁ : τ} {threw₁ : Bool} {k : Nat}
      (hbody : insert_sbuf_body b t fuel s os = some (os₁, s₁, threw₁)) (hu₁ : okt u₁)
      (hbuf₁ : os₁.m_sbuf = some u₁) (hk : k = accepted t u (supply s).content)
      (htaken₁ : taken u₁ = taken u ++ (supply s).content.take k)
      (hsupply₁ : (supply s₁).content = (supply s).content.drop k) :
      InsertsCopy b t throws pubsync supply taken os s u := by
    obtain ⟨os', u', threw, hflush, hbuf', htaken'⟩ := sentry_flush_taken hsync hu₁ hbuf₁
    obtain ⟨-, -, -, hle, -⟩ := put_until_taker ht hu (supply s).content
    refine ⟨fuel, os', s₁, u', threw₁ || threw, k, ?_, hbuf', hk ▸ hle, htaken'.trans htaken₁,
      hsupply₁, fun hall => hk.trans hall⟩
    rw [insert_sbuf_eq hgood htie, hbody, Option.bind_some, hflush]
    rfl
  cases hw : (supply s).content with
  | nil =>
    obtain ⟨os₁, s₁, threw₁, hbody, hbuf₁, hsupply₁⟩ := insert_body_end (t := t) h hok hbuf hw 0
    refine hcopied hbody hu hbuf₁ (k := 0) (by rw [hw]; rfl) (List.append_nil _).symm ?_
    rw [hsupply₁, hw]
    rfl
  | cons c w =>
    obtain ⟨u₁, r, hput, hu₁, htaken₁, hacc⟩ := accepted_cons ht hu c w
    cases r with
    | none =>
      obtain ⟨os₁, s₁, threw₁, hbody, hbuf₁, hsupply₁⟩ :=
        insert_body_refused (t := t) h hok hbuf hw hput 0
      refine hcopied hbody hu₁ hbuf₁ (k := 0) (by rw [hw, hacc]; rfl) ?_ (by rw [hsupply₁, hw]; rfl)
      rw [htaken₁]
      exact (List.append_nil _).symm
    | some c' =>
      have hrest : (supply s).bump.content = w := by
        rw [Supply.content_bump, hw]
        rfl
      obtain ⟨s₁, hok₁, hsupply₁, hbody⟩ := insert_body_loop h hok hbuf hw hput
      rw [if_pos Option.isSome_some] at htaken₁ hacc
      rw [hw, hacc, Nat.add_sub_cancel, ← hrest] at hblocks
      obtain ⟨fuel, s', u', hloop, hu', htaken', hsupply'⟩ :=
        insert_loop_copies h ht hok₁ hu₁ hsupply₁ hblocks
      refine hcopied (k := accepted t u₁ w + 1) (by rw [hbody, hloop]; rfl) hu' rfl
        (by rw [hw, hacc]) ?_ ?_
      · rw [htaken', htaken₁, hrest, hw, List.append_assoc]
        rfl
      · rw [hsupply', hrest, hw]
        rfl

theorem inBlocks_of_copy (h : b.Source ok supply) (ht : t.Taker okt taken)
    (hsync : ∀ u, okt u → ∃ u' failed, pubsync u = some (u', failed) ∧ taken u' = taken u)
    (hok : ok s) (hu : okt u) (hbuf : os.m_sbuf = some u) (hgood : os.good = true)
    (htie : os.m_tie.any throws = false)
    (hcopy : InsertsCopy b t throws pubsync supply taken os s u) :
    InBlocks (supply s).bump (accepted t u (supply s).content - 1) := by
  obtain ⟨fuel, os', s', u', threw, k, hres, hbuf', hk, htaken', hsupply', -⟩ := hcopy
  rw [insert_sbuf_eq hgood htie] at hres
  cases hw : (supply s).content with
  | nil => exact fun j _ _ _ => Nat.zero_le j
  | cons c w =>
    obtain ⟨u₁, r, hput, hu₁, htaken₁, hacc⟩ := accepted_cons ht hu c w
    rw [hacc]
    cases r with
    | none => exact fun j _ _ _ => Nat.zero_le j
    | some c' =>
      have hrest : (supply s).bump.content = w := by
        rw [Supply.content_bump, hw]
        rfl
      obtain ⟨s₁, hok₁, hsupply₁, hbody⟩ := insert_body_loop h hok hbuf hw hput
      rw [if_pos Option.isSome_some] at htaken₁ ⊢
      rw [Nat.add_sub_cancel]
      by_contra hblocks
      rw [hbody] at hres
      obtain ⟨r, hr, hflush⟩ := Option.bind_eq_some_iff.mp hres
      obtain ⟨⟨s₂, u₂⟩, hloop, rfl⟩ := Option.map_eq_some_iff.mp hr
      rw [← hrest] at hblocks
      obtain ⟨hu₂, j, hj, hsupply₂, hlt⟩ :=
        insert_loop_repeats h ht hok₁ hu₁ hsupply₁ hblocks hloop
      have hbuf₂ : ({ os with m_sbuf := some u₂ } : Ios ι τ).m_sbuf = some u₂ := rfl
      obtain ⟨os₂, u₃, threw₂, hflush₂, hbuf₃, htaken₂⟩ := sentry_flush_taken hsync hu₂ hbuf₂
      rw [hflush₂] at hflush
      cases hflush
      obtain rfl : u' = u₃ := Option.some.inj (hbuf'.symm.trans hbuf₃)
      -- the sink has more characters than are missing in the source
      rw [hsupply₂, hrest, hw] at hsupply'
      rw [hw] at hk htaken'
      rw [htaken₁] at hlt
      rw [hrest] at hj
      have hleft := congrArg List.length hsupply'
      have hgot := congrArg List.length (htaken₂.symm.trans htaken')
      simp only [List.length_drop, List.length_cons, List.length_append, List.length_take,
        List.length_nil] at hleft hgot hk hlt
      omega

end

end StreambufCopiesLemmas

open StreambufCopiesLemmas SourcesLemmas

/-- The characters are copied if no one is alone in its area, but for the first one. -/
theorem insert_sbuf_copies_iff {ι σ τ α : Type} {b : Streambuf σ α} {ok : σ → Prop}
    {supply : σ → Supply α} (h : b.Source ok supply) {t : Streambuf τ α} {okt : τ → Prop}
    {taken : τ → List α} (ht : t.Taker okt taken) {throws : ι → Bool}
    {pubsync : τ → Option (τ × Bool)}
    (hsync : ∀ u, okt u → ∃ u' failed, pubsync u = some (u', failed) ∧ taken u' = taken u)
    {os : Ios ι τ} {s : σ} {u : τ} (hok : ok s) (hu : okt u) (hbuf : os.m_sbuf = some u)
    (hgood : os.good = true) (htie : os.m_tie.any throws = false) :
    InsertsCopy b t throws pubsync supply taken os s u ↔
      InBlocks (supply s).bump (accepted t u (supply s).content - 1) :=
  ⟨inBlocks_of_copy h ht hsync hok hu hbuf hgood htie,
    copy_of_inBlocks h ht hsync hok hu hbuf hgood htie⟩

/-! ## 3. The devices -/

namespace Device

variable {α : Type} {d : Device α}

/-- All characters that the device has accepted. -/
def written (d : Device α) : List α := d.taken ++ d.pending

/-- The pointers are in order, and no put area is too large. -/
structure Small (d : Device α) : Prop where
  begins : d.areas.pbeg ≤ d.areas.pcur
  order : d.areas.pcur ≤ d.areas.pend
  short : d.areas.pend - d.areas.pcur < 2 ^ 31
  script : ∀ call ∈ d.script, call.2 < 2 ^ 31

theorem pending_eq (d : Device α) : d.pending =
    Pipe.chars d.memory d.areas.pbeg (d.areas.pcur - d.areas.pbeg).toNat := by
  simp only [pending, Pipe.chars, List.pure_def, List.bind_eq_flatMap, List.map_flatMap,
    List.map_singleton]
  exact List.map_eq_flatMap.symm

theorem pending_put (h : d.Small) (c : α) : pending { d with
    memory := Function.update d.memory d.areas.pcur c
    areas := { d.areas with pcur := d.areas.pcur + 1 } } = d.pending ++ [c] := by
  obtain ⟨n, hn⟩ := Int.eq_ofNat_of_zero_le (Int.sub_nonneg_of_le h.begins)
  have hcur : d.areas.pcur = d.areas.pbeg + n := by omega
  have hsize : (d.areas.pcur + 1 - d.areas.pbeg).toNat = n + 1 := by omega
  rw [pending_eq, pending_eq]
  dsimp only
  rw [hsize, hn, Int.toNat_natCast, Pipe.chars, List.range_succ, List.map_append,
    List.map_singleton, hcur, Function.update_self]
  congr 1
  refine List.map_congr_left fun i hi => ?_
  have hi := List.mem_range.mp hi
  rw [Function.update_of_ne (by omega)]

theorem buf_taker : (buf (α := α)).Taker Small written where
  areas_with _ _ := rfl
  with_with _ _ _ := rfl
  with_self _ := rfl
  areas_store := buf_lawful.areas_store
  store_with _ _ _ _ := rfl
  order _ h := h.order
  put_area _ h := h.short
  sputc d c d' r h hput := by
    unfold Streambuf.sputc at hput
    dsimp only at hput
    split at hput
    · simp only [buf, overflow] at hput
      split at hput
      · cases hput
        exact h
      · next takes size script hscript =>
        cases hput
        have hsize : size < 2 ^ 31 := h.script (takes, size) (hscript ▸ List.mem_cons_self)
        exact {
          begins := Int.le_refl _
          order := Int.natCast_nonneg _
          short := by
            show (size : Int) - 0 < 2 ^ 31
            omega
          script := fun call hmem => h.script call (hscript ▸ List.mem_cons_of_mem _ hmem) }
    · next hne =>
      cases hput
      have hlt : d.areas.pcur < d.areas.pend := lt_of_le_of_ne h.order hne
      exact {
        begins := Int.le_trans h.begins (Int.le_add_one (Int.le_refl _))
        order := Int.add_one_le_of_lt hlt
        short := Int.lt_of_le_of_lt (Int.sub_le_sub_left (Int.le_add_one (Int.le_refl _)) _)
          h.short
        script := h.script }
  takes d c h := by
    unfold Streambuf.sputc
    dsimp only
    split
    · simp only [buf, overflow]
      split
      · exact ⟨d, none, rfl, rfl⟩
      · next takes size script hscript =>
        refine ⟨_, _, rfl, ?_⟩
        cases takes <;> simp [written, pending, Areas.setp]
    · refine ⟨_, some c, rfl, ?_⟩
      show _ = d.taken ++ d.pending ++ [c]
      rw [List.append_assoc]
      exact congrArg (d.taken ++ ·) (pending_put h c)

end Device

instance {α : Type} (S : Supply α) (k : Nat) : Decidable (InBlocks S k) :=
  inferInstanceAs (Decidable (∀ j, j < S.content.length → j = 0 ∨ (S.drop j).current = [] →
    (S.drop j).peek.current.length ≤ 1 → k ≤ j))

/-- A stream that writes to a device, and is not tied. -/
def Device.stream (d : Device Char) : Ios Unit (Device Char) :=
  ⟨skipws, some d, goodbit, goodbit, none⟩

theorem Device.small_new {size : Nat} {script : List (Bool × Nat)} (hsize : size < 2 ^ 31)
    (hscript : ∀ call ∈ script, call.2 < 2 ^ 31) : (Device.new size script).Small where
  begins := Int.le_refl _
  order := Int.natCast_nonneg _
  short := by
    show (size : Int) - 0 < 2 ^ 31
    omega
  script := hscript

/-- Areas of three and two characters; the put areas are for none, two and three. -/
theorem insert_sbuf_copies_iff_example :
    let d := Device.new 0 [(true, 2), (true, 3)]
    InsertsCopy Pipe.buf Device.buf (fun _ => false) (fun d => some (d, false)) Pipe.supply
      Device.written d.stream (Pipe.new [] [.area 'a' ['b', 'c'], .area 'd' ['e']]) d := by
  intro d
  refine (insert_sbuf_copies_iff Pipe.buf_source Device.buf_taker
    (fun u _ => ⟨u, false, rfl, rfl⟩) (Pipe.ok_new (by decide) (by decide))
    (Device.small_new (by decide) (by decide)) rfl rfl rfl).mpr ?_
  decide

/-- The second character is inserted again and again, as long as the sink takes it. -/
theorem not_insert_sbuf_copies :
    let d := Device.new 0 [(true, 100)]
    ¬InsertsCopy Pipe.buf Device.buf (fun _ => false) (fun d => some (d, false)) Pipe.supply
      Device.written d.stream (Pipe.new [] [.area 'a' ['b']]) d := by
  intro d hcopy
  have hblocks := inBlocks_of_copy Pipe.buf_source Device.buf_taker
    (fun u _ => ⟨u, false, rfl, rfl⟩) (Pipe.ok_new (by decide) (by decide))
    (Device.small_new (by decide) (by decide)) rfl rfl rfl hcopy
  revert hblocks
  decide

end Kuhllib.Cxxrt
