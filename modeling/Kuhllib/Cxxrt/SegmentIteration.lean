import Kuhllib.Cxxrt.Sources

/-!
# Iteration over the segments of a stream buffer

`_Cxxrt_iterhelper` gives an algorithm the characters of a stream buffer in segments: the get area,
or a copy of the next character where there is no get area. `operator++` goes behind the get area,
but not behind a character that has been copied.

Results:
1. `refresh_spec`, `next_spec`, `done_spec`: what the functions do to a source.
2. `segments_visit_iff`: when every character is visited once.
-/

namespace Kuhllib.Cxxrt

/-- A pointer to memory or to the character of the helper, and pointers behind it. -/
inductive SegmentPtr
  | memory (p : Int)
  | own (i : Nat)
  deriving DecidableEq, Repr

def SegmentPtr.add : SegmentPtr → Nat → SegmentPtr
  | .memory p, i => .memory (p + i)
  | .own j, i => .own (j + i)

structure IterHelper (σ α : Type) where
  m_sbuf : σ
  m_buf : Option α
  m_beg : SegmentPtr
  m_end : SegmentPtr

section

variable {σ α : Type} (b : Streambuf σ α)

/-- `istreambuf_iterator(sb)` for a buffer or the null pointer. -/
def istreambuf_iterator : Option σ → Option (Option σ)
  | none => some none
  | some s => do
    let (s, c) ← b.sgetc s
    some (if c.isNone then none else some s)

/-- `_Cxxrt_empty_streambuf` has areas, but overrides no function. It takes the place of a
buffer. -/
def Streambuf.or_empty : Streambuf (σ ⊕ Areas) α where
  areas := Sum.elim b.areas id
  with_areas s a := s.elim (fun s => .inl (b.with_areas s a)) fun _ => .inr a
  load s p := s.elim (fun s => b.load s p) fun _ => none
  store s p c := s.elim (fun s => (b.store s p c).map .inl) fun _ => none
  underflow s := s.elim (fun s => (b.underflow s).map fun x => (.inl x.1, x.2))
    fun a => some (.inr a, none)
  uflow s := s.elim (fun s => (b.uflow s).map fun x => (.inl x.1, x.2)) fun a => some (.inr a, none)
  pbackfail s c := s.elim (fun s => (b.pbackfail s c).map fun x => (.inl x.1, x.2))
    fun a => some (.inr a, none)
  overflow s c := s.elim (fun s => (b.overflow s c).map fun x => (.inl x.1, x.2))
    fun a => some (.inr a, none)

/-- The segment that begins with the next character. -/
def IterHelper.refresh (m_buf : Option α) (s : σ) : Option (IterHelper σ α) := do
  let (s, c) ← b.sgetc s
  match c with
  | none => some ⟨s, m_buf, .memory 0, .memory 0⟩
  | some c =>
    let a := b.areas s
    if a.gcur ≠ a.gend then some ⟨s, m_buf, .memory a.gcur, .memory a.gend⟩
    else some ⟨s, some c, .own 0, .own 1⟩

/-- `_Cxxrt_iterhelper(beg, end)`. Two iterators are equal if both or none of them are at the
end. -/
def IterHelper.iterhelper (beg fin : Option σ) : Option (IterHelper (σ ⊕ Areas) α) :=
  if beg.isSome = fin.isSome then refresh b.or_empty none (.inr .null)
  else do
    let s ← beg
    refresh b.or_empty none (.inl s)

/-- `operator++`. -/
def IterHelper.next (h : IterHelper σ α) : Option (IterHelper σ α) :=
  let a := b.areas h.m_sbuf
  refresh b h.m_buf (b.with_areas h.m_sbuf { a with gcur := a.gend })

/-- `_Cxxrt_done(it)`; the buffer, and whether the iterator is at its end. -/
def IterHelper.done (h : IterHelper σ α) (it : SegmentPtr) : Option (σ × Bool) := do
  let a := b.areas h.m_sbuf
  let s ←
    if a.gcur ≠ a.gend then
      match it with
      | .memory p => some (b.with_areas h.m_sbuf { a with gcur := p })
      | .own _ => none
    else some h.m_sbuf
  let (s, c) ← b.sgetc s
  some (s, c.isNone)

/-- The characters from `begin()` to `end()`. -/
def IterHelper.segment (h : IterHelper σ α) : Option (List α) :=
  match h.m_beg, h.m_end with
  | .memory p, .memory e => if p ≤ e then b.read_chars h.m_sbuf p (e - p).toNat else none
  | .own 0, .own 1 => h.m_buf.map fun c => [c]
  | _, _ => none

/-- The characters of the first `n` segments, and the helper behind them. -/
def IterHelper.advance (h : IterHelper σ α) : Nat → Option (List α × IterHelper σ α)
  | 0 => some ([], h)
  | n + 1 =>
    if h.m_beg = h.m_end then none
    else do
      let cs ← h.segment b
      let h ← h.next b
      let (rest, h) ← advance h n
      some (cs ++ rest, h)

/-- The loop over all segments; the characters that are visited. -/
def IterHelper.walk : Nat → IterHelper σ α → Option (List α)
  | 0, _ => none
  | fuel + 1, h =>
    if h.m_beg = h.m_end then some []
    else do
      let cs ← h.segment b
      let h ← h.next b
      let rest ← walk fuel h
      some (cs ++ rest)

/-- The helper for all characters that are left. -/
def IterHelper.start (s : σ) : Option (IterHelper (σ ⊕ Areas) α) := do
  let it ← istreambuf_iterator b (some s)
  iterhelper b it none

/-- The loop visits the remaining characters and ends. Where it stops at the character `i` of a
segment, the buffer is left at this character. -/
structure VisitsSegments (supply : σ → Supply α) (s : σ) : Prop where
  walks : ∃ fuel, (IterHelper.start b s).bind (IterHelper.walk b.or_empty fuel) =
    some (supply s).content
  stops : ∀ n visited h cs i,
    (IterHelper.start b s).bind (IterHelper.advance b.or_empty · n) = some (visited, h) →
    h.segment b.or_empty = some cs → i < cs.length →
    ∃ s', h.done b.or_empty (h.m_beg.add i) = some (.inl s', false) ∧
      (supply s').content = (supply s).content.drop (visited.length + i)

end

namespace SegmentIterationLemmas

open SourcesLemmas IterHelper

variable {σ α : Type} {b : Streambuf σ α} {ok : σ → Prop} {supply : σ → Supply α} {s : σ}

/-! ## 1. The functions of the helper -/

/-- The helper is at the next character of its buffer. -/
structure Synced (b : Streambuf σ α) (ok : σ → Prop) (supply : σ → Supply α)
    (h : IterHelper σ α) : Prop where
  buffer : ok h.m_sbuf
  peeked : (supply h.m_sbuf).peek = supply h.m_sbuf
  area : (supply h.m_sbuf).current ≠ [] → h.m_beg = .memory (b.areas h.m_sbuf).gcur ∧
    h.m_end = .memory (b.areas h.m_sbuf).gend
  copy : ∀ c, (supply h.m_sbuf).current = [] → (supply h.m_sbuf).content.head? = some c →
    h.m_beg = .own 0 ∧ h.m_end = .own 1 ∧ h.m_buf = some c
  ended : (supply h.m_sbuf).content = [] → h.m_beg = h.m_end

theorem refresh_spec (hb : b.Source ok supply) (hok : ok s) (m_buf : Option α) : ∃ h,
    refresh b m_buf s = some h ∧ Synced b ok supply h ∧
      supply h.m_sbuf = (supply s).peek := by
  obtain ⟨s', hsgetc, hok', hsupply⟩ := sgetc_source hb hok
  have hpeeked : (supply s').peek = supply s' := by rw [hsupply, Supply.peek_peek]
  have hcontent : (supply s').content = (supply s).content := by
    rw [hsupply, Supply.content_peek]
  unfold refresh
  rw [hsgetc, ← hcontent, Option.bind_eq_bind, Option.bind_some]
  cases hhead : (supply s').content.head? with
  | none =>
    have hnil : (supply s').content = [] := List.head?_eq_none_iff.mp hhead
    refine ⟨_, rfl, ⟨hok', hpeeked, fun hne => ?_, fun c _ hc => ?_, fun _ => rfl⟩, hsupply⟩
    · exact absurd (List.append_eq_nil_iff.mp hnil).1 hne
    · rw [hhead] at hc
      cases hc
  | some c =>
    have hne : (supply s').content ≠ [] := fun hnil => by
      rw [hnil] at hhead
      cases hhead
    dsimp only
    split
    next harea =>
      have hcurrent : (supply s').current ≠ [] :=
        fun hnil => harea ((empty_iff hb hok').mpr hnil)
      exact ⟨_, rfl, ⟨hok', hpeeked, fun _ => ⟨rfl, rfl⟩, fun _ hnil => absurd hnil hcurrent,
        fun hnil => absurd hnil hne⟩, hsupply⟩
    next hused =>
      have hcurrent : (supply s').current = [] := (empty_iff hb hok').mp (not_not.mp hused)
      refine ⟨_, rfl, ⟨hok', hpeeked, fun hno => absurd hcurrent hno, fun c' _ hc' => ?_,
        fun hnil => absurd hnil hne⟩, hsupply⟩
      exact ⟨rfl, rfl, hhead.symm.trans hc'⟩

variable {h : IterHelper σ α}

/-- Behind the area; a character without an area stays the next one. -/
theorem next_spec (hb : b.Source ok supply) (hs : Synced b ok supply h) : ∃ h',
    h.next b = some h' ∧ Synced b ok supply h' ∧
      supply h'.m_sbuf = (supply h.m_sbuf).behind := by
  obtain ⟨hok, hsupply⟩ := hb.skip h.m_sbuf (supply h.m_sbuf).current.length hs.buffer
    (Nat.le_refl _)
  rw [← (hb.area h.m_sbuf hs.buffer).1] at hok hsupply
  obtain ⟨h', hrefresh, hs', hsupply'⟩ := refresh_spec hb hok h.m_buf
  refine ⟨h', hrefresh, hs', ?_⟩
  rw [hsupply', hsupply, Supply.skip, List.drop_length]
  rfl

theorem ended_iff (hb : b.Source ok supply) (hs : Synced b ok supply h) :
    h.m_beg = h.m_end ↔ (supply h.m_sbuf).content = [] := by
  refine ⟨fun heq => ?_, hs.ended⟩
  by_cases hcurrent : (supply h.m_sbuf).current = []
  · cases hhead : (supply h.m_sbuf).content.head? with
    | none => exact List.head?_eq_none_iff.mp hhead
    | some c =>
      obtain ⟨hbeg, hend, -⟩ := hs.copy c hcurrent hhead
      rw [hbeg, hend] at heq
      cases heq
  · obtain ⟨hbeg, hend⟩ := hs.area hcurrent
    rw [hbeg, hend] at heq
    exact absurd ((empty_iff hb hs.buffer).mp (SegmentPtr.memory.inj heq)) hcurrent

theorem segment_ended (hend : h.m_beg = h.m_end) {cs : List α} (hcs : h.segment b = some cs) :
    cs = [] := by
  rw [IterHelper.segment, ← hend] at hcs
  cases hbeg : h.m_beg with
  | memory p =>
    rw [hbeg] at hcs
    change (if p ≤ p then _ else none) = some cs at hcs
    rw [if_pos (Int.le_refl p), Int.sub_self] at hcs
    cases hcs
    rfl
  | own i =>
    rw [hbeg] at hcs
    split at hcs
    · next heq _ => cases heq
    · next h0 h1 => rw [h0] at h1; cases h1
    · cases hcs

/-- The area, or the next character without one. -/
def segmentOf (S : Supply α) : List α :=
  if S.current.isEmpty then S.content.head?.toList else S.current

theorem segment_spec (hb : b.Source ok supply) (hs : Synced b ok supply h)
    (hmore : (supply h.m_sbuf).content ≠ []) :
    h.segment b = some (segmentOf (supply h.m_sbuf)) := by
  unfold segmentOf
  split
  next hempty =>
    obtain ⟨c, cs, hcontent⟩ := List.exists_cons_of_ne_nil hmore
    have hhead : (supply h.m_sbuf).content.head? = some c := by
      rw [hcontent]
      rfl
    obtain ⟨hbeg, hend, hbuf⟩ := hs.copy c (List.isEmpty_iff.mp hempty) hhead
    rw [IterHelper.segment, hbeg, hend, hbuf, hhead]
    rfl
  next hcurrent =>
    obtain ⟨hbeg, hend⟩ := hs.area fun hnil => hcurrent (List.isEmpty_iff.mpr hnil)
    obtain ⟨hsize, hread⟩ := hb.area h.m_sbuf hs.buffer
    rw [IterHelper.segment, hbeg, hend]
    dsimp only
    rw [if_pos (by omega), area_size hb hs.buffer, Int.toNat_natCast, hread]

theorem segment_begins (S : Supply α) : segmentOf S <+: S.content := by
  unfold segmentOf
  split
  · cases S.content with
    | nil => exact List.prefix_refl _
    | cons c cs => exact ⟨cs, rfl⟩
  · exact List.prefix_append _ _

/-- The buffer is left at the character that the iterator points to. -/
theorem done_spec (hb : b.Source ok supply) (hs : Synced b ok supply h) {i : Nat}
    (hi : i < (segmentOf (supply h.m_sbuf)).length) :
    ∃ s', h.done b (h.m_beg.add i) = some (s', false) ∧
      (supply s').content = (supply h.m_sbuf).content.drop i := by
  have hlt : i < (supply h.m_sbuf).content.length :=
    hi.trans_le (segment_begins _).length_le
  have hdrop : ((supply h.m_sbuf).content.drop i).head?.isNone = false := by
    rw [List.head?_drop, List.getElem?_eq_getElem hlt]
    rfl
  unfold segmentOf at hi
  unfold done
  split at hi
  next hempty =>
    have hcurrent := List.isEmpty_iff.mp hempty
    have hzero : i = 0 := by
      have hle := Option.length_toList_le (o := (supply h.m_sbuf).content.head?)
      omega
    subst hzero
    obtain ⟨s', hsgetc, -, hsupply⟩ := sgetc_source hb hs.buffer
    rw [if_neg (not_not.mpr ((empty_iff hb hs.buffer).mpr hcurrent))]
    refine ⟨s', ?_, by rw [hsupply, Supply.content_peek, List.drop_zero]⟩
    rw [List.drop_zero] at hdrop
    show Option.bind (b.sgetc h.m_sbuf) _ = _
    rw [hsgetc]
    show some (s', _) = _
    rw [hdrop]
  next harea =>
    have hcurrent : (supply h.m_sbuf).current ≠ [] :=
      fun hnil => harea (List.isEmpty_iff.mpr hnil)
    obtain ⟨hbeg, -⟩ := hs.area hcurrent
    obtain ⟨hok, hskip⟩ := hb.skip h.m_sbuf i hs.buffer hi.le
    obtain ⟨s', hsgetc, -, hsupply⟩ := sgetc_source hb hok
    rw [hskip, Supply.content_skip hi.le] at hsgetc
    rw [if_pos fun hused => hcurrent ((empty_iff hb hs.buffer).mp hused), hbeg]
    refine ⟨s', ?_, by rw [hsupply, Supply.content_peek, hskip, Supply.content_skip hi.le]⟩
    show Option.bind (b.sgetc _) _ = _
    rw [hsgetc]
    show some (s', _) = _
    rw [hdrop]

/-! ## 2. Loops -/

theorem segmentOf_areas {S : Supply α} (h : S.AreasOnly) (hpeek : S.peek = S)
    (hmore : S.content ≠ []) : segmentOf S = S.current :=
  if_neg fun hempty => Supply.current_of_areasOnly h hpeek hmore (List.isEmpty_iff.mp hempty)

/-- Every area is visited, and then the loop ends. -/
theorem walk_areas (hb : b.Source ok supply) {fuel : Nat} {h : IterHelper σ α}
    (hs : Synced b ok supply h) (hareas : (supply h.m_sbuf).AreasOnly)
    (hfuel : (supply h.m_sbuf).content ≠ [] → (supply h.m_sbuf).next.length + 1 < fuel)
    (hpos : 0 < fuel) : walk b fuel h = some (supply h.m_sbuf).content := by
  induction fuel generalizing h with
  | zero => cases hpos
  | succ fuel ih =>
    rw [walk]
    by_cases hend : (supply h.m_sbuf).content = []
    · rw [if_pos ((ended_iff hb hs).mpr hend), hend]
    · obtain ⟨h', hnext, hs', hsupply⟩ := next_spec hb hs
      have hlen := hfuel hend
      have hrest := ih hs' (by rw [hsupply, Supply.areasOnly_behind]; exact hareas)
        (fun hmore => by
          rw [hsupply] at hmore ⊢
          have hless := (Supply.length_behind hareas).resolve_left hmore
          omega) (by omega)
      rw [if_neg fun heq => hend ((ended_iff hb hs).mp heq), segment_spec hb hs hend, hnext,
        segmentOf_areas hareas hs.peeked hend]
      dsimp only [Option.bind_eq_bind, Option.bind_some]
      rw [hrest, hsupply, ← Supply.content_behind (supply h.m_sbuf)]
      rfl

/-- The loop does not get behind a character that comes without an area. -/
theorem walk_single (hb : b.Source ok supply) (fuel : Nat) {h : IterHelper σ α}
    (hs : Synced b ok supply h) (hsingle : ¬(supply h.m_sbuf).AreasOnly) :
    walk b fuel h = none := by
  induction fuel generalizing h with
  | zero => rfl
  | succ fuel ih =>
    have hmore := Supply.content_of_not_areasOnly hsingle
    obtain ⟨h', hnext, hs', hsupply⟩ := next_spec hb hs
    have hrest := ih hs' (by rw [hsupply, Supply.areasOnly_behind]; exact hsingle)
    rw [walk, if_neg fun heq => hmore ((ended_iff hb hs).mp heq), segment_spec hb hs hmore, hnext]
    dsimp only [Option.bind_eq_bind, Option.bind_some]
    rw [hrest]
    rfl

theorem advance_areas (hb : b.Source ok supply) {n : Nat} {h h' : IterHelper σ α}
    {visited : List α} (hs : Synced b ok supply h) (hareas : (supply h.m_sbuf).AreasOnly)
    (hadvance : h.advance b n = some (visited, h')) :
    Synced b ok supply h' ∧ visited ++ (supply h'.m_sbuf).content = (supply h.m_sbuf).content := by
  induction n generalizing h visited with
  | zero =>
    cases hadvance
    exact ⟨hs, rfl⟩
  | succ n ih =>
    rw [IterHelper.advance] at hadvance
    by_cases hend : (supply h.m_sbuf).content = []
    · rw [if_pos ((ended_iff hb hs).mpr hend)] at hadvance
      cases hadvance
    · obtain ⟨h₁, hnext, hs₁, hsupply⟩ := next_spec hb hs
      rw [if_neg fun heq => hend ((ended_iff hb hs).mp heq), segment_spec hb hs hend, hnext,
        segmentOf_areas hareas hs.peeked hend] at hadvance
      dsimp only [Option.bind_eq_bind, Option.bind_some] at hadvance
      obtain ⟨⟨rest, h₂⟩, hrest, heq⟩ := Option.bind_eq_some_iff.mp hadvance
      cases heq
      obtain ⟨hs', hcontent⟩ :=
        ih hs₁ (by rw [hsupply, Supply.areasOnly_behind]; exact hareas) hrest
      refine ⟨hs', ?_⟩
      rw [List.append_assoc, hcontent, hsupply, Supply.content_behind]

/-! The empty buffer -/

/-- The buffer or the empty one is all right. -/
def okOrEmpty (ok : σ → Prop) : σ ⊕ Areas → Prop := Sum.elim ok fun a => a.gcur = a.gend

def supplyOrEmpty (supply : σ → Supply α) : σ ⊕ Areas → Supply α :=
  Sum.elim supply fun _ => ⟨[], []⟩

theorem read_or_empty (b : Streambuf σ α) (s : σ) (p : Int) (n : Nat) :
    b.or_empty.read_chars (.inl s) p n = b.read_chars s p n := by
  induction n generalizing p with
  | zero => rfl
  | succ n ih =>
    rw [Streambuf.read_chars, Streambuf.read_chars, ih]
    rfl

theorem or_empty_source (hb : b.Source ok supply) :
    b.or_empty.Source (okOrEmpty ok) (supplyOrEmpty supply) where
  areas_with s a := by
    cases s with
    | inl s => exact hb.areas_with s a
    | inr a' => rfl
  load_with s a p := by
    cases s with
    | inl s => exact hb.load_with s a p
    | inr a' => rfl
  area s h := by
    cases s with
    | inl s => exact ⟨(hb.area s h).1, (read_or_empty b s _ _).trans (hb.area s h).2⟩
    | inr a =>
      have hused : a.gcur = a.gend := h
      exact ⟨hused.symm.trans (Int.add_zero _).symm, rfl⟩
  skip s k h hk := by
    cases s with
    | inl s => exact hb.skip s k h hk
    | inr a =>
      obtain rfl : k = 0 := Nat.le_zero.mp hk
      have hused : a.gcur = a.gend := h
      exact ⟨(Int.add_zero _).trans hused, rfl⟩
  underflow s h hc := by
    cases s with
    | inl s =>
      obtain ⟨s', hs', hok, hsupply⟩ := hb.underflow s h hc
      refine ⟨.inl s', ?_, hok, hsupply⟩
      show (b.underflow s).map _ = _
      rw [hs']
      rfl
    | inr a => exact ⟨.inr a, rfl, h, rfl⟩
  uflow s h hc := by
    cases s with
    | inl s =>
      obtain ⟨s', hs', hok, hsupply⟩ := hb.uflow s h hc
      refine ⟨.inl s', ?_, hok, hsupply⟩
      show (b.uflow s).map _ = _
      rw [hs']
      rfl
    | inr a => exact ⟨.inr a, rfl, h, rfl⟩

theorem start_spec (hb : b.Source ok supply) (hok : ok s) : ∃ h,
    start b s = some h ∧ Synced b.or_empty (okOrEmpty ok) (supplyOrEmpty supply) h ∧
      supplyOrEmpty supply h.m_sbuf = (supply s).peek := by
  obtain ⟨s', hsgetc, hok', hsupply⟩ := sgetc_source hb hok
  have hsource := or_empty_source hb
  have hit : istreambuf_iterator b (some s) =
      some (if (supply s).content.head?.isNone then none else some s') := by
    show Option.bind (b.sgetc s) _ = _
    rw [hsgetc]
    rfl
  unfold start
  rw [hit]
  cases hhead : (supply s).content.head? with
  | none =>
    have hnil : (supply s).content = [] := List.head?_eq_none_iff.mp hhead
    have hempty : supply s = ⟨[], []⟩ := by
      rcases Supply.cases_next (List.append_eq_nil_iff.mp hnil).1 with h | ⟨c, cs, next, h⟩ |
        ⟨c, next, h⟩
      · exact h
      · rw [h] at hnil
        cases hnil
      · rw [h] at hnil
        cases hnil
    obtain ⟨h, hrefresh, hs, hsupply'⟩ :=
      refresh_spec hsource (show okOrEmpty ok (.inr .null) from rfl) none
    refine ⟨h, hrefresh, hs, ?_⟩
    rw [hsupply', hempty]
    rfl
  | some c =>
    obtain ⟨h, hrefresh, hs, hsupply'⟩ := refresh_spec hsource (show okOrEmpty ok (.inl s') from hok') none
    refine ⟨h, hrefresh, hs, ?_⟩
    rw [hsupply']
    show (supply s').peek = _
    rw [hsupply, Supply.peek_peek]

theorem areasOnly_of_segments (hb : b.Source ok supply) (hok : ok s)
    (hvisits : VisitsSegments b supply s) : (supply s).AreasOnly := by
  by_contra hsingle
  obtain ⟨h, hstart, hs, hsupply⟩ := start_spec hb hok
  obtain ⟨fuel, hwalk⟩ := hvisits.walks
  rw [hstart, Option.bind_some, walk_single (or_empty_source hb) fuel hs
    (by rw [hsupply, Supply.areasOnly_peek]; exact hsingle)] at hwalk
  cases hwalk

theorem segments_of_areasOnly (hb : b.Source ok supply) (hok : ok s)
    (hareas : (supply s).AreasOnly) : VisitsSegments b supply s := by
  obtain ⟨h, hstart, hs, hsupply⟩ := start_spec hb hok
  have hsource := or_empty_source hb
  have hcontent : (supplyOrEmpty supply h.m_sbuf).content = (supply s).content := by
    rw [hsupply, Supply.content_peek]
  rw [← Supply.areasOnly_peek, ← hsupply] at hareas
  refine ⟨⟨(supplyOrEmpty supply h.m_sbuf).next.length + 2, ?_⟩,
    fun n visited h' cs i hadvance hsegment hi => ?_⟩
  · rw [hstart, Option.bind_some, ← hcontent]
    exact walk_areas hsource hs hareas (fun _ => Nat.lt_succ_self _) (Nat.succ_pos _)
  · rw [hstart, Option.bind_some] at hadvance
    obtain ⟨hs', hvisited⟩ := advance_areas hsource hs hareas hadvance
    have hmore : (supplyOrEmpty supply h'.m_sbuf).content ≠ [] := by
      intro hnil
      rw [segment_ended (hs'.ended hnil) hsegment] at hi
      exact Nat.not_lt_zero i hi
    obtain rfl : segmentOf _ = cs :=
      Option.some.inj ((segment_spec hsource hs' hmore).symm.trans hsegment)
    obtain ⟨s', hdone, hrest⟩ := done_spec hsource hs' hi
    have hlt := hi.trans_le (segment_begins _).length_le
    rw [← hcontent, ← hvisited, List.drop_length_add_append]
    cases s' with
    | inl s' => exact ⟨s', hdone, hrest⟩
    | inr a =>
      have hnil := List.drop_eq_nil_iff.mp hrest.symm
      omega

end SegmentIterationLemmas

open SegmentIterationLemmas

/-- Every character is visited once unless one of them comes without a get area. -/
theorem segments_visit_iff {σ α : Type} {b : Streambuf σ α} {ok : σ → Prop}
    {supply : σ → Supply α} (hb : b.Source ok supply) {s : σ} (hok : ok s) :
    VisitsSegments b supply s ↔ (supply s).AreasOnly :=
  ⟨areasOnly_of_segments hb hok, segments_of_areasOnly hb hok⟩

theorem segments_visit_iff_example :
    VisitsSegments Pipe.buf Pipe.supply (Pipe.new [] [.area 'a' ['b', 'c'], .area 'd' []]) :=
  (segments_visit_iff Pipe.buf_source (Pipe.ok_new (by decide) (by decide))).mpr fun c hc => by
    rcases List.mem_cons.mp hc with hc | hc
    · cases hc
    · cases List.mem_singleton.mp hc

/-- The character is visited again and again. -/
theorem not_segments_visit :
    ¬ VisitsSegments Pipe.buf Pipe.supply (Pipe.new [] [.single 'a']) := fun hvisits =>
  areasOnly_of_segments Pipe.buf_source (Pipe.ok_new (by decide) (by decide)) hvisits 'a'
    List.mem_cons_self

end Kuhllib.Cxxrt
