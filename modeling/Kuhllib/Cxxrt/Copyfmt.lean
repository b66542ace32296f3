import Kuhllib.Cxxrt.IosBase

/-!
# What `copyfmt` copies

Results:
1. `value_modify`, `value_assign_all`: the words of a stream.
2. `run_attached`: a stream without a stream buffer is bad in every run.
3. `format_copied_iff`: when a stream has the format of another one after `copyfmt`.
4. `copyfmt_ios`: the model of the flags agrees with the one of the sentries.
-/

namespace Kuhllib.Cxxrt.IosBase

open SharedLists Transition IosBaseLemmas

variable {B L C F : Type}

/-! ## The words -/

namespace WordMap

variable (m : WordMap) (key index : Int) (f : WordRec → WordRec)

theorem find_map_write (items : List (Int × WordRec)) :
    ((items.map (write key f)).find? fun x => x.1 = index).map Prod.snd =
      (((items.find? fun x => x.1 = index).map Prod.snd).map
        fun r => if index = key then f r else r) := by
  induction items with
  | nil => rfl
  | cons x xs ih =>
    have hfst : (write key f x).1 = x.1 := by
      unfold write
      split <;> rfl
    rw [List.map_cons, List.find?_cons, List.find?_cons, hfst]
    by_cases hx : x.1 = index
    · simp only [hx, decide_true, Option.map_some, write, Option.some.injEq]
      split <;> rfl
    · simp only [hx, decide_false]
      exact ih

/-- `m[key]` is created with zeros. -/
theorem value_modify :
    (m.modify key f).value index = if index = key then f (m.value key) else m.value index := by
  unfold value find modify
  split
  · next hmem =>
    rw [find_map_write]
    cases hfind : (m.items.find? fun x => x.1 = index) with
    | some x =>
      split
      · next heq =>
        subst heq
        rw [hfind]
        rfl
      · rfl
    | none =>
      split
      · next heq =>
        obtain ⟨x, hx, rfl⟩ := List.mem_map.mp hmem
        have hno := List.find?_eq_none.mp hfind x hx
        exact absurd heq.symm (by simpa using hno)
      · rfl
  · next hmem =>
    dsimp only
    rw [List.find?_cons]
    by_cases heq : index = key
    · subst heq
      have hnone : (m.items.find? fun x => x.1 = index) = none :=
        List.find?_eq_none.mpr fun x hx => by
          simpa using fun h => hmem (List.mem_map.mpr ⟨x, hx, h⟩)
      simp only [decide_true, hnone, if_true, Option.map_some, Option.map_none, Option.getD_some,
        Option.getD_none]
    · simp only [Ne.symm heq, decide_false, heq, if_false]

/-- The last one of several items would count, but there is only one for each key. -/
theorem value_assign_all {items : List (Int × WordRec)} (hd : (items.map Prod.fst).Nodup) :
    (m.assign_all items).value index =
      ((items.find? fun x => x.1 = index).map Prod.snd).getD (m.value index) := by
  induction items generalizing m with
  | nil => rfl
  | cons x xs ih =>
    obtain ⟨hx, hxs⟩ := List.nodup_cons.mp hd
    show ((m.modify x.1 fun _ => x.2).assign_all xs).value index = _
    rw [ih _ hxs, value_modify, List.find?_cons]
    by_cases heq : x.1 = index
    · subst heq
      have hnone : (xs.find? fun y => y.1 = x.1) = none :=
        List.find?_eq_none.mpr fun y hy => by
          simpa using fun h => hx (List.mem_map.mpr ⟨y, hy, h⟩)
      simp only [hnone, decide_true, if_true, Option.map_none, Option.map_some, Option.getD_none,
        Option.getD_some]
    · simp only [heq, Ne.symm heq, decide_false, if_false]

theorem value_empty : empty.value index = ⟨0, 0⟩ := rfl

theorem value_copied : (empty.assign_all m.items).value index = m.value index := by
  rw [value_assign_all _ _ m.nodup, value_empty]
  rfl

end WordMap

/-! ## The state without a stream buffer -/

/-- Without a stream buffer the stream is bad. -/
def Attached (x : Ios Nat B) : Prop := x.m_sbuf = none → x.m_state ||| badbit = x.m_state

theorem clear_fields (x : Ios Nat B) (state : Iostate) :
    (x.clear state).1.m_sbuf = x.m_sbuf ∧
      (x.clear state).1.m_state = (if x.m_sbuf.isNone then state ||| badbit else state) ∧
      (x.clear state).1.m_exceptions = x.m_exceptions ∧ (x.clear state).1.m_tie = x.m_tie := by
  unfold Ios.clear
  dsimp only
  generalize (if x.m_sbuf.isNone = true then state ||| badbit else state) = st
  split
  · exact ⟨rfl, rfl, rfl, rfl⟩
  · split <;> exact ⟨rfl, rfl, rfl, rfl⟩

theorem attached_clear (x : Ios Nat B) (state : Iostate) : Attached (x.clear state).1 := by
  obtain ⟨hsbuf, hstate, -⟩ := clear_fields x state
  intro h
  rw [hsbuf] at h
  rw [hstate, h]
  exact (BitVec.or_assoc ..).trans (congrArg _ (BitVec.or_self))

/-- The exceptions of an attached stream do not change its state. -/
theorem set_exceptions_fields {x : Ios Nat B} (h : Attached x) (e : Iostate) :
    (x.set_exceptions e).1.m_sbuf = x.m_sbuf ∧ (x.set_exceptions e).1.m_state = x.m_state ∧
      (x.set_exceptions e).1.m_exceptions = e ∧ (x.set_exceptions e).1.m_tie = x.m_tie := by
  obtain ⟨hsbuf, hstate, hexc, htie⟩ := clear_fields { x with m_exceptions := e } x.m_state
  refine ⟨hsbuf, hstate.trans ?_, hexc, htie⟩
  cases hs : x.m_sbuf with
  | none => exact h hs
  | some sb => rfl

/-- The hidden bits are none of the visible flags. -/
theorem flags_hidden (x : Ios Nat B) {f : Fmt} (h : f &&& fmtmask = 0) :
    (x.setf f).flags = x.flags ∧ (x.unsetf f).flags = x.flags := by
  have hunset : ~~~f &&& fmtmask = fmtmask := by
    have hsplit : (~~~f &&& fmtmask) ||| (f &&& fmtmask) = fmtmask := by
      rw [← BitVec.and_or_distrib_right, BitVec.or_comm, BitVec.or_not_self, BitVec.allOnes_and]
    rw [h] at hsplit
    exact BitVec.or_zero.symm.trans hsplit
  unfold Ios.flags
  rw [IosLemmas.and_setf, IosLemmas.and_unsetf, h, hunset]
  exact ⟨BitVec.or_zero, rfl⟩

theorem flags_clear (x : Ios Nat B) (state : Iostate) : (x.clear state).1.flags = x.flags := by
  unfold Ios.clear
  dsimp only
  generalize (if x.m_sbuf.isNone = true then state ||| badbit else state) = st
  obtain ⟨hset, hunset⟩ := flags_hidden { x with m_state := st } (f := os_good) (by decide)
  split
  · rfl
  · split
    · exact hunset
    · exact hset

theorem flags_set_tie (x : Ios Nat B) (t : Option Nat) : (x.set_tie t).flags = x.flags := by
  obtain ⟨hset, hunset⟩ := flags_hidden { x with m_tie := t } (f := os_tie) (by decide)
  cases t with
  | none => exact hunset
  | some t => exact hset

/-! ### In every run -/

/-- No stream without a stream buffer is good. -/
def AllAttached (w : World B L C F) : Prop :=
  ∀ (i : Nat) (s : Format B L C), w.streams[i]? = some s → Attached s.toIos

section

variable {w w' : World B L C F} {i : Nat}

theorem streams_call (w : World B L C F) (i : Nat) (e : Event) :
    (w.call_callbacks i e).streams = w.streams := by
  unfold World.call_callbacks
  split
  · split <;> rfl
  · rfl

theorem attached_modify (h : AllAttached w) {f : Format B L C → Format B L C}
    (hf : ∀ s, Attached s.toIos → Attached (f s).toIos)
    (hw' : w'.streams = w.streams.modify i f) : AllAttached w' := by
  intro k s hs
  rw [hw'] at hs
  rcases eq_or_ne i k with rfl | hne
  · rw [List.getElem?_modify_eq] at hs
    obtain ⟨t, ht, rfl⟩ := Option.map_eq_some_iff.mp hs
    exact hf t (h i t ht)
  · rw [List.getElem?_modify_ne _ _ hne] at hs
    exact h k s hs

theorem Setting.apply_attached (x : Setting B C) {s : Format B L C} (h : Attached s.toIos) :
    Attached (x.apply s).toIos := by
  cases x with
  | tie t =>
    obtain ⟨hsbuf, hstate, -⟩ := set_tie_fields s.toIos t
    intro hnone
    show (s.toIos.set_tie t).m_state ||| badbit = (s.toIos.set_tie t).m_state
    rw [hstate]
    exact h (hsbuf.symm.trans hnone)
  | exceptions e => exact attached_clear _ _
  | clear state => exact attached_clear _ _
  | setstate state => exact attached_clear _ _
  | rdbuf sb => exact attached_clear _ _
  | flags f => exact h
  | setf f => exact h
  | setf_field f m => exact h
  | unsetf m => exact h
  | precision p => exact h
  | width n => exact h
  | fill c => exact h
  | iword index x => exact h
  | pword index x => exact h

theorem attached_next {v : Values F} {leak : Nat → Nat} (hc : Consistent w v leak)
    (h : AllAttached w) {op : FormatOp B L C F} (hnext : next w op = some w') :
    AllAttached w' := by
  cases op with
  | construct sb loc fill =>
    cases hnext
    intro k s hs
    rcases Nat.lt_or_ge k w.streams.length with hlt | hge
    · exact h k s ((List.getElem?_append_left hlt).symm.trans hs)
    · change (w.streams ++ [_])[k]? = some s at hs
      rw [List.getElem?_append_right hge, List.getElem?_singleton] at hs
      split at hs
      · cases hs
        intro hnone
        cases sb with
        | none =>
          have hstate : (Ios.basic_ios_on none : Ios Nat B).m_state = badbit := rfl
          show (Ios.basic_ios_on none : Ios Nat B).m_state ||| badbit =
            (Ios.basic_ios_on none : Ios Nat B).m_state
          rw [hstate]
          decide
        | some sb => cases hnone
      · cases hs
  | register_callback i fn ud =>
    obtain ⟨s, hs, hnext⟩ := Option.bind_eq_some_iff.mp hnext
    cases hnext
    exact attached_modify (f := fun s => { s with list := some _ }) h (fun _ ht => ht) rfl
  | copyfmt i cpy =>
    obtain ⟨s, hs, hnext⟩ := Option.bind_eq_some_iff.mp hnext
    obtain ⟨c, hcpy, hnext⟩ := Option.bind_eq_some_iff.mp hnext
    obtain ⟨called, hcopy⟩ := copyfmt_spec hc hs hcpy
    rw [hcopy] at hnext
    cases hnext
    intro k t ht
    change (w.streams.set i _)[k]? = some t at ht
    rw [get_set_stream (get_iff.mp hs).1] at ht
    split at ht
    · cases ht
      exact attached_clear _ _
    · exact h k t ht
  | destroy i =>
    obtain ⟨s, hs, hnext⟩ := Option.bind_eq_some_iff.mp hnext
    cases hnext
    refine attached_modify (i := i) (f := fun s => { s with alive := false }) h
      (fun _ ht => ht) ?_
    unfold World.destroy World.update
    dsimp only
    split <;> rw [streams_call]
  | imbue i loc =>
    obtain ⟨s, hs, hnext⟩ := Option.bind_eq_some_iff.mp hnext
    cases hnext
    exact attached_modify (f := fun s => { s with loc := loc }) h (fun _ ht => ht)
      (streams_call _ i _)
  | set i x =>
    obtain ⟨s, hs, hnext⟩ := Option.bind_eq_some_iff.mp hnext
    cases hnext
    exact attached_modify h (fun _ ht => x.apply_attached ht) rfl

theorem run_attached {tr : List (FormatOp B L C F)} (h : Run (system B L C F) .start tr w) :
    AllAttached w := by
  induction h with
  | nil => exact fun i s hs => nomatch hs
  | snoc hr hstep ih =>
    obtain ⟨leak, hc⟩ := run_consistent hr
    exact attached_next hc ih hstep

end

/-! ## What is copied -/

/-- `a'`, which was `a`, has the format that `c` had, and the stream buffer and the state of
`a`. -/
structure FormatCopied (w w' : World B L C F) (a c a' : Format B L C) : Prop where
  flags : a'.toIos.flags = c.toIos.flags
  precision : a'.precision = c.precision
  width : a'.m_width = c.m_width
  loc : a'.loc = c.loc
  callbacks : w'.callbacks.list a'.list = w.callbacks.list c.list
  tie : a'.m_tie = c.m_tie
  fill : a'.m_fill = c.m_fill
  exceptions : a'.m_exceptions = c.m_exceptions
  words : ∀ index, a'.words.value index = c.words.value index
  rdbuf : a'.m_sbuf = a.m_sbuf
  rdstate : a'.m_state = a.m_state

/-- All words that the stream has are zero. -/
def NoWords (c : Format B L C) : Prop := ∀ index, c.words.value index = ⟨0, 0⟩

/-- After `copyfmt` a stream has the format of the other one. With itself as the other one it
loses its words. -/
theorem format_copied_iff {w : World B L C F} {tr : List (FormatOp B L C F)}
    (h : Run (system B L C F) .start tr w) {i cpy : Nat} {a c : Format B L C}
    (ha : w.get i = some a) (hcpy : w.get cpy = some c) :
    ∃ w' threw a', w.copyfmt i cpy = some (w', threw) ∧ w'.get i = some a' ∧
      (FormatCopied w w' a c a' ↔ i ≠ cpy ∨ NoWords c) := by
  obtain ⟨leak, hc⟩ := run_consistent h
  generalize values tr = v at hc
  obtain ⟨called, hcopy⟩ := copyfmt_spec hc ha hcpy
  obtain ⟨hi, halive⟩ := get_iff.mp ha
  obtain ⟨hcpy', halive'⟩ := get_iff.mp hcpy
  have hattached : Attached (copied_format (cpy = i) a c).toIos := run_attached h i a hi
  obtain ⟨hsbuf, hstate, hexc, htie⟩ := set_exceptions_fields hattached c.m_exceptions
  have hcopied := consistent_copied hc ha hcpy (x := { copied_format (cpy = i) a c with
    toIos := ((copied_format (cpy = i) a c).toIos.set_exceptions c.m_exceptions).1 })
    rfl halive called
  refine ⟨_, _, _, hcopy, get_iff.mpr ⟨with_stream_get hi, halive⟩, ?_⟩
  have hflags : (copied_format (cpy = i) a c).toIos.flags = c.toIos.flags := by
    by_cases hself : cpy = i
    · subst hself
      rw [hi, Option.some.injEq] at hcpy'
      subst hcpy'
      show copied_flags (cpy = cpy) a a &&& fmtmask = a.toIos.flags
      rw [copied_flags, decide_eq_true rfl, if_pos rfl]
      exact flags_set_tie a.toIos a.m_tie
    · show copied_flags (cpy = i) a c &&& fmtmask = c.toIos.flags
      rw [copied_flags, decide_eq_false hself, if_neg Bool.false_ne_true]
      rfl
  have hlist : ((w.callbacks.retain c.list).release a.list).list c.list =
      w.callbacks.list c.list := by
    obtain ⟨l, hl, hv⟩ := hcopied.lists i _ (with_stream_get hi) halive
    obtain ⟨l', hl', hv'⟩ := hc.lists cpy c hcpy' halive'
    have hlt : i < v.length := hc.length ▸ (List.getElem?_eq_some_iff.mp hi).1
    rw [List.getElem?_set_self hlt, hv'] at hv
    cases hv
    exact (hl.list_eq hcopied.counted).trans (hl'.list_eq hc.counted).symm
  have hwords : ∀ index, (copied_format (cpy = i) a c).words.value index =
      if cpy = i then ⟨0, 0⟩ else c.words.value index := by
    intro index
    by_cases hself : cpy = i
    · simp only [copied_format, hself, decide_true, if_true]
      rfl
    · simp only [copied_format, hself, decide_false, if_false, Bool.false_eq_true,
        WordMap.value_copied]
  constructor
  · intro hcopied
    by_cases hself : cpy = i
    · refine .inr fun index => ?_
      rw [← hcopied.words index, hwords, if_pos hself]
    · exact .inl (Ne.symm hself)
  · intro hcond
    refine ⟨(flags_clear _ _).trans hflags, rfl, rfl, rfl, hlist, htie, rfl, hexc, fun index => ?_,
      hsbuf, hstate⟩
    rw [hwords]
    split
    · next hself =>
      exact ((hcond.resolve_left (not_not.mpr hself.symm)) index).symm
    · rfl

/-- `copyfmt` changes the flags, the tie and the exceptions as in the model of the sentries. -/
theorem copyfmt_ios {w : World B L C F} {tr : List (FormatOp B L C F)}
    (h : Run (system B L C F) .start tr w) {i cpy : Nat} {a c : Format B L C}
    (ha : w.get i = some a) (hcpy : w.get cpy = some c) {x : Streams Nat B}
    (hi : x i = a.toIos) (hx : x cpy = c.toIos) :
    ∃ w' threw a', w.copyfmt i cpy = some (w', threw) ∧ w'.get i = some a' ∧
      Kuhllib.Cxxrt.copyfmt x i cpy = (Function.update x i a'.toIos, threw) := by
  obtain ⟨leak, hc⟩ := run_consistent h
  obtain ⟨called, hcopy⟩ := copyfmt_spec hc ha hcpy
  obtain ⟨ha', halive⟩ := get_iff.mp ha
  refine ⟨_, _, _, hcopy, get_iff.mpr ⟨with_stream_get ha', halive⟩, ?_⟩
  obtain ⟨hsbuf, hstate, hexc, htie⟩ := set_tie_fields a.toIos c.m_tie
  have htaken : (copied_format (cpy = i) a c).toIos =
      { a.toIos.set_tie c.m_tie with fmtflags := copied_flags (cpy = i) a c } := by
    simp only [copied_format, hsbuf, hstate, hexc, htie]
  rw [htaken]
  unfold Kuhllib.Cxxrt.copyfmt
  by_cases hself : cpy = i
  · subst hself
    have hsame : a.toIos = c.toIos := hi.symm.trans hx
    simp only [hi, Function.update_self, Function.update_idem, copied_flags, decide_true, if_true]
    rw [hsame] at hexc ⊢
    rw [hexc]
  · simp only [hi, hx, Function.update_self, Function.update_of_ne hself, Function.update_idem,
      copied_flags, hself, decide_false, Bool.false_eq_true, if_false]

/-- A stream with a word that is not zero. -/
def one_word : List (FormatOp Unit Unit Unit Unit) :=
  [.construct (some ()) () (), .set 0 (.iword 3 7)]

theorem format_copied_iff_example :
    ∃ (w : World Unit Unit Unit Unit) (a : Format Unit Unit Unit) (w' : World Unit Unit Unit Unit)
      (threw : Bool) (a' : Format Unit Unit Unit),
      w.copyfmt 0 0 = some (w', threw) ∧ w'.get 0 = some a' ∧
        (FormatCopied w w' a a a' ↔ 0 ≠ 0 ∨ NoWords a) := by
  have hrun : Run (system Unit Unit Unit Unit) .start one_word
      ((replay next .start one_word).get (by decide)) :=
    run_replay (fun _ _ _ h => h) (by decide)
  exact ⟨_, _, format_copied_iff hrun rfl rfl⟩

/-- A stream that is copied to itself loses its words. -/
theorem not_format_copied :
    ∃ (w : World Unit Unit Unit Unit) (a : Format Unit Unit Unit) (w' : World Unit Unit Unit Unit)
      (threw : Bool) (a' : Format Unit Unit Unit), Run (system Unit Unit Unit Unit) .start one_word w ∧
      w.get 0 = some a ∧ w.copyfmt 0 0 = some (w', threw) ∧ w'.get 0 = some a' ∧
        ¬ FormatCopied w w' a a a' := by
  have hrun : Run (system Unit Unit Unit Unit) .start one_word
      ((replay next .start one_word).get (by decide)) :=
    run_replay (fun _ _ _ h => h) (by decide)
  refine ⟨_, _, _, _, _, hrun, rfl, rfl, rfl, fun h => ?_⟩
  exact absurd (h.words 3) (by decide)

end Kuhllib.Cxxrt.IosBase
