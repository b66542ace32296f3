import Kuhllib.Cxxrt.Ios
import Kuhllib.Lib.SharedLists
import Kuhllib.Lib.Transition

/-!
# `ios_base`: the format of a stream

The callbacks of all streams are cells that streams share after `copyfmt`. What a callback
does is not modelled; which ones are called is.

`B` are the stream buffers, `L` the locales, `C` the characters and `F` the functions.

Results:
1. `consistent_next`: what an operation does to the counts of the callbacks, and that the
   callbacks of a stream are those of lists that are copied.
2. `run_consistent`: in every run, all callbacks are counted at least as often as they are
   referred to.
-/

namespace Kuhllib.Cxxrt.IosBase

open SharedLists Transition

/-! ## `_CS_map` -/

/-- `_CS_word_rec`; the null pointer is 0. -/
structure WordRec where
  iword : Int
  pword : Nat
  deriving DecidableEq

/-- Items with different keys, the newest first. -/
structure WordMap where
  items : List (Int × WordRec)
  nodup : (items.map Prod.fst).Nodup

namespace WordMap

def empty : WordMap := ⟨[], .nil⟩

def find (m : WordMap) (key : Int) : Option WordRec :=
  (m.items.find? fun x => x.1 = key).map Prod.snd

/-- What `m[key]` reads. -/
def value (m : WordMap) (key : Int) : WordRec := (m.find key).getD ⟨0, 0⟩

def write (key : Int) (f : WordRec → WordRec) (x : Int × WordRec) : Int × WordRec :=
  if x.1 = key then (x.1, f x.2) else x

theorem fst_write (key : Int) (f : WordRec → WordRec) (items : List (Int × WordRec)) :
    (items.map (write key f)).map Prod.fst = items.map Prod.fst := by
  rw [List.map_map]
  refine List.map_congr_left fun x _ => ?_
  show (write key f x).1 = x.1
  unfold write
  split <;> rfl

/-- `m[key]`, which is written to. -/
def modify (m : WordMap) (key : Int) (f : WordRec → WordRec) : WordMap :=
  if h : key ∈ m.items.map Prod.fst then ⟨m.items.map (write key f), by rw [fst_write]; exact m.nodup⟩
  else ⟨(key, f ⟨0, 0⟩) :: m.items, List.nodup_cons.mpr ⟨h, m.nodup⟩⟩

/-- `for (..) m[(*tmp).first] = (*tmp).second;` -/
def assign_all (m : WordMap) (items : List (Int × WordRec)) : WordMap :=
  items.foldl (fun m x => m.modify x.1 fun _ => x.2) m

end WordMap

/-! ## Streams -/

/-- A stream, with the members of `ios_base` and of `basic_ios`. -/
structure Format (B L C : Type) extends Ios Nat B where
  precision : Int
  m_width : Int
  loc : L
  list : Option Nat
  words : WordMap
  m_fill : C
  alive : Bool

inductive Event
  | erase_event
  | imbue_event
  | copyfmt_event
  deriving DecidableEq

/-- All streams there have been. `deleter` tells whether the static pointers `_CS_caller` and
`_CS_deleter` are set. -/
structure World (B L C F : Type) where
  streams : List (Format B L C)
  callbacks : Store (F × Int)
  deleter : Bool
  called : List (Event × Nat × F × Int)

namespace World

variable {B L C F : Type} (w : World B L C F)

def start : World B L C F := ⟨[], ⟨[], false⟩, false, []⟩

/-- A stream that has not been destroyed. -/
def get (i : Nat) : Option (Format B L C) := w.streams[i]?.filter (·.alive)

def update (i : Nat) (f : Format B L C → Format B L C) : World B L C F :=
  { w with streams := w.streams.modify i f }

/-- `basic_ios(sb)`, with the global locale and the blank it widens. -/
def construct (sb : Option B) (loc : L) (fill : C) : World B L C F :=
  let s : Format B L C :=
    { toIos := .basic_ios_on sb, precision := 6, m_width := 0, loc := loc, list := none,
      words := .empty, m_fill := fill, alive := true }
  { w with streams := w.streams ++ [s] }

def call_callbacks (i : Nat) (e : Event) : World B L C F :=
  if w.deleter then
    match w.callbacks.list (w.streams[i]?.bind (·.list)) with
    | none => { w with callbacks := w.callbacks.fail }
    | some l => { w with called := w.called ++ l.map fun c => (e, i, c) }
  else w

def register_callback (i : Nat) (fn : F) (ud : Int) : World B L C F :=
  let (callbacks, cb) := w.callbacks.push (fn, ud) (w.streams[i]?.bind (·.list))
  let w := { w with callbacks := callbacks }.update i fun s => { s with list := some cb }
  { w with deleter := true }

/-- `~ios_base()` -/
def destroy (i : Nat) : World B L C F :=
  let w := w.call_callbacks i .erase_event
  let w :=
    if w.deleter then
      { w with callbacks := w.callbacks.release (w.streams[i]?.bind (·.list)) }
    else w
  w.update i fun s => { s with alive := false }

def imbue (i : Nat) (loc : L) : World B L C F :=
  (w.update i fun s => { s with loc := loc }).call_callbacks i .imbue_event

/-- `_CS_copyfmt(cpy)`. The stream may be copied to itself, so `cpy` is read again. -/
def copyfmt_base (i cpy : Nat) : Option (World B L C F) := do
  let c ← w.streams[cpy]?
  let w := w.update i fun s =>
    { s with fmtflags := c.fmtflags, precision := c.precision, m_width := c.m_width, loc := c.loc }
  let list := (← w.streams[cpy]?).list
  let w := { w with callbacks := w.callbacks.retain list }
  let w := { w with callbacks := w.callbacks.release (← w.streams[i]?).list }
  let w := w.update i fun s => { s with list := list }
  let w := w.update i fun s => { s with words := .empty }
  let items := (← w.streams[cpy]?).words.items
  pure (w.update i fun s => { s with words := s.words.assign_all items })

/-- `copyfmt(cpy)`, and whether it throws. -/
def copyfmt (i cpy : Nat) : Option (World B L C F × Bool) := do
  let w := w.call_callbacks i .erase_event
  let tie := (← w.streams[cpy]?).m_tie
  let w := w.update i fun s => { s with toIos := s.toIos.set_tie tie }
  let fill := (← w.streams[cpy]?).m_fill
  let w := w.update i fun s => { s with m_fill := fill }
  let w ← w.copyfmt_base i cpy
  let w := w.call_callbacks i .copyfmt_event
  let exceptions := (← w.streams[cpy]?).m_exceptions
  let (_, threw) := (← w.streams[i]?).toIos.set_exceptions exceptions
  pure (w.update i fun s => { s with toIos := (s.toIos.set_exceptions exceptions).1 }, threw)

end World

/-! ## The operations -/

/-- The operations on one stream that do not touch callbacks. -/
inductive Setting (B C : Type)
  | flags (f : Fmt)
  | setf (f : Fmt)
  | setf_field (f m : Fmt)
  | unsetf (m : Fmt)
  | precision (p : Int)
  | width (n : Int)
  | fill (c : C)
  | iword (index : Int) (x : Int)
  | pword (index : Int) (x : Nat)
  | tie (t : Option Nat)
  | exceptions (e : Iostate)
  | clear (state : Iostate)
  | setstate (state : Iostate)
  | rdbuf (sb : Option B)

variable {B L C F : Type}

def Setting.apply (s : Format B L C) : Setting B C → Format B L C
  | .flags f => { s with fmtflags := f }
  | .setf f => { s with toIos := s.toIos.setf f }
  | .setf_field f m => { s with toIos := s.toIos.setf_field f m }
  | .unsetf m => { s with toIos := s.toIos.unsetf m }
  | .precision p => { s with precision := p }
  | .width n => { s with m_width := n }
  | .fill c => { s with m_fill := c }
  | .iword index x => { s with words := s.words.modify index fun r => { r with iword := x } }
  | .pword index x => { s with words := s.words.modify index fun r => { r with pword := x } }
  | .tie t => { s with toIos := s.toIos.set_tie t }
  | .exceptions e => { s with toIos := (s.toIos.set_exceptions e).1 }
  | .clear state => { s with toIos := (s.toIos.clear state).1 }
  | .setstate state => { s with toIos := (s.toIos.setstate state).1 }
  | .rdbuf sb => { s with toIos := (s.toIos.set_rdbuf sb).1 }

inductive FormatOp (B L C F : Type)
  | construct (sb : Option B) (loc : L) (fill : C)
  | register_callback (i : Nat) (fn : F) (ud : Int)
  | copyfmt (i cpy : Nat)
  | destroy (i : Nat)
  | imbue (i : Nat) (loc : L)
  | set (i : Nat) (x : Setting B C)

/-- The streams an operation uses must exist. A `failure` that is thrown is caught. -/
def next (w : World B L C F) : FormatOp B L C F → Option (World B L C F)
  | .construct sb loc fill => some (w.construct sb loc fill)
  | .register_callback i fn ud => do let _ ← w.get i; some (w.register_callback i fn ud)
  | .copyfmt i cpy => do
    let _ ← w.get i
    let _ ← w.get cpy
    (w.copyfmt i cpy).map Prod.fst
  | .destroy i => do let _ ← w.get i; some (w.destroy i)
  | .imbue i loc => do let _ ← w.get i; some (w.imbue i loc)
  | .set i x => do let _ ← w.get i; some (w.update i x.apply)

def system (B L C F : Type) : System (World B L C F) (FormatOp B L C F) where
  init w := w = .start
  step w op w' := next w op = some w'

/-! ## The lists as values -/

/-- The callbacks of each stream that exists. -/
abbrev Values (F : Type) := List (Option (List (F × Int)))

def values_step (v : Values F) : FormatOp B L C F → Values F
  | .construct _ _ _ => v ++ [some []]
  | .register_callback i fn ud => v.set i (v[i]?.join.map ((fn, ud) :: ·))
  | .copyfmt i cpy => v.set i v[cpy]?.join
  | .destroy i => v.set i none
  | .imbue _ _ => v
  | .set _ _ => v

def values (tr : List (FormatOp B L C F)) : Values F := tr.foldl values_step []

/-! ## Consistent streams -/

def Format.head (s : Format B L C) : Option Nat := if s.alive then s.list else none

/-- How many streams refer to a callback. -/
def heads (w : World B L C F) (p : Nat) : Nat := w.streams.countP fun s => s.head = some p

/-- The callbacks are counted as often as something refers to them, and `leak p` times more. -/
structure Consistent (w : World B L C F) (v : Values F) (leak : Nat → Nat) : Prop where
  counted : Counted w.callbacks fun p => heads w p + leak p
  deleter : ∀ (i : Nat) (s : Format B L C) (p : Nat),
    w.streams[i]? = some s → s.head = some p → w.deleter = true
  length : v.length = w.streams.length
  lists : ∀ (i : Nat) (s : Format B L C), w.streams[i]? = some s → s.alive = true →
    ∃ l, Holds w.callbacks s.list l ∧ v[i]? = some (some l)

namespace IosBaseLemmas

variable {w : World B L C F} {v : Values F} {leak : Nat → Nat} {i j : Nat} {s s' : Format B L C}

theorem get_iff : w.get i = some s ↔ w.streams[i]? = some s ∧ s.alive = true := by
  unfold World.get
  rw [Option.filter_eq_some_iff]

theorem modify_eq_set {α : Type} {l : List α} {a : α} (h : l[i]? = some a) (f : α → α) :
    l.modify i f = l.set i (f a) := by
  refine List.ext_getElem? fun k => ?_
  have hlt := (List.getElem?_eq_some_iff.mp h).1
  rcases eq_or_ne i k with rfl | hne
  · rw [List.getElem?_modify_eq, h, List.getElem?_set_self hlt]
    rfl
  · rw [List.getElem?_modify_ne _ _ hne, List.getElem?_set_ne hne]

theorem update_eq (hs : w.streams[i]? = some s) (f : Format B L C → Format B L C) :
    w.update i f = { w with streams := w.streams.set i (f s) } := by
  rw [World.update, modify_eq_set hs]

theorem get_set_stream (hs : w.streams[i]? = some s) (s' : Format B L C) (k : Nat) :
    (w.streams.set i s')[k]? = if k = i then some s' else w.streams[k]? := by
  have hlt := (List.getElem?_eq_some_iff.mp hs).1
  rcases eq_or_ne k i with rfl | hne
  · rw [if_pos rfl, List.getElem?_set_self hlt]
  · rw [if_neg hne, List.getElem?_set_ne hne.symm]

theorem heads_set (hs : w.streams[i]? = some s) (s' : Format B L C) (callbacks : Store (F × Int))
    (deleter : Bool) (called : List (Event × Nat × F × Int)) (p : Nat) :
    heads ⟨w.streams.set i s', callbacks, deleter, called⟩ p + one s.head p =
      heads w p + one s'.head p := by
  obtain ⟨hlt, rfl⟩ := List.getElem?_eq_some_iff.mp hs
  have hle : one w.streams[i].head p ≤ heads w p := by
    unfold one
    split
    · next h =>
      exact List.countP_pos_iff.mpr ⟨_, List.getElem_mem hlt, decide_eq_true h⟩
    · exact Nat.zero_le _
  simp only [heads, one, List.countP_set hlt, decide_eq_true_eq] at hle ⊢
  omega

theorem heads_pos (hs : w.streams[i]? = some s) {p : Nat} (hp : s.head = some p) :
    0 < heads w p :=
  List.countP_pos_iff.mpr ⟨s, List.mem_of_getElem? hs, decide_eq_true hp⟩

/-- The list of a stream begins with a callback that exists. -/
theorem live_head (hc : Consistent w v leak) (hs : w.streams[i]? = some s) :
    ∀ p, s.head = some p → ∃ c, w.callbacks.cells[p]? = some c ∧ c.deletions = 0 :=
  fun _ hp => hc.counted.live (Nat.add_pos_left (heads_pos hs hp) _)

/-- One stream changes, and with it the callbacks, of which the other streams keep theirs. -/
theorem consistent_change (hc : Consistent w v leak) (hs : w.streams[i]? = some s)
    {callbacks : Store (F × Int)} {deleter : Bool} {called : List (Event × Nat × F × Int)}
    {leak' : Nat → Nat} {x : Option (List (F × Int))}
    (hcount : Counted callbacks fun p =>
      heads ⟨w.streams.set i s', callbacks, deleter, called⟩ p + leak' p)
    (hkept : Kept w.callbacks callbacks) (hdel : w.deleter = true → deleter = true)
    (hdel' : ∀ p, s'.head = some p → deleter = true)
    (hlist : s'.alive = true → ∃ l, Holds callbacks s'.list l ∧ x = some l) :
    Consistent ⟨w.streams.set i s', callbacks, deleter, called⟩ (v.set i x) leak' where
  counted := hcount
  deleter k t p ht hp := by
    rw [get_set_stream hs] at ht
    split at ht
    · cases ht
      exact hdel' p hp
    · exact hdel (hc.deleter k t p ht hp)
  length := by rw [List.length_set, List.length_set]; exact hc.length
  lists k t ht halive := by
    have hlt := (List.getElem?_eq_some_iff.mp hs).1
    rw [← hc.length] at hlt
    have ht' := ht
    rw [get_set_stream hs] at ht
    split at ht
    · next heq =>
      cases ht
      subst heq
      obtain ⟨l, hl, rfl⟩ := hlist halive
      exact ⟨l, hl, List.getElem?_set_self hlt⟩
    · next hne =>
      obtain ⟨l, hl, hv⟩ := hc.lists k t ht halive
      refine ⟨l, hl.keep hcount hkept fun p hp => ?_, by rw [List.getElem?_set_ne (Ne.symm hne), hv]⟩
      have hhead : t.head = some p := by rw [Format.head, if_pos halive, hp]
      have hpos : 0 < heads ⟨w.streams.set i s', callbacks, deleter, called⟩ p := heads_pos ht' hhead
      exact hcount.live (Nat.add_pos_left hpos _)

/-- A stream changes, but not its list. -/
theorem consistent_update (hc : Consistent w v leak) (hs : w.streams[i]? = some s)
    {f : Format B L C → Format B L C} (hlist : (f s).list = s.list)
    (halive : (f s).alive = s.alive) : Consistent (w.update i f) v leak := by
  have hhead : (f s).head = s.head := by rw [Format.head, Format.head, hlist, halive]
  have hlt : i < v.length := hc.length ▸ (List.getElem?_eq_some_iff.mp hs).1
  have hheads : ∀ p, heads ⟨w.streams.set i (f s), w.callbacks, w.deleter, w.called⟩ p = heads w p := by
    intro p
    have hp := heads_set hs (f s) w.callbacks w.deleter w.called p
    rw [hhead] at hp
    exact Nat.add_right_cancel hp
  rw [update_eq hs, ← List.set_getElem_self hlt]
  refine consistent_change hc hs ?_ (.refl _) id (fun p hp => hc.deleter i s p hs (hhead ▸ hp)) ?_
  · simp only [hheads]
    exact hc.counted
  · intro h
    obtain ⟨l, hl, hv⟩ := hc.lists i s hs (halive ▸ h)
    rw [List.getElem?_eq_getElem hlt, Option.some.injEq] at hv
    exact ⟨l, hlist ▸ hl, hv⟩

/-- The callbacks of a stream are called, and nothing changes. -/
theorem call_callbacks_eq (hc : Consistent w v leak) (hs : w.get i = some s) (e : Event) :
    ∃ called, w.call_callbacks i e = { w with called := called } := by
  obtain ⟨hs, halive⟩ := get_iff.mp hs
  obtain ⟨l, hl, -⟩ := hc.lists i s hs halive
  unfold World.call_callbacks
  split
  · rw [hs, Option.bind_some, hl.list_eq hc.counted]
    exact ⟨_, rfl⟩
  · exact ⟨_, rfl⟩

theorem consistent_called (hc : Consistent w v leak)
    (called : List (Event × Nat × F × Int)) : Consistent { w with called := called } v leak :=
  ⟨hc.counted, hc.deleter, hc.length, hc.lists⟩

/-- A new stream has no callbacks. -/
theorem consistent_construct (hc : Consistent w v leak) (sb : Option B) (loc : L) (fill : C) :
    Consistent (w.construct sb loc fill) (v ++ [some []]) leak := by
  have hheads : ∀ p, heads (w.construct sb loc fill) p = heads w p := by
    intro p
    show List.countP _ (w.streams ++ [_]) = _
    rw [List.countP_append, List.countP_singleton]
    exact Nat.add_zero _
  have hget : ∀ k t, (w.construct sb loc fill).streams[k]? = some t →
      w.streams[k]? = some t ∨ k = w.streams.length ∧ t.list = none := by
    intro k t ht
    rcases Nat.lt_or_ge k w.streams.length with hlt | hge
    · exact .inl ((List.getElem?_append_left hlt).symm.trans ht)
    · change (w.streams ++ [_])[k]? = some t at ht
      rw [List.getElem?_append_right hge, List.getElem?_singleton] at ht
      split at ht
      · next h =>
        cases ht
        exact .inr ⟨by omega, rfl⟩
      · cases ht
  refine ⟨?_, fun k t p ht hp => ?_, ?_, fun k t ht halive => ?_⟩
  · simp only [hheads]
    exact hc.counted
  · rcases hget k t ht with ht | ⟨-, hnone⟩
    · exact hc.deleter k t p ht hp
    · rw [Format.head, hnone, ite_self] at hp
      cases hp
  · show (v ++ [some []]).length = (w.streams ++ [_]).length
    rw [List.length_append, List.length_append, hc.length]
    rfl
  · rcases hget k t ht with ht | ⟨rfl, hnone⟩
    · obtain ⟨l, hl, hv⟩ := hc.lists k t ht halive
      exact ⟨l, hl, (List.getElem?_append_left (List.getElem?_eq_some_iff.mp hv).1).trans hv⟩
    · refine ⟨[], hnone ▸ .nil, ?_⟩
      rw [← hc.length, List.getElem?_append_right (Nat.le_refl _), Nat.sub_self]
      rfl

/-- The reference of the stream to its old list is not given up. -/
theorem consistent_register (hc : Consistent w v leak) (hs : w.get i = some s) (fn : F) (ud : Int) :
    Consistent (w.register_callback i fn ud)
      (v.set i (v[i]?.join.map ((fn, ud) :: ·))) fun p => leak p + one s.list p := by
  obtain ⟨hs, halive⟩ := get_iff.mp hs
  have hhead : s.head = s.list := if_pos halive
  obtain ⟨l, hl, hv⟩ := hc.lists i s hs halive
  obtain ⟨hcount, hkept, hcell⟩ := hc.counted.push (fn, ud) (hhead ▸ live_head hc hs)
  unfold World.register_callback
  rw [hs, Option.bind_some]
  dsimp only [World.update]
  rw [modify_eq_set hs]
  refine consistent_change hc hs ?_ hkept (fun _ => rfl) (fun _ _ => rfl) fun _ => ?_
  · refine hcount.congr fun p => ?_
    have hp := heads_set hs { s with list := some (w.callbacks.push (fn, ud) s.list).2 }
      (w.callbacks.push (fn, ud) s.list).1 true w.called p
    have hnew : Format.head { s with list := some (w.callbacks.push (fn, ud) s.list).2 } =
        some (w.callbacks.push (fn, ud) s.list).2 := if_pos halive
    rw [hhead, hnew] at hp
    omega
  · refine ⟨(fn, ud) :: l, ?_, by rw [hv]; rfl⟩
    have hold : Holds (w.callbacks.push (fn, ud) s.list).1 s.list l :=
      hl.keep hcount hkept fun p hp => hcount.live_next hcell rfl hp
    exact .cons hcell rfl hold

/-- With the stream, its reference to a callback goes. -/
theorem consistent_destroy (hc : Consistent w v leak) (hs : w.get i = some s) :
    Consistent (w.destroy i) (v.set i none) leak := by
  obtain ⟨called, hcalled⟩ := call_callbacks_eq hc hs .erase_event
  obtain ⟨hs, halive⟩ := get_iff.mp hs
  have hhead : s.head = s.list := if_pos halive
  have hdead : Format.head { s with alive := false } = none := if_neg Bool.false_ne_true
  have hheads : ∀ (callbacks : Store (F × Int)) p,
      heads ⟨w.streams.set i { s with alive := false }, callbacks, w.deleter, called⟩ p +
        one s.list p = heads w p := by
    intro callbacks p
    have hp := heads_set hs { s with alive := false } callbacks w.deleter called p
    rwa [hhead, hdead] at hp
  unfold World.destroy
  rw [hcalled]
  dsimp only [World.update]
  split
  · next hdel =>
    rw [hs, Option.bind_some, modify_eq_set hs]
    have hcount : Counted w.callbacks fun p =>
        (heads ⟨w.streams.set i { s with alive := false }, w.callbacks, w.deleter, called⟩ p +
          leak p) + one s.list p :=
      hc.counted.congr fun p => by
        have hp := hheads w.callbacks p
        omega
    obtain ⟨hcount, hkept⟩ := hcount.release
    exact consistent_change hc hs hcount hkept id (fun p hp => hdel) fun h => nomatch h
  · next hdel =>
    have hnone : s.list = none := by
      cases hlist : s.list with
      | none => rfl
      | some p => exact absurd (hc.deleter i s p hs (hhead.trans hlist)) hdel
    rw [modify_eq_set hs]
    refine consistent_change hc hs (hc.counted.congr fun p => ?_) (.refl _) id
      (fun p hp => by rw [hdead] at hp; cases hp) fun h => nomatch h
    have hp := hheads w.callbacks p
    have hone : one s.list p = 0 := by rw [hnone]; rfl
    rw [hone] at hp
    exact congrArg (· + leak p) hp

/-- A stream takes over the list of another one, or its own. -/
theorem consistent_share (hc : Consistent w v leak) {cpy : Nat} {c : Format B L C}
    (hs : w.get i = some s) (hcpy : w.get cpy = some c) :
    Consistent (({ w with callbacks := (w.callbacks.retain c.list).release s.list }).update i
      fun s => { s with list := c.list }) (v.set i v[cpy]?.join) leak := by
  obtain ⟨hs, halive⟩ := get_iff.mp hs
  obtain ⟨hcpy, halive'⟩ := get_iff.mp hcpy
  have hhead : s.head = s.list := if_pos halive
  have hnew : Format.head { s with list := c.list } = c.list := if_pos halive
  obtain ⟨l, hl, hv⟩ := hc.lists cpy c hcpy halive'
  have hhead' : c.head = c.list := if_pos halive'
  obtain ⟨hretain, hkept⟩ := hc.counted.retain (hhead' ▸ live_head hc hcpy)
  dsimp only [World.update]
  rw [modify_eq_set hs]
  have hheads := heads_set hs { s with list := c.list }
    ((w.callbacks.retain c.list).release s.list) w.deleter w.called
  rw [hhead, hnew] at hheads
  have hcount : Counted (w.callbacks.retain c.list) fun p =>
      (heads ⟨w.streams.set i { s with list := c.list },
        (w.callbacks.retain c.list).release s.list, w.deleter, w.called⟩ p + leak p) +
          one s.list p :=
    hretain.congr fun p => by
      have hp := hheads p
      omega
  obtain ⟨hcount, hkept'⟩ := hcount.release
  refine consistent_change hc hs hcount (hkept.trans hkept') id (fun p hp => ?_) fun _ => ⟨l, ?_, ?_⟩
  · exact hc.deleter cpy c p hcpy (hhead'.trans (hnew.symm.trans hp))
  · refine hl.keep hcount (hkept.trans hkept') fun p hp => hcount.live ?_
    have hset := get_set_stream hs { s with list := c.list } i
    rw [if_pos rfl] at hset
    have hpos := heads_pos (w := ⟨w.streams.set i { s with list := c.list },
      (w.callbacks.retain c.list).release s.list, w.deleter, w.called⟩) hset (hnew.trans hp)
    omega
  · rw [hv]
    rfl

/-! ### `copyfmt` -/

/-- The stream `i` is `x`. -/
def with_stream (w : World B L C F) (i : Nat) (x : Format B L C) (callbacks : Store (F × Int))
    (called : List (Event × Nat × F × Int)) : World B L C F :=
  ⟨w.streams.set i x, callbacks, w.deleter, called⟩

section

variable {x : Format B L C} {callbacks : Store (F × Int)}
  {called : List (Event × Nat × F × Int)}

theorem with_stream_self (hs : w.streams[i]? = some s) :
    with_stream w i s w.callbacks called = { w with called := called } := by
  obtain ⟨hlt, rfl⟩ := List.getElem?_eq_some_iff.mp hs
  rw [with_stream, List.set_getElem_self]

theorem with_stream_get (hs : w.streams[i]? = some s) :
    (with_stream w i x callbacks called).streams[i]? = some x :=
  List.getElem?_set_self (List.getElem?_eq_some_iff.mp hs).1

theorem with_stream_ne {cpy : Nat} {c : Format B L C} (hcpy : w.streams[cpy]? = some c)
    (hne : cpy ≠ i) : (with_stream w i x callbacks called).streams[cpy]? = some c :=
  (List.getElem?_set_ne (Ne.symm hne)).trans hcpy

theorem with_stream_update (hs : w.streams[i]? = some s) (f : Format B L C → Format B L C) :
    (with_stream w i x callbacks called).update i f =
      with_stream w i (f x) callbacks called := by
  rw [update_eq (with_stream_get hs)]
  simp only [with_stream, List.set_set]

theorem with_stream_callbacks (callbacks' : Store (F × Int)) :
    { with_stream w i x callbacks called with callbacks := callbacks' } =
      with_stream w i x callbacks' called :=
  rfl

end

/-- Only the flags change with a tie. -/
theorem set_tie_fields (x : Ios Nat B) (t : Option Nat) :
    (x.set_tie t).m_sbuf = x.m_sbuf ∧ (x.set_tie t).m_state = x.m_state ∧
      (x.set_tie t).m_exceptions = x.m_exceptions ∧ (x.set_tie t).m_tie = t := by
  cases t <;> exact ⟨rfl, rfl, rfl, rfl⟩

/-- The flags as they are copied. A stream that is copied to itself has set the bit for its tie
before. -/
def copied_flags (self : Bool) (s c : Format B L C) : Fmt :=
  if self then (s.toIos.set_tie c.m_tie).fmtflags else c.fmtflags

/-- The stream `s` as a copy of `c`, before the exceptions. -/
def copied_format (self : Bool) (s c : Format B L C) : Format B L C :=
  { toIos := { s.toIos with m_tie := c.m_tie, fmtflags := copied_flags self s c }
    precision := c.precision
    m_width := c.m_width
    loc := c.loc
    list := c.list
    words := WordMap.empty.assign_all (if self then [] else c.words.items)
    m_fill := c.m_fill
    alive := s.alive }

theorem consistent_copied (hc : Consistent w v leak) {cpy : Nat} {c x : Format B L C}
    (hs : w.get i = some s) (hcpy : w.get cpy = some c) (hlist : x.list = c.list)
    (halive : x.alive = true) (called : List (Event × Nat × F × Int)) :
    Consistent (with_stream w i x ((w.callbacks.retain c.list).release s.list) called)
      (v.set i v[cpy]?.join) leak := by
  have hshare := consistent_share hc hs hcpy
  obtain ⟨hs, ha⟩ := get_iff.mp hs
  dsimp only [World.update] at hshare
  rw [modify_eq_set hs] at hshare
  have hget := get_set_stream hs { s with list := c.list } i
  rw [if_pos rfl] at hget
  have hupdate := consistent_update hshare hget (f := fun _ => x) hlist (halive.trans ha.symm)
  rw [update_eq hget] at hupdate
  dsimp only at hupdate
  rw [List.set_set] at hupdate
  exact consistent_called hupdate called

/-- Between the two rounds of calls. -/
theorem copyfmt_base_spec {cpy : Nat} {c : Format B L C} (hs : w.streams[i]? = some s)
    (hcpy : w.streams[cpy]? = some c) (called : List (Event × Nat × F × Int)) :
    (with_stream w i { s with toIos := s.toIos.set_tie c.m_tie, m_fill := c.m_fill }
        w.callbacks called).copyfmt_base i cpy =
      some (with_stream w i (copied_format (cpy = i) s c)
        ((w.callbacks.retain c.list).release s.list) called) := by
  obtain ⟨hsbuf, hstate, hexc, htie⟩ := set_tie_fields s.toIos c.m_tie
  unfold World.copyfmt_base
  by_cases hself : cpy = i
  · subst hself
    rw [hs, Option.some.injEq] at hcpy
    subst hcpy
    simp only [with_stream_get hs, with_stream_update hs, with_stream_callbacks, hsbuf, hstate,
      hexc, htie, Option.bind_eq_bind, Option.bind_some, Option.pure_def, copied_format,
      copied_flags, decide_true, if_true]
    rfl
  · simp only [with_stream_ne hcpy hself, with_stream_get hs, with_stream_update hs,
      with_stream_callbacks, hsbuf, hstate, hexc, htie, Option.bind_eq_bind, Option.bind_some,
      Option.pure_def, copied_format, copied_flags, hself, decide_false, Bool.false_eq_true,
      if_false]
    rfl

/-- What is written in front of the first part of `copyfmt` and behind it. -/
theorem copyfmt_eq {cpy : Nat} {c : Format B L C} (hs : w.streams[i]? = some s)
    (hcpy : w.streams[cpy]? = some c) {called called' : List (Event × Nat × F × Int)}
    (hcalled : w.call_callbacks i .erase_event = { w with called := called })
    (hcalled' : (with_stream w i (copied_format (cpy = i) s c)
      ((w.callbacks.retain c.list).release s.list) called).call_callbacks i .copyfmt_event =
        with_stream w i (copied_format (cpy = i) s c)
          ((w.callbacks.retain c.list).release s.list) called') :
    w.copyfmt i cpy = some
      (with_stream w i
        { copied_format (cpy = i) s c with
          toIos := ((copied_format (cpy = i) s c).toIos.set_exceptions c.m_exceptions).1 }
        ((w.callbacks.retain c.list).release s.list) called',
      ((copied_format (cpy = i) s c).toIos.set_exceptions c.m_exceptions).2) := by
  have hbase := copyfmt_base_spec hs hcpy called
  have hsame : with_stream w i s w.callbacks called = { w with called := called } :=
    with_stream_self hs
  unfold World.copyfmt
  rw [hcalled, ← hsame]
  by_cases hself : cpy = i
  · subst hself
    rw [hs, Option.some.injEq] at hcpy
    subst hcpy
    simp only [with_stream_get hs, with_stream_update hs, Option.bind_eq_bind, Option.bind_some]
    rw [hbase, Option.bind_some, hcalled', with_stream_get hs, Option.bind_some, Option.bind_some,
      with_stream_update hs]
    simp only [decide_true]
    rfl
  · simp only [with_stream_ne hcpy hself, with_stream_update hs, Option.bind_eq_bind,
      Option.bind_some]
    rw [hbase]
    simp only [Option.bind_some, hcalled', with_stream_ne hcpy hself, with_stream_get hs,
      with_stream_update hs, Option.pure_def]

theorem copyfmt_spec (hc : Consistent w v leak) {cpy : Nat} {c : Format B L C}
    (hs : w.get i = some s) (hcpy : w.get cpy = some c) :
    ∃ called,
      w.copyfmt i cpy = some
        (with_stream w i
          { copied_format (cpy = i) s c with
            toIos := ((copied_format (cpy = i) s c).toIos.set_exceptions c.m_exceptions).1 }
          ((w.callbacks.retain c.list).release s.list) called,
        ((copied_format (cpy = i) s c).toIos.set_exceptions c.m_exceptions).2) := by
  obtain ⟨called, hcalled⟩ := call_callbacks_eq hc hs .erase_event
  obtain ⟨hs', ha⟩ := get_iff.mp hs
  have hcopied := consistent_copied hc hs hcpy (x := copied_format (cpy = i) s c) rfl ha called
  have hget : (with_stream w i (copied_format (cpy = i) s c)
      ((w.callbacks.retain c.list).release s.list) called).get i =
      some (copied_format (cpy = i) s c) := get_iff.mpr ⟨with_stream_get hs', ha⟩
  obtain ⟨called', hcalled'⟩ := call_callbacks_eq hcopied hget .copyfmt_event
  exact ⟨called', copyfmt_eq hs' (get_iff.mp hcpy).1 hcalled hcalled'⟩

/-! ### Steps -/

theorem Setting.apply_list (x : Setting B C) (s : Format B L C) :
    (x.apply s).list = s.list ∧ (x.apply s).alive = s.alive := by
  cases x <;> exact ⟨rfl, rfl⟩

end IosBaseLemmas

open IosBaseLemmas

/-- The callback that an operation leaves with one reference too many. -/
def leaked (w : World B L C F) : FormatOp B L C F → Nat → Nat
  | .register_callback i _ _, p => one ((w.get i).bind (·.list)) p
  | _, _ => 0

/-- What an operation does to the callbacks. -/
theorem consistent_next {w w' : World B L C F} {v : Values F} {leak : Nat → Nat}
    {op : FormatOp B L C F} (hc : Consistent w v leak) (h : next w op = some w') :
    Consistent w' (values_step v op) fun p => leak p + leaked w op p := by
  cases op with
  | construct sb loc fill =>
    cases h
    exact consistent_construct hc sb loc fill
  | register_callback i fn ud =>
    obtain ⟨s, hs, h⟩ := Option.bind_eq_some_iff.mp h
    cases h
    have hleak : leaked w (.register_callback i fn ud) = one s.list := by
      funext p
      rw [leaked, hs]
      rfl
    rw [hleak]
    exact consistent_register hc hs fn ud
  | copyfmt i cpy =>
    obtain ⟨s, hs, h⟩ := Option.bind_eq_some_iff.mp h
    obtain ⟨c, hcpy, h⟩ := Option.bind_eq_some_iff.mp h
    obtain ⟨called, hcopy⟩ := copyfmt_spec hc hs hcpy
    rw [hcopy] at h
    cases h
    exact consistent_copied hc hs hcpy (x := { copied_format (cpy = i) s c with
      toIos := ((copied_format (cpy = i) s c).toIos.set_exceptions c.m_exceptions).1 })
      rfl (get_iff.mp hs).2 called
  | destroy i =>
    obtain ⟨s, hs, h⟩ := Option.bind_eq_some_iff.mp h
    cases h
    exact consistent_destroy hc hs
  | imbue i loc =>
    obtain ⟨s, hs, h⟩ := Option.bind_eq_some_iff.mp h
    cases h
    obtain ⟨hs', ha⟩ := get_iff.mp hs
    have hloc := consistent_update hc hs' (f := fun s => { s with loc := loc }) rfl rfl
    have hget : (w.update i fun s => { s with loc := loc }).get i = some { s with loc := loc } := by
      refine get_iff.mpr ⟨?_, ha⟩
      rw [update_eq hs', get_set_stream hs', if_pos rfl]
    obtain ⟨called, hcalled⟩ := call_callbacks_eq hloc hget .imbue_event
    show Consistent ((w.update i fun s => { s with loc := loc }).call_callbacks i .imbue_event) v _
    rw [hcalled]
    exact consistent_called hloc called
  | set i x =>
    obtain ⟨s, hs, h⟩ := Option.bind_eq_some_iff.mp h
    cases h
    obtain ⟨hlist, ha⟩ := Setting.apply_list x s
    exact consistent_update hc (get_iff.mp hs).1 hlist ha

theorem consistent_start : Consistent (World.start : World B L C F) [] fun _ => 0 where
  counted := ⟨rfl, fun p c q h => by simp [World.start] at h, fun p c h => by simp [World.start] at h,
    fun p h => by simp [heads, World.start] at h⟩
  deleter i s p h := by simp [World.start] at h
  length := rfl
  lists i s h := by simp [World.start] at h

/-- The callbacks of every run. -/
theorem run_consistent {w : World B L C F} {tr : List (FormatOp B L C F)}
    (h : Run (system B L C F) .start tr w) : ∃ leak, Consistent w (values tr) leak := by
  refine h.invariant (I := fun tr w => ∃ leak, Consistent w (values tr) leak)
    ⟨_, consistent_start⟩ ?_
  rintro tr w op w' ⟨leak, hc⟩ hnext
  refine ⟨fun p => leak p + leaked w op p, ?_⟩
  rw [values, List.foldl_append]
  exact consistent_next hc hnext

end Kuhllib.Cxxrt.IosBase
