import Mathlib.Data.List.Basic

/-!
# Lists with shared tails and reference counts

A cell holds a value and the number of the next cell. Its count is to be the number of
references to it: those of other cells, and those from outside. The last reference that is
given up deletes the cell, and gives up its reference to the next one.

* `Counted s refs`: all counts are right when `refs p` references to `p` come from outside.
* `Counted.retain`, `Counted.release`, `Counted.push`: how the operations change `refs`.
* `Holds s head l`: the cells from `head` on hold `l`. `Holds.keep`: they still do later, as
  long as `head` is not deleted.
-/

namespace SharedLists

variable {α : Type}

structure Cell (α : Type) where
  value : α
  refcount : Int
  next : Option Nat
  deletions : Nat
  deriving DecidableEq

def Cell.counted (c : Cell α) (n : Int) : Cell α := { c with refcount := n }

def Cell.deleted (c : Cell α) : Cell α := { c with refcount := 0, deletions := 1 }

/-- The cells there have been, and whether one has been used that does not exist any more. -/
structure Store (α : Type) where
  cells : List (Cell α)
  undefined : Bool
  deriving DecidableEq

namespace Store

variable (s : Store α)

def fail : Store α := { s with undefined := true }

def modify (p : Nat) (f : Cell α → Cell α) : Store α :=
  match s.cells[p]? with
  | none => s.fail
  | some c => if c.deletions = 0 then { s with cells := s.cells.set p (f c) } else s.fail

/-- `if (p != 0) ++p->refcount;` -/
def retain : Option Nat → Store α
  | none => s
  | some p => s.modify p fun c => c.counted (c.refcount + 1)

/-- `if (p != 0 && --p->refcount == 0) delete p;`, where the destructor does the same with
`p->next`. -/
def release_all : Nat → Store α → Option Nat → Store α
  | _, s, none => s
  | 0, s, some _ => s.fail
  | n + 1, s, some p =>
    let s := s.modify p fun c => c.counted (c.refcount - 1)
    match s.cells[p]? with
    | none => s
    | some c =>
      if c.refcount = 0 then
        release_all n (s.modify p fun c => { c with deletions := c.deletions + 1 }) c.next
      else s

def release (p : Option Nat) : Store α := release_all s.cells.length s p

/-- `new`, with one more reference to `next`. -/
def push (value : α) (next : Option Nat) : Store α × Nat :=
  let s := s.retain next
  ({ s with cells := s.cells ++ [⟨value, 1, next, 0⟩] }, s.cells.length)

/-- The values from a cell on. What has been deleted cannot be read. -/
def contents : Nat → Option Nat → Option (List α)
  | _, none => some []
  | 0, some _ => none
  | n + 1, some p => do
    let c ← s.cells[p]?
    if c.deletions = 0 then (c.value :: ·) <$> contents n c.next else none

def list (p : Option Nat) : Option (List α) := s.contents s.cells.length p

/-- How many cells refer to `p`. -/
def links (p : Nat) : Nat := s.cells.countP fun c => c.deletions = 0 ∧ c.next = some p

end Store

/-- The number of references to `p` in a single pointer. -/
def one (h : Option Nat) (p : Nat) : Nat := if h = some p then 1 else 0

/-- A count is the number of references, and a cell is deleted, once, with the last one. -/
structure Counted (s : Store α) (refs : Nat → Nat) : Prop where
  sound : s.undefined = false
  older : ∀ (p : Nat) (c : Cell α) (q : Nat), s.cells[p]? = some c → c.next = some q → q < p
  exact : ∀ (p : Nat) (c : Cell α), s.cells[p]? = some c →
    c.refcount = refs p + s.links p ∧ c.deletions = if refs p + s.links p = 0 then 1 else 0
  bound : ∀ p, 0 < refs p → p < s.cells.length

/-- The cells from `head` on hold these values. -/
inductive Holds (s : Store α) : Option Nat → List α → Prop
  | nil : Holds s none []
  | cons {p : Nat} {c : Cell α} {l : List α} :
      s.cells[p]? = some c → c.deletions = 0 → Holds s c.next l → Holds s (some p) (c.value :: l)

/-! ## Cells that are referred to -/

variable {s s' : Store α} {refs : Nat → Nat} {p q : Nat} {c : Cell α} {h : Option Nat}
  {l : List α}

theorem Counted.congr {refs' : Nat → Nat} (hc : Counted s refs) (h : ∀ p, refs' p = refs p) :
    Counted s refs' := by
  rwa [funext h]

theorem Counted.live (hc : Counted s refs) (hp : 0 < refs p) :
    ∃ c, s.cells[p]? = some c ∧ c.deletions = 0 := by
  have hlt := hc.bound p hp
  have hget := List.getElem?_eq_getElem hlt
  refine ⟨_, hget, ?_⟩
  rw [(hc.exact p _ hget).2, if_neg (by omega)]

theorem links_pos (hget : s.cells[p]? = some c) (hlive : c.deletions = 0)
    (hnext : c.next = some q) : 0 < s.links q :=
  List.countP_pos_iff.mpr
    ⟨c, List.mem_of_getElem? hget, decide_eq_true ⟨hlive, hnext⟩⟩

theorem Counted.live_next (hc : Counted s refs) (hget : s.cells[p]? = some c)
    (hlive : c.deletions = 0) (hnext : c.next = some q) :
    ∃ d, s.cells[q]? = some d ∧ d.deletions = 0 := by
  have hlt := (List.getElem?_eq_some_iff.mp hget).1
  have hq : q < s.cells.length := Nat.lt_trans (hc.older p c q hget hnext) hlt
  have hgetq := List.getElem?_eq_getElem hq
  have hpos := links_pos hget hlive hnext
  refine ⟨_, hgetq, ?_⟩
  rw [(hc.exact q _ hgetq).2, if_neg (by omega)]

theorem Holds.length_le (hl : Holds s h l) (hc : Counted s refs) {n : Nat}
    (hn : ∀ p, h = some p → p < n) : l.length ≤ n := by
  induction hl generalizing n with
  | nil => exact Nat.zero_le n
  | @cons p c l hget _ _ ih =>
    have hp := hn p rfl
    have hle := ih fun q hq => hc.older p c q hget hq
    rw [List.length_cons]
    omega

theorem Holds.contents (hl : Holds s h l) {n : Nat} (hn : l.length ≤ n) :
    s.contents n h = some l := by
  induction hl generalizing n with
  | nil => exact Store.contents.eq_1 s n
  | @cons p c l hget hlive _ ih =>
    cases n with
    | zero => cases hn
    | succ n =>
      rw [List.length_cons] at hn
      simp only [Store.contents, hget, Option.bind_eq_bind, Option.bind_some, hlive, if_true,
        ih (Nat.le_of_succ_le_succ hn), Option.map_eq_map, Option.map_some]

theorem Holds.list_eq (hl : Holds s h l) (hc : Counted s refs) : s.list h = some l := by
  refine hl.contents (hl.length_le hc fun p hp => ?_)
  subst hp
  cases hl with
  | cons hget _ _ => exact (List.getElem?_eq_some_iff.mp hget).1

/-- Cells stay with their value and their next cell. -/
def Kept (s s' : Store α) : Prop :=
  ∀ (p : Nat) (c : Cell α), s.cells[p]? = some c →
    ∃ c', s'.cells[p]? = some c' ∧ c'.value = c.value ∧ c'.next = c.next

theorem Kept.refl (s : Store α) : Kept s s := fun _ c h => ⟨c, h, rfl, rfl⟩

theorem Kept.trans {s'' : Store α} (h : Kept s s') (h' : Kept s' s'') : Kept s s'' := by
  intro p c hget
  obtain ⟨c', hget', hv, hn⟩ := h p c hget
  obtain ⟨c'', hget'', hv', hn'⟩ := h' p c' hget'
  exact ⟨c'', hget'', hv'.trans hv, hn'.trans hn⟩

/-- A list is kept as long as its first cell is. -/
theorem Holds.keep (hl : Holds s h l) (hc : Counted s' refs) (hk : Kept s s')
    (hh : ∀ p, h = some p → ∃ c, s'.cells[p]? = some c ∧ c.deletions = 0) : Holds s' h l := by
  induction hl with
  | nil => exact .nil
  | @cons p c l hget _ _ ih =>
    obtain ⟨c', hget', hv, hn⟩ := hk p c hget
    obtain ⟨d, hd, hdl⟩ := hh p rfl
    rw [hget', Option.some.injEq] at hd
    subst hd
    have hrest := ih fun q hq => hc.live_next hget' hdl (hn.trans hq)
    rw [← hv]
    exact .cons hget' hdl (hn ▸ hrest)

/-! ## The operations -/

theorem one_self (p : Nat) : one (some p) p = 1 := if_pos rfl

theorem one_ne {p q : Nat} (h : q ≠ p) : one (some p) q = 0 :=
  if_neg fun he => h (Option.some.inj he).symm

theorem modify_eq (f : Cell α → Cell α) (hget : s.cells[p]? = some c) (hlive : c.deletions = 0) :
    s.modify p f = { s with cells := s.cells.set p (f c) } := by
  unfold Store.modify
  rw [hget]
  exact if_pos hlive

theorem get_set (hget : s.cells[p]? = some c) (c' : Cell α) (q : Nat) :
    (s.cells.set p c')[q]? = if q = p then some c' else s.cells[q]? := by
  have hlt := (List.getElem?_eq_some_iff.mp hget).1
  by_cases hq : q = p
  · rw [if_pos hq, hq, List.getElem?_set_self hlt]
  · rw [if_neg hq, List.getElem?_set_ne (Ne.symm hq)]

theorem kept_set (hget : s.cells[p]? = some c) (c' : Cell α) (hv : c'.value = c.value)
    (hn : c'.next = c.next) (u : Bool) : Kept s ⟨s.cells.set p c', u⟩ := by
  intro q d hd
  rw [get_set hget]
  by_cases hq : q = p
  · subst hq
    rw [hget, Option.some.injEq] at hd
    subst hd
    exact ⟨c', if_pos rfl, hv, hn⟩
  · exact ⟨d, (if_neg hq).trans hd, rfl, rfl⟩

theorem links_set (hget : s.cells[p]? = some c) (c' : Cell α) (u : Bool) (q : Nat) :
    (⟨s.cells.set p c', u⟩ : Store α).links q + (if c.deletions = 0 then one c.next q else 0) =
      s.links q + if c'.deletions = 0 then one c'.next q else 0 := by
  obtain ⟨hlt, rfl⟩ := List.getElem?_eq_some_iff.mp hget
  have hle : (if decide (s.cells[p].deletions = 0 ∧ s.cells[p].next = some q) = true then 1 else 0)
      ≤ s.links q := by
    split
    · next h => exact List.countP_pos_iff.mpr ⟨_, List.getElem_mem hlt, h⟩
    · exact Nat.zero_le _
  simp only [Store.links, one, List.countP_set hlt, decide_eq_true_eq, ← ite_and] at hle ⊢
  omega

/-- The count of a cell that stays follows its references. -/
theorem Counted.recount {refs' : Nat → Nat} (hc : Counted s refs) (hget : s.cells[p]? = some c)
    (hlive : c.deletions = 0) (hother : ∀ q, q ≠ p → refs' q = refs q)
    (hpos : 0 < refs' p + s.links p) :
    Counted ⟨s.cells.set p (c.counted (refs' p + s.links p : Nat)), s.undefined⟩
      refs' := by
  have hlt := (List.getElem?_eq_some_iff.mp hget).1
  have hlinks : ∀ q, (⟨s.cells.set p (c.counted (refs' p + s.links p : Nat)),
      s.undefined⟩ : Store α).links q = s.links q :=
    fun q => Nat.add_right_cancel (links_set hget _ _ q)
  refine ⟨hc.sound, fun q d r hd hr => ?_, fun q d hd => ?_, fun q hq => ?_⟩
  · rw [get_set hget] at hd
    split at hd
    · next heq =>
      cases hd
      exact heq ▸ hc.older p c r hget hr
    · exact hc.older q d r hd hr
  · rw [get_set hget] at hd
    rw [hlinks]
    split at hd
    · next heq =>
      cases hd
      subst heq
      exact ⟨rfl, (hlive.trans (if_neg (Nat.ne_of_gt hpos)).symm :)⟩
    · next hne =>
      rw [hother q hne]
      exact hc.exact q d hd
  · show q < (s.cells.set p _).length
    rw [List.length_set]
    by_cases heq : q = p
    · exact heq ▸ hlt
    · exact hc.bound q (hother q heq ▸ hq)

/-- A cell without references is deleted, and its reference to the next one is left. -/
theorem Counted.delete {refs' : Nat → Nat} (hc : Counted s refs) (hget : s.cells[p]? = some c)
    (hlive : c.deletions = 0) (hother : ∀ q, q ≠ p → refs' q = refs q + one c.next q)
    (hzero : refs' p + s.links p = 0) :
    Counted ⟨s.cells.set p c.deleted, s.undefined⟩ refs' := by
  have hlt := (List.getElem?_eq_some_iff.mp hget).1
  have hlinks : ∀ q, (⟨s.cells.set p c.deleted,
      s.undefined⟩ : Store α).links q + one c.next q = s.links q := by
    intro q
    have hq := links_set hget c.deleted s.undefined q
    simpa only [Cell.deleted, hlive, if_true, Nat.one_ne_zero, if_false, Nat.add_zero] using hq
  refine ⟨hc.sound, fun q d r hd hr => ?_, fun q d hd => ?_, fun q hq => ?_⟩
  · rw [get_set hget] at hd
    split at hd
    · next heq =>
      cases hd
      exact heq ▸ hc.older p c r hget hr
    · exact hc.older q d r hd hr
  · rw [get_set hget] at hd
    have hq := hlinks q
    split at hd
    · next heq =>
      cases hd
      subst heq
      have hsum : refs' q + (⟨s.cells.set q c.deleted,
          s.undefined⟩ : Store α).links q = 0 := by omega
      rw [if_pos hsum]
      exact ⟨by show (0 : Int) = _; omega, rfl⟩
    · next hne =>
      have hsum : refs' q + (⟨s.cells.set p c.deleted,
          s.undefined⟩ : Store α).links q = refs q + s.links q := by
        rw [hother q hne]
        omega
      obtain ⟨hcount, hdel⟩ := hc.exact q d hd
      rw [hsum]
      exact ⟨by omega, hdel⟩
  · show q < (s.cells.set p _).length
    rw [List.length_set]
    by_cases heq : q = p
    · exact heq ▸ hlt
    · by_cases hnext : c.next = some q
      · exact Nat.lt_trans (hc.older p c q hget hnext) hlt
      · have hq' := hother q heq
        rw [one, if_neg hnext] at hq'
        exact hc.bound q (by omega)

/-- A reference from outside is added to a cell that exists. -/
theorem Counted.retain (hc : Counted s refs)
    (hh : ∀ p, h = some p → ∃ c, s.cells[p]? = some c ∧ c.deletions = 0) :
    Counted (s.retain h) (fun q => refs q + one h q) ∧ Kept s (s.retain h) := by
  cases h with
  | none => exact ⟨hc, .refl s⟩
  | some p =>
    obtain ⟨c, hget, hlive⟩ := hh p rfl
    have hcount := (hc.exact p c hget).1
    have hone := one_self p
    rw [Store.retain, modify_eq _ hget hlive]
    have hnew : c.refcount + 1 = ((refs p + one (some p) p) + s.links p : Nat) := by omega
    rw [hnew]
    have hrecount : Counted _ fun q => refs q + one (some p) q :=
      hc.recount hget hlive (fun q hq => by rw [one_ne hq, Nat.add_zero]) (by omega)
    exact ⟨hrecount, kept_set hget (c.counted (refs p + one (some p) p + s.links p : Nat)) rfl rfl _⟩

theorem release_all_some (n : Nat) (hget : s.cells[p]? = some c) (hlive : c.deletions = 0) :
    Store.release_all (n + 1) s (some p) =
      if c.refcount - 1 = 0 then
        Store.release_all n ⟨s.cells.set p c.deleted, s.undefined⟩ c.next
      else ⟨s.cells.set p (c.counted (c.refcount - 1)), s.undefined⟩ := by
  have hget' : (s.cells.set p (c.counted (c.refcount - 1)))[p]? =
      some (c.counted (c.refcount - 1)) := (get_set hget _ p).trans (if_pos rfl)
  rw [Store.release_all, modify_eq _ hget hlive]
  dsimp only
  rw [hget']
  dsimp only
  by_cases hlast : c.refcount - 1 = 0
  · rw [if_pos hlast, if_pos (show (c.counted (c.refcount - 1)).refcount = 0 from hlast),
      modify_eq (s := ⟨_, s.undefined⟩) _ hget' hlive]
    have hdeleted : (⟨c.value, c.refcount - 1, c.next, c.deletions + 1⟩ : Cell α) = c.deleted := by
      rw [hlast, hlive]
      rfl
    dsimp only [Cell.counted]
    rw [List.set_set, hdeleted]
  · rw [if_neg hlast, if_neg (show ¬ (c.counted (c.refcount - 1)).refcount = 0 from hlast)]

/-- A reference from outside is given up, and with the last one the cell. -/
theorem Counted.release_all {n : Nat} (hc : Counted s fun q => refs q + one h q)
    (hn : ∀ p, h = some p → p < n) :
    Counted (Store.release_all n s h) refs ∧ Kept s (Store.release_all n s h) := by
  induction n generalizing s h with
  | zero =>
    cases h with
    | none => exact ⟨hc, .refl s⟩
    | some p => exact absurd (hn p rfl) (Nat.not_lt_zero p)
  | succ n ih =>
    cases h with
    | none => exact ⟨hc, .refl s⟩
    | some p =>
      have hone := one_self p
      obtain ⟨c, hget, hlive⟩ := hc.live (show 0 < refs p + one (some p) p by omega)
      have hcount := (hc.exact p c hget).1
      have hnew : c.refcount - 1 = (refs p + s.links p : Nat) := by omega
      have hother : ∀ q, q ≠ p → refs q = refs q + one (some p) q :=
        fun q hq => by rw [one_ne hq, Nat.add_zero]
      rw [release_all_some n hget hlive, hnew]
      by_cases hlast : refs p + s.links p = 0
      · rw [if_pos (by omega)]
        have hne : one c.next p = 0 :=
          if_neg fun hq => Nat.lt_irrefl _ (hc.older p c p hget hq)
        have hdelete : Counted ⟨s.cells.set p c.deleted, s.undefined⟩
            fun q => refs q + one c.next q :=
          hc.delete hget hlive (fun q hq => by rw [one_ne hq, Nat.add_zero]) (by omega)
        obtain ⟨hrest, hkept⟩ := ih hdelete fun q hq => by
          have hqp := hc.older p c q hget hq
          have hpn := hn p rfl
          omega
        exact ⟨hrest, (kept_set hget c.deleted rfl rfl _).trans hkept⟩
      · rw [if_neg (by omega)]
        exact ⟨hc.recount hget hlive hother (by omega),
          kept_set hget (c.counted (refs p + s.links p : Nat)) rfl rfl _⟩

theorem Counted.release (hc : Counted s fun q => refs q + one h q) :
    Counted (s.release h) refs ∧ Kept s (s.release h) :=
  hc.release_all fun p hp => hc.bound p (by rw [hp, one_self]; omega)

/-! ### New cells -/

theorem links_append (s : Store α) (c : Cell α) (u : Bool) (q : Nat) :
    (⟨s.cells ++ [c], u⟩ : Store α).links q =
      s.links q + if c.deletions = 0 then one c.next q else 0 := by
  simp only [Store.links, one, List.countP_append, List.countP_singleton, decide_eq_true_eq,
    ← ite_and]

/-- Nothing refers to a cell that has not been there. -/
theorem Counted.fresh (hc : Counted s refs) :
    refs s.cells.length = 0 ∧ s.links s.cells.length = 0 := by
  constructor
  · by_contra hne
    exact Nat.lt_irrefl _ (hc.bound _ (Nat.pos_of_ne_zero hne))
  · refine List.countP_eq_zero.mpr fun c hmem h => ?_
    obtain ⟨p, hp⟩ := List.mem_iff_getElem?.mp hmem
    have hlt := (List.getElem?_eq_some_iff.mp hp).1
    have hold := hc.older p c _ hp (of_decide_eq_true h).2
    omega

/-- The new cell has the one reference that `new` returns. -/
theorem Counted.push (hc : Counted s refs) (value : α)
    (hh : ∀ p, h = some p → ∃ c, s.cells[p]? = some c ∧ c.deletions = 0) :
    Counted (s.push value h).1 (fun q => refs q + one (some (s.push value h).2) q) ∧
      Kept s (s.push value h).1 ∧
      (s.push value h).1.cells[(s.push value h).2]? = some ⟨value, 1, h, 0⟩ := by
  obtain ⟨hretain, hkept⟩ := hc.retain hh
  obtain ⟨hfresh, hlinkless⟩ := hretain.fresh
  have hlinks := links_append (s.retain h) ⟨value, 1, h, 0⟩ (s.retain h).undefined
  simp only [if_true] at hlinks
  have hget : ∀ p, p ≠ (s.retain h).cells.length →
      (s.push value h).1.cells[p]? = (s.retain h).cells[p]? := by
    intro p hp
    show ((s.retain h).cells ++ [_])[p]? = _
    rcases Nat.lt_or_ge p (s.retain h).cells.length with hlt | hge
    · exact List.getElem?_append_left hlt
    · rw [List.getElem?_eq_none hge, List.getElem?_eq_none]
      rw [List.length_append, List.length_singleton]
      omega
  have hself : (s.push value h).1.cells[(s.push value h).2]? = some ⟨value, 1, h, 0⟩ := by
    show ((s.retain h).cells ++ [_])[(s.retain h).cells.length]? = _
    rw [List.getElem?_append_right (Nat.le_refl _), Nat.sub_self]
    rfl
  refine ⟨⟨hretain.sound, fun q d r hd hr => ?_, fun q d hd => ?_, fun q hq => ?_⟩,
    fun q d hd => ?_, hself⟩
  · by_cases heq : q = (s.retain h).cells.length
    · rw [show q = (s.push value h).2 from heq, hself, Option.some.injEq] at hd
      subst hd
      obtain ⟨e, he, -⟩ := hh r hr
      obtain ⟨e', he', -⟩ := hkept r e he
      exact heq ▸ (List.getElem?_eq_some_iff.mp he').1
    · exact hretain.older q d r (hget q heq ▸ hd) hr
  · show d.refcount = (refs q + one (some (s.retain h).cells.length) q : Nat) +
      (⟨(s.retain h).cells ++ [⟨value, 1, h, 0⟩], (s.retain h).undefined⟩ : Store α).links q ∧
      d.deletions = if refs q + one (some (s.retain h).cells.length) q +
        (⟨(s.retain h).cells ++ [⟨value, 1, h, 0⟩], (s.retain h).undefined⟩ : Store α).links q = 0
        then 1 else 0
    rw [hlinks q]
    by_cases heq : q = (s.retain h).cells.length
    · have hone := one_self (s.retain h).cells.length
      rw [show q = (s.push value h).2 from heq, hself, Option.some.injEq] at hd
      subst hd
      subst heq
      exact ⟨by show (1 : Int) = _; omega, by rw [if_neg (by omega)]⟩
    · obtain ⟨hcount, hdel⟩ := hretain.exact q d (hget q heq ▸ hd)
      rw [one_ne heq, Nat.add_zero, ← Nat.add_assoc, Nat.add_right_comm]
      exact ⟨by omega, hdel⟩
  · show q < ((s.retain h).cells ++ [_]).length
    rw [List.length_append, List.length_singleton]
    by_cases heq : q = (s.retain h).cells.length
    · omega
    · have hone : one (some (s.push value h).2) q = 0 := one_ne heq
      have hlt := hretain.bound q (by omega)
      omega
  · obtain ⟨e, he, hv, hn⟩ := hkept q d hd
    have hlt := (List.getElem?_eq_some_iff.mp he).1
    exact ⟨e, (hget q (Nat.ne_of_lt hlt)).trans he, hv, hn⟩

end SharedLists
