import Kuhllib.Cxxrt.Cache
import Kuhllib.Lib.Transition
import Mathlib.Data.BitVec
import Mathlib.Tactic.Common

/-!
# `locale`

A representation and a facet are named by the order in which they are created. Counts are
integers, so that `size_t(-1)` is -1. Where the program uses what has been deleted, or a
null pointer, `undefined` is set. Names of locales are not compared.
-/

namespace Kuhllib.Cxxrt

open Transition

/-- The character types of the facets. -/
inductive CharT
  | char
  | wchar_t
  deriving DecidableEq, Repr

/-- The facets whose members are not called by the locale. -/
inductive Plain (κ : Type)
  | collate (c : CharT)
  | codecvt (c : CharT)
  | moneypunct (c : CharT) (intl : Bool)
  | money_get (c : CharT)
  | money_put (c : CharT)
  | num_get (c : CharT)
  | num_put (c : CharT)
  | time_get (c : CharT)
  | time_put (c : CharT)
  | messages (c : CharT)
  | user (k : κ)
  deriving DecidableEq, Repr

/-- The `id` objects. -/
inductive Kind (κ : Type)
  | numpunct (c : CharT)
  | ctype (c : CharT)
  | cache (c : CharT)
  | plain (p : Plain κ)
  deriving DecidableEq, Repr

structure Numpunct where
  grouping : List Int
  thousands_sep : Int
  decimal_point : Int
  deriving DecidableEq, Repr

/-- A facet by what its members return. -/
inductive FacetBody (κ : Type)
  | numpunct (c : CharT) (p : Numpunct)
  | ctype (c : CharT) (widen : Char → Int)
  | cache (c : CharT) (tables : Option Cache)
  | plain (p : Plain κ)

def FacetBody.kind {κ : Type} : FacetBody κ → Kind κ
  | .numpunct c _ => .numpunct c
  | .ctype c _ => .ctype c
  | .cache c _ => .cache c
  | .plain p => .plain p

/-- The tables of `_CS_cache::_CS_init`. -/
def tables (widen : Char → Int) (p : Numpunct) : Option Cache := do
  let scan_table := (st.toList.take 29).map widen ++ [p.thousands_sep, p.decimal_point]
  let array := scan_table.zipWith SortVal.mk ivals
  let array ← quicksort 32 array 0 31
  pure {
    grouping := p.grouping
    scan_table := array.map SortVal.wide
    vals_table := array.map SortVal.val
    lower_table := (lt.toList.take 20).map widen ++ [p.thousands_sep, p.decimal_point]
    upper_table := (ut.toList.take 20).map widen ++ [p.thousands_sep, p.decimal_point] }

theorem tables_widen (p : Numpunct) :
    tables widen p = init p.grouping p.thousands_sep p.decimal_point := rfl

/-- The `id` objects in the order in which they are constructed. -/
structure Ids (κ : Type) where
  list : List (Kind κ)
  nodup : list.Nodup
  all : ∀ k, k ∈ list

/-- `_CS_identifier`; the first one is 1. -/
def Ids.identifier {κ : Type} [DecidableEq κ] (ids : Ids κ) (k : Kind κ) : Nat :=
  ids.list.idxOf k + 1

/-- `refs` is the argument of the constructor. -/
structure Facet (κ : Type) where
  body : FacetBody κ
  refs : Nat

/-- `_CS_intern`. -/
structure Intern where
  m_refcount : Int
  m_array : List (Option Nat)
  deleted : Bool
  deriving DecidableEq, Repr

/-- The facets with their reference counts, the representations and the locale objects. A
destroyed object has no representation. -/
structure Locales (κ : Type) where
  facets : List (Facet κ)
  ref_count : Nat → Int
  deleted : Nat → Bool
  interns : List Intern
  objects : List (Option Nat)
  global : Option Nat
  classic_rep : Option Nat
  classic_object : Bool
  undefined : Bool

/-! ## Facets -/

namespace Locales

variable {κ : Type} (w : Locales κ)

def start : Locales κ where
  facets := []
  ref_count := fun _ => 0
  deleted := fun _ => false
  interns := []
  objects := []
  global := none
  classic_rep := none
  classic_object := false
  undefined := false

def fail_if (b : Bool) : Locales κ := { w with undefined := w.undefined || b }

/-- `new` with the argument `refs`. -/
def new_facet (body : FacetBody κ) (refs : Nat) : Locales κ × Nat :=
  let f := w.facets.length
  ({ w with
    facets := w.facets ++ [⟨body, refs⟩]
    ref_count := Function.update w.ref_count f refs }, f)

/-- `_CS_reference`. -/
def reference (f : Nat) : Locales κ :=
  { w with ref_count := Function.update w.ref_count f (w.ref_count f + 1) }.fail_if (w.deleted f)

/-- `if (_CS_release()) delete`. -/
def release (f : Nat) : Locales κ :=
  { w with
    ref_count := Function.update w.ref_count f (w.ref_count f - 1)
    deleted := if w.ref_count f - 1 = 0 then Function.update w.deleted f true else w.deleted
  }.fail_if (w.deleted f)

def reference_all : Locales κ → List (Option Nat) → Locales κ
  | w, [] => w
  | w, none :: a => reference_all w a
  | w, some f :: a => reference_all (w.reference f) a

def release_all : Locales κ → List (Option Nat) → Locales κ
  | w, [] => w
  | w, none :: a => release_all w a
  | w, some f :: a => release_all (w.release f) a

/-! ## Representations -/

def intern (r : Nat) : Intern := w.interns.getD r ⟨0, [], true⟩

def with_intern (r : Nat) (x : Intern) : Locales κ :=
  { w with interns := w.interns.set r x }.fail_if (w.intern r).deleted

/-- `_CS_intern(str)`. -/
def new_intern : Locales κ × Nat :=
  ({ w with interns := w.interns ++ [⟨0, List.replicate 20 none, false⟩] }, w.interns.length)

/-- `_CS_intern(ip, str)`. -/
def copy_intern (ip : Nat) : Locales κ × Nat :=
  let a := (w.intern ip).m_array
  let w := w.fail_if (w.intern ip).deleted
  (reference_all { w with interns := w.interns ++ [⟨0, a, false⟩] } a, w.interns.length)

/-- `++_CS_m_refcount`. -/
def retain (r : Nat) : Locales κ :=
  w.with_intern r { w.intern r with m_refcount := (w.intern r).m_refcount + 1 }

/-- `if (--_CS_m_refcount == 0) delete`. -/
def drop (r : Nat) : Locales κ :=
  let x := w.intern r
  if x.m_refcount - 1 = 0 then
    (w.release_all x.m_array).with_intern r { x with m_refcount := 0, deleted := true }
  else w.with_intern r { x with m_refcount := x.m_refcount - 1 }

section

variable [DecidableEq κ] (ids : Ids κ)

/-- `_CS_find(k)`. -/
def find (r : Nat) (k : Kind κ) : Option Nat :=
  ((w.intern r).m_array[ids.identifier k]?).join

/-- The body of the facet for `k`, if there is one. -/
def facet (r : Nat) (k : Kind κ) : Option (FacetBody κ) :=
  (w.find ids r k).bind fun f => w.facets[f]?.map Facet.body

/-- `numpunct` and `ctype` of a representation, as far as `_CS_cache::_CS_init` uses them. -/
def cached (r : Nat) (c : CharT) : Option ((Char → Int) × Numpunct) :=
  match w.facet ids r (.numpunct c), w.facet ids r (.ctype c) with
  | some (.numpunct _ p), some (.ctype _ widen) => some (widen, p)
  | _, _ => none

/-- The virtual `facet::_CS_init`, and whether it returns a facet. -/
def init_facet (r f : Nat) : Locales κ × Bool :=
  match w.facets[f]? with
  | some ⟨.cache c _, refs⟩ =>
    match w.cached ids r c with
    | none => (w, false)
    | some (widen, p) =>
      ({ w with facets := w.facets.set f ⟨.cache c (tables widen p), refs⟩ }, true)
  | _ => (w, true)

/-- `_CS_add(k, f)`. -/
def add (r : Nat) (k : Kind κ) : Option Nat → Locales κ
  | none => w
  | some f =>
    let (w, ok) := w.init_facet ids r f
    if ok then
      let w := w.reference f
      let idx := ids.identifier k
      let x := w.intern r
      if x.m_array.length ≤ idx then
        (w.reference_all x.m_array).with_intern r { x with
          m_array := x.m_array ++ List.replicate (idx - x.m_array.length) none ++ [some f] }
      else
        let w :=
          match x.m_array[idx]?.join with
          | none => w
          | some g => w.release g
        w.with_intern r { x with m_array := x.m_array.set idx (some f) }
    else w.fail_if true

/-- A new cache in its slot. -/
def install_cache (r : Nat) (c : CharT) : Locales κ :=
  let (w, f) := w.new_facet (.cache c none) 0
  let x := w.intern r
  let idx := ids.identifier (.cache c)
  let w := w.fail_if (x.m_array.length ≤ idx)
  let w := w.with_intern r { x with m_array := x.m_array.set idx (some f) }
  (w.init_facet ids r f).1

/-- `_CS_intern::_CS_init`. -/
def init_intern (r : Nat) : Locales κ :=
  (w.install_cache ids r .char).install_cache ids r .wchar_t

/-- Facets that are created and added. -/
def add_new (r : Nat) : Locales κ → List (FacetBody κ) → Locales κ
  | w, [] => w
  | w, b :: bs =>
    let (w, f) := w.new_facet b 0
    add_new r (w.add ids r b.kind (some f)) bs

/-! ## The classic locale -/

/-- The members of the classic `numpunct`. -/
def classic_numpunct : Numpunct := ⟨[], widen ',', widen '.'⟩

def classic_facets : List (FacetBody κ) :=
  [.numpunct .char classic_numpunct, .numpunct .wchar_t classic_numpunct,
    .plain (.collate .char), .plain (.collate .wchar_t), .ctype .char widen, .ctype .wchar_t widen,
    .plain (.codecvt .char), .plain (.codecvt .wchar_t), .plain (.moneypunct .char false),
    .plain (.moneypunct .char true), .plain (.money_get .char), .plain (.money_get .wchar_t),
    .plain (.money_put .char), .plain (.money_put .wchar_t), .plain (.num_get .char),
    .plain (.num_get .wchar_t), .plain (.num_put .char), .plain (.num_put .wchar_t),
    .plain (.time_get .char), .plain (.time_get .wchar_t), .plain (.time_put .char),
    .plain (.time_put .wchar_t), .plain (.messages .char), .plain (.messages .wchar_t),
    .cache .char none, .cache .wchar_t none]

/-- `_CS_classic_rep()`. -/
def get_classic_rep : Locales κ × Nat :=
  let (w, r) :=
    match w.classic_rep with
    | some r => (w, r)
    | none =>
      let (w, r) := w.new_intern
      -- one for the reference `rc`, one for the classic locale
      let w := (w.retain r).retain r
      (add_new ids r w classic_facets, r)
  ({ w.init_intern ids r with classic_rep := some r }, r)

/-- `classic()`; its representation. -/
def get_classic : Locales κ × Nat :=
  match w.classic_object, w.classic_rep with
  | true, some r => (w, r)
  | _, _ =>
    let (w, r) := w.get_classic_rep ids
    ({ w.retain r with classic_object := true }, r)

/-- `_CS_global_rep()`. -/
def get_global_rep : Locales κ × Nat :=
  match w.global with
  | some r => (w, r)
  | none =>
    let (w, r) := w.get_classic_rep ids
    ({ w.retain r with global := some r }, r)

end

/-! ## Combined locales -/

abbrev Category := BitVec 6

def collate : Category := 0x01
def ctype : Category := 0x02
def monetary : Category := 0x04
def numeric : Category := 0x08
def time : Category := 0x10
def messages : Category := 0x20

/-- `cat & section != 0`, where `!=` binds stronger. -/
def selects (cat sec : Category) : Bool := cat &&& (if sec ≠ 0 then 1 else 0) ≠ 0

/-- The sections of `_CS_combine` with their conditions. -/
def sections : List (Category × List (Kind κ)) :=
  [(collate, [.plain (.collate .char), .plain (.collate .wchar_t)]),
    (ctype, [.ctype .char, .plain (.codecvt .char), .ctype .wchar_t, .plain (.codecvt .wchar_t)]),
    (monetary, [.plain (.moneypunct .char true), .plain (.moneypunct .char false),
      .plain (.money_get .char), .plain (.money_put .char), .plain (.moneypunct .wchar_t true),
      .plain (.moneypunct .wchar_t false), .plain (.money_get .wchar_t),
      .plain (.money_put .wchar_t)]),
    (numeric, [.numpunct .char, .plain (.num_get .char), .plain (.num_put .char),
      .numpunct .wchar_t, .plain (.num_get .wchar_t), .plain (.num_put .wchar_t)]),
    (time, []),
    (time, [.plain (.messages .char), .plain (.messages .wchar_t)])]

variable [DecidableEq κ] (ids : Ids κ)

/-- `rc->_CS_add(l2->_CS_find<..>())` for each of the facets. -/
def add_from (rc l2 : Nat) : Locales κ → List (Kind κ) → Locales κ
  | w, [] => w
  | w, k :: ks => add_from rc l2 (w.add ids rc k (w.find ids l2 k)) ks

def add_sections (rc l2 : Nat) (cat : Category) :
    Locales κ → List (Category × List (Kind κ)) → Locales κ
  | w, [] => w
  | w, (sec, ks) :: secs =>
    add_sections rc l2 cat (if selects cat sec then add_from ids rc l2 w ks else w) secs

/-- `_CS_combine(l1, l2, cat)`. -/
def combine (l1 l2 : Nat) (cat : Category) : Locales κ × Nat :=
  let (w, rc) := w.copy_intern l1
  (add_sections ids rc l2 cat w sections, rc)

/-- `_CS_combine(l, f, i)`. -/
def combine_facet (l : Nat) (f : Option Nat) (i : Kind κ) : Locales κ × Nat :=
  match f with
  | none => (w, l)
  | some f =>
    let (w, rc) := w.copy_intern l
    ((w.add ids rc i (some f)).init_intern ids rc, rc)

end Locales

/-! ## Named locales -/

/-- What the C library knows about a name: for each section whether the name has a part
for it, and the members of the facets with this name. -/
structure Named where
  has_ctype : Bool
  has_numeric : Bool
  has_time : Bool
  has_collate : Bool
  has_monetary : Bool
  has_messages : Bool
  widen : CharT → Char → Int
  numpunct : CharT → Numpunct

namespace Locales

variable {κ : Type} [DecidableEq κ] (ids : Ids κ) (w : Locales κ)

/-- The parts of the name in order, each with the facets that are added for it. -/
def Named.parts (n : Named) : List (Bool × List (FacetBody κ)) :=
  [(n.has_ctype, [.ctype .char (n.widen .char), .ctype .wchar_t (n.widen .wchar_t)]),
    (n.has_numeric, [.numpunct .char (n.numpunct .char), .numpunct .wchar_t (n.numpunct .wchar_t)]),
    (n.has_time, []),
    (n.has_collate, [.plain (.collate .char), .plain (.collate .wchar_t)]),
    (n.has_monetary, [.plain (.moneypunct .char true), .plain (.moneypunct .char false),
      .plain (.moneypunct .wchar_t true), .plain (.moneypunct .wchar_t false)]),
    (n.has_messages, [.plain (.messages .char), .plain (.messages .wchar_t)])]

/-- The facets up to the first part that is missing, and whether one is. -/
def add_parts (rep : Nat) : Locales κ → List (Bool × List (FacetBody κ)) → Locales κ × Bool
  | w, [] => (w, false)
  | w, (false, _) :: _ => (w, true)
  | w, (true, bs) :: ps => add_parts rep (add_new ids rep w bs) ps

/-- The representation of `locale(n)`, or nothing if the constructor throws. The name `C`
has no description. -/
def named (n : Option Named) : Locales κ × Option Nat :=
  let (w, r) := w.get_classic ids
  match n with
  | none => (w.retain r, some r)
  | some n =>
    let (w, rep) := w.copy_intern r
    let (w, threw) := add_parts ids rep w (Named.parts n)
    if threw then (w, none) else (w.retain rep, some rep)

end Locales

/-! ## Programs -/

/-- What a program does with locale objects, named by the order of their construction. -/
inductive LocaleOp (κ : Type)
  | new_facet (body : FacetBody κ) (refs : Nat)
  | default
  | copy (l : Nat)
  | named (n : Option Named)
  | add_facet (l : Nat) (f : Option Nat)
  | combine (l1 l2 : Nat) (cat : Locales.Category)
  | combine_named (l : Nat) (n : Option Named) (cat : Locales.Category)
  | assign (l other : Nat)
  | destroy (l : Nat)
  | global (l : Nat)
  | classic
  | intern_add (l : Nat) (f : Option Nat)

namespace Locales

variable {κ : Type} [DecidableEq κ] (ids : Ids κ) (w : Locales κ)

/-- The representation of an object. -/
def rep (l : Nat) : Option Nat := w.objects[l]?.join

/-- A new object with a representation that counts it. -/
def object (x : Locales κ × Nat) : Locales κ :=
  let (w, r) := x
  let w := w.retain r
  { w with objects := w.objects ++ [some r] }

/-- The class of a facet says which `id` it has. -/
def kind_of (f : Nat) : Option (Kind κ) := w.facets[f]?.map fun x => x.body.kind

/-- What an operation does, where its objects exist. -/
def next : LocaleOp κ → Option (Locales κ)
  | .new_facet body refs => some (w.new_facet body refs).1
  | .default => some (object (w.get_global_rep ids))
  | .copy l => (w.rep l).map fun r => object (w, r)
  | .named n =>
    match w.named ids n with
    | (w, none) => some w
    | (w, some r) => some { w with objects := w.objects ++ [some r] }
  | .add_facet l none => (w.rep l).map fun r => object (w, r)
  | .add_facet l (some f) => do
    let r ← w.rep l
    let k ← w.kind_of f
    some (object (w.combine_facet ids r (some f) k))
  | .combine l1 l2 cat => do
    let r1 ← w.rep l1
    let r2 ← w.rep l2
    some (object (w.combine ids r1 r2 cat))
  | .combine_named l n cat => do
    let r ← w.rep l
    match w.named ids n with
    | (w, none) => some w
    | (w, some t) =>
      -- the temporary locale is destroyed at the end of the expression
      let (w, rc) := w.combine ids r t cat
      some ((object (w, rc)).drop t)
  | .assign l other => do
    let r ← w.rep other
    let old ← w.rep l
    let w := (w.retain r).drop old
    some { w with objects := w.objects.set l (some r) }
  | .destroy l => do
    let r ← w.rep l
    let w := w.drop r
    some { w with objects := w.objects.set l none }
  | .global l => do
    let r ← w.rep l
    let (w, old) := w.get_global_rep ids
    let w := (object (w, old)).retain r
    let x := w.intern old
    let w := w.with_intern old { x with m_refcount := x.m_refcount - 1 }
    some { w with global := some r }
  | .classic => some (w.get_classic ids).1
  | .intern_add _ none => some w
  | .intern_add l (some f) => do
    let r ← w.rep l
    let k ← w.kind_of f
    some (w.add ids r k (some f))

/-- The programs, as far as they use nothing that is deleted. -/
def system (ids : Ids κ) : System (Locales κ) (LocaleOp κ) where
  init w := w = start
  step w op w' := w.next ids op = some w' ∧ w'.undefined = false

end Locales

end Kuhllib.Cxxrt
