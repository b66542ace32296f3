import Kuhllib.Cxxrt.NumGet

/-!
# What an integer looks like

The grammar is an optional sign and digits to the base, to base 16 behind an optional
`0x` or `0X`. Without a base a leading `0` selects base 8, `0x` base 16 and anything
else base 10.

Results:
1. `viable_iff`: which beginnings can be continued.
2. `get_integer_spec`: the characters consumed are the longest such beginning.
-/

namespace Kuhllib.Cxxrt

open NumGetLemmas

/-! ## The grammar -/

def Digits (b : Nat) (s : List Int) : Prop := ∀ c ∈ s, ∃ d, digit c = some d ∧ d < b

def isSign (c : Int) : Prop := c = widen '+' ∨ c = widen '-'

instance (c : Int) : Decidable (isSign c) := inferInstanceAs (Decidable (_ ∨ _))

/-- Digits to base 16 behind `0x` or `0X`. -/
def Prefixed (s : List Int) : Prop :=
  ∃ x ds, isHex x ∧ ds ≠ [] ∧ Digits 16 ds ∧ s = widen '0' :: x :: ds

def Body : Basefield → List Int → Prop
  | .oct, s => s ≠ [] ∧ Digits 8 s
  | .dec, s => s ≠ [] ∧ Digits 10 s
  | .hex, s => s ≠ [] ∧ Digits 16 s ∨ Prefixed s
  | .none, s =>
    (s.head? = some (widen '0') ∧ Digits 8 s) ∨
      (s ≠ [] ∧ s.head? ≠ some (widen '0') ∧ Digits 10 s) ∨ Prefixed s

def Accepted (bf : Basefield) (s : List Int) : Prop :=
  Body bf s ∨ ∃ c t, isSign c ∧ Body bf t ∧ s = c :: t

/-- `p` can be continued to an integer. -/
def Viable (bf : Basefield) (p : List Int) : Prop := ∃ q, Accepted bf (p ++ q)

structure Longest (bf : Basefield) (input p : List Int) : Prop where
  initial : p <+: input
  viable : Viable bf p
  longest : ∀ p', p' <+: input → Viable bf p' → p'.length ≤ p.length

/-! ### Its value -/

def unsignedPart : List Int → List Int
  | [] => []
  | c :: t => if isSign c then t else c :: t

def isNegative (s : List Int) : Bool := s.head? = some (widen '-')

/-- The base of digits without a sign. -/
def radix : Basefield → List Int → Nat
  | .oct, _ => 8
  | .dec, _ => 10
  | .hex, _ => 16
  | .none, [] => 10
  | .none, c :: s =>
    if c = widen '0' then
      if ∃ x, s.head? = some x ∧ isHex x then 16 else 8
    else 10

def digitsOf (s : List Int) : List Nat := s.filterMap digit

/-- The value of the digits of `s`, whatever its sign. -/
def magnitude (bf : Basefield) (s : List Int) : Nat :=
  Numeral.value (radix bf (unsignedPart s)) (digitsOf s)

/-! ## 1. Beginnings -/

/-- The beginnings of a `Body`. -/
def Start : Basefield → List Int → Prop
  | .oct, p => Digits 8 p
  | .dec, p => Digits 10 p
  | .hex, p => Digits 16 p ∨ ∃ x ds, isHex x ∧ Digits 16 ds ∧ p = widen '0' :: x :: ds
  | .none, p =>
    (p.head? = some (widen '0') ∧ Digits 8 p) ∨ (p.head? ≠ some (widen '0') ∧ Digits 10 p) ∨
      ∃ x ds, isHex x ∧ Digits 16 ds ∧ p = widen '0' :: x :: ds

namespace IntegerGrammarLemmas

variable {b : Nat} {p q s : List Int} {bf : Basefield}

@[simp]
theorem digits_nil : Digits b [] := fun _ hc => absurd hc List.not_mem_nil

theorem digits_append : Digits b (p ++ q) ↔ Digits b p ∧ Digits b q := by
  simp only [Digits, List.mem_append, or_imp, forall_and]

theorem digits_zero (hb : 0 < b) : Digits b [widen '0'] := by
  intro c hc
  rw [List.mem_singleton.mp hc]
  exact ⟨0, by decide, hb⟩

theorem prefixed_start (h : Prefixed (p ++ q)) :
    Digits 16 p ∧ (p = [] ∨ p = [widen '0']) ∨
      ∃ x ds, isHex x ∧ Digits 16 ds ∧ p = widen '0' :: x :: ds := by
  obtain ⟨x, ds, hx, -, hds, he⟩ := h
  cases p with
  | nil => exact .inl ⟨digits_nil, .inl rfl⟩
  | cons c p =>
    obtain ⟨rfl, htail⟩ := List.cons.inj he
    cases p with
    | nil => exact .inl ⟨digits_zero (by decide), .inr rfl⟩
    | cons c p =>
      obtain ⟨rfl, rfl⟩ := List.cons.inj htail
      exact .inr ⟨_, p, hx, (digits_append.mp hds).1, rfl⟩

theorem prefixed_of_start {x : Int} {ds : List Int} (hx : isHex x) (hds : Digits 16 ds) :
    Prefixed ((widen '0' :: x :: ds) ++ [widen '0']) :=
  ⟨x, ds ++ [widen '0'], hx, by simp, digits_append.mpr ⟨hds, digits_zero (by decide)⟩, rfl⟩

theorem body_start (h : Body bf (p ++ q)) : Start bf p := by
  cases bf with
  | oct | dec => exact (digits_append.mp h.2).1
  | hex =>
    rcases h with ⟨-, h⟩ | h
    · exact .inl (digits_append.mp h).1
    · rcases prefixed_start h with ⟨h, -⟩ | h
      · exact .inl h
      · exact .inr h
  | none =>
    rcases h with ⟨hhead, h⟩ | ⟨-, hhead, h⟩ | h
    · cases p with
      | nil => exact .inr (.inl ⟨by simp, digits_nil⟩)
      | cons c p => exact .inl ⟨hhead, (digits_append.mp h).1⟩
    · cases p with
      | nil => exact .inr (.inl ⟨by simp, digits_nil⟩)
      | cons c p => exact .inr (.inl ⟨hhead, (digits_append.mp h).1⟩)
    · rcases prefixed_start h with ⟨-, rfl | rfl⟩ | h
      · exact .inr (.inl ⟨by simp, digits_nil⟩)
      · exact .inl ⟨rfl, digits_zero (by decide)⟩
      · exact .inr (.inr h)

theorem start_body (h : Start bf p) : ∃ q, Body bf (p ++ q) := by
  have hne : ∀ c : Int, p ++ [c] ≠ [] := fun c => by simp
  cases bf with
  | oct | dec => exact ⟨[widen '0'], hne _, digits_append.mpr ⟨h, digits_zero (by decide)⟩⟩
  | hex =>
    rcases h with h | ⟨x, ds, hx, hds, rfl⟩
    · exact ⟨[widen '0'], .inl ⟨hne _, digits_append.mpr ⟨h, digits_zero (by decide)⟩⟩⟩
    · exact ⟨[widen '0'], .inr (prefixed_of_start hx hds)⟩
  | none =>
    rcases h with ⟨hhead, h⟩ | ⟨hhead, h⟩ | ⟨x, ds, hx, hds, rfl⟩
    · refine ⟨[], .inl ?_⟩
      rw [List.append_nil]
      exact ⟨hhead, h⟩
    · cases p with
      | nil =>
        refine ⟨[widen '1'], .inr (.inl ⟨hne _, by decide, fun c hc => ?_⟩)⟩
        rw [List.mem_singleton.mp hc]
        exact ⟨1, by decide, by decide⟩
      | cons c p =>
        refine ⟨[], .inr (.inl ?_)⟩
        rw [List.append_nil]
        exact ⟨by simp, hhead, h⟩
    · exact ⟨[widen '0'], .inr (.inr (prefixed_of_start hx hds))⟩

theorem start_nil (bf : Basefield) : Start bf [] := by
  cases bf with
  | oct | dec => exact digits_nil
  | hex => exact .inl digits_nil
  | none => exact .inr (.inl ⟨by simp, digits_nil⟩)

end IntegerGrammarLemmas

open IntegerGrammarLemmas

theorem viable_iff {bf : Basefield} {p : List Int} :
    Viable bf p ↔ Start bf p ∨ ∃ c t, isSign c ∧ Start bf t ∧ p = c :: t := by
  constructor
  · rintro ⟨q, h | ⟨c, t, hc, h, he⟩⟩
    · exact .inl (body_start h)
    · cases p with
      | nil => exact .inl (start_nil bf)
      | cons c' p =>
        obtain ⟨rfl, rfl⟩ := List.cons.inj he
        exact .inr ⟨c', p, hc, body_start h, rfl⟩
  · rintro (h | ⟨c, t, hc, h, rfl⟩)
    · obtain ⟨q, hq⟩ := start_body h
      exact ⟨q, .inl hq⟩
    · obtain ⟨q, hq⟩ := start_body h
      exact ⟨q, .inr ⟨c, t ++ q, hc, hq, rfl⟩⟩

theorem viable_of_append {bf : Basefield} {p q : List Int} (h : Viable bf (p ++ q)) :
    Viable bf p := by
  obtain ⟨r, hr⟩ := h
  exact ⟨q ++ r, by rwa [← List.append_assoc]⟩

/-- A beginning is the longest one if it cannot be continued by the next character. -/
theorem longest_of_stop {bf : Basefield} {p rest : List Int} (h : Viable bf p)
    (hstop : ∀ c cs, rest = c :: cs → ¬ Viable bf (p ++ [c])) : Longest bf (p ++ rest) p where
  initial := List.prefix_append p rest
  viable := h
  longest p' hp' hv := by
    by_contra hlen
    obtain ⟨q, rfl⟩ := List.prefix_of_prefix_length_le (List.prefix_append p rest) hp' (by omega)
    cases q with
    | nil =>
      rw [List.append_nil] at hlen
      omega
    | cons c q =>
      obtain ⟨r, hr⟩ := hp'
      rw [List.append_assoc, List.append_cancel_left_eq] at hr
      refine hstop c (q ++ r) hr.symm (viable_of_append (q := q) ?_)
      rwa [List.append_assoc]

/-! ## 2. The characters consumed -/

/-- `0x` that no digit follows, and that is not at the end either. -/
def LonePrefix (bf : Basefield) (cs : List Int) : Prop :=
  16 ≤ bf.base ∧ ∃ x c rest, cs = widen '0' :: x :: c :: rest ∧ isHex x ∧ digit c = none ∧
    c ≠ widen '+'

/-- `e` is what is left of `input` when `p` has been consumed. -/
structure Consumed (bf : Basefield) (input p : List Int) (e : Extracted) : Prop where
  split : input = p ++ e.begin
  longest : Longest bf input p
  failbit : e.failbit = true ↔ digitsOf p = []
  failed : digitsOf p = [] → e.ok = false ∧ e.val = 0
  read : digitsOf p ≠ [] →
    e.ok = decide (magnitude bf p < capacity (radix bf (unsignedPart p))) ∧
      e.val = if magnitude bf p < capacity (radix bf (unsignedPart p)) then magnitude bf p
        else ulong_max
  negative : e.negative = isNegative p
  eofbit : e.eofbit = true ↔ e.begin = [] ∨ LonePrefix bf (unsignedPart input)

/-- The same behind the sign. -/
structure Scanned (bf : Basefield) (negative : Bool) (cs p : List Int) (e : Extracted) : Prop where
  split : cs = p ++ e.begin
  start : Start bf p
  stop : ∀ c cs', e.begin = c :: cs' → ¬ Start bf (p ++ [c])
  failbit : e.failbit = true ↔ p = []
  failed : p = [] → e.ok = false ∧ e.val = 0
  read : p ≠ [] →
    let n := Numeral.value (radix bf p) (digitsOf p)
    e.ok = decide (n < capacity (radix bf p)) ∧
      e.val = if n < capacity (radix bf p) then n else ulong_max
  negative : e.negative = negative
  eofbit : e.eofbit = true ↔ e.begin = [] ∨ LonePrefix bf cs

namespace IntegerGrammarLemmas

variable {c : Int} {cs : List Int} {negative : Bool}

theorem find_lt_iff (hb : b ≤ 16) : classic.find c < b ↔ ∃ d, digit c = some d ∧ d < b := by
  rw [find_classic]
  exact value_lt_iff hb

theorem digits_run (hb : b ≤ 16) (cs : List Int) : Digits b (run classic b cs) := by
  intro c hc
  have hd := List.mem_takeWhile_imp hc
  exact (find_lt_iff hb).mp (by simpa [isDigit] using hd)

theorem digitsOf_eq (h : Digits b s) : digitsOf s = s.map classic.find := by
  induction s with
  | nil => rfl
  | cons c s ih =>
    obtain ⟨d, hd, -⟩ := h c List.mem_cons_self
    rw [List.map_cons, ← ih fun c hc => h c (List.mem_cons_of_mem _ hc), find_classic,
      value_digit hd, digitsOf, List.filterMap_cons_some hd]
    rfl

/-- A beginning ends where its digits end, unless a single `0` may become a prefix. -/
theorem not_start (hp : p ≠ []) (hc : ¬ ∃ d, digit c = some d ∧ d < radix bf p)
    (hzero : p = [widen '0'] → 16 ≤ bf.base → ¬ isHex c) : ¬ Start bf (p ++ [c]) := by
  have hlast : ∀ {b : Nat} {ds : List Int}, Digits b (ds ++ [c]) → ∃ d, digit c = some d ∧ d < b :=
    fun h => h c (List.mem_append_right _ (List.mem_singleton_self c))
  -- a prefix that ends with `c`
  have hprefix : ∀ {x : Int} {ds : List Int}, isHex x → Digits 16 ds →
      p ++ [c] = widen '0' :: x :: ds → 16 ≤ bf.base →
      ∃ p', p = widen '0' :: x :: p' ∧ ∃ d, digit c = some d ∧ d < 16 := by
    intro x ds hx hds he hbase
    cases p with
    | nil => exact absurd rfl hp
    | cons z p =>
      obtain ⟨rfl, htail⟩ := List.cons.inj he
      cases p with
      | nil =>
        obtain ⟨rfl, -⟩ := List.cons.inj htail
        exact absurd hx (hzero rfl hbase)
      | cons y p =>
        obtain ⟨rfl, rfl⟩ := List.cons.inj htail
        exact ⟨p, rfl, hlast hds⟩
  intro h
  cases bf with
  | oct | dec => exact hc (hlast h)
  | hex =>
    rcases h with h | ⟨x, ds, hx, hds, he⟩
    · exact hc (hlast h)
    · obtain ⟨-, -, hd⟩ := hprefix hx hds he (by decide)
      exact hc hd
  | none =>
    rcases h with ⟨-, h⟩ | ⟨hhead, h⟩ | ⟨x, ds, hx, hds, he⟩
    · obtain ⟨d, hd, hlt⟩ := hlast h
      refine hc ⟨d, hd, Nat.lt_of_lt_of_le hlt ?_⟩
      cases p with
      | nil => exact absurd rfl hp
      | cons z p =>
        unfold radix
        repeat' split
        all_goals decide
    · cases p with
      | nil => exact absurd rfl hp
      | cons z p =>
        have hz : z ≠ widen '0' := by simpa using hhead
        refine hc ?_
        rw [radix, if_neg hz]
        exact hlast h
    · obtain ⟨p', rfl, hd⟩ := hprefix hx hds he (by decide)
      refine hc ?_
      rw [radix, if_pos rfl, if_pos ⟨x, rfl, hx⟩]
      exact hd

/-- A numeral is read behind the characters `q`. -/
theorem scanned_value {q : List Int} (hb : b = 8 ∨ b = 10 ∨ b = 16)
    (hne : q ++ run classic b cs ≠ []) (hradix : radix bf (q ++ run classic b cs) = b)
    (hstart : Start bf (q ++ run classic b cs))
    (hq : digitsOf q = [] ∨ digitsOf q = [0])
    (hzero : q ++ run classic b cs = [widen '0'] → 16 ≤ bf.base →
      ∀ c cs', rest classic b cs = c :: cs' → ¬ isHex c)
    (hlone : ¬ LonePrefix bf (q ++ cs)) :
    Scanned bf negative (q ++ cs) (q ++ run classic b cs) (get_value classic b negative cs) := by
  have hb16 : b ≤ 16 := by omega
  have hvalue : Numeral.value b (digitsOf (q ++ run classic b cs)) = runValue classic b cs := by
    rw [digitsOf, List.filterMap_append, ← digitsOf, ← digitsOf, digitsOf_eq (digits_run hb16 cs)]
    rcases hq with hq | hq <;> simp [hq, runValue]
  rw [get_value_spec hb]
  refine ⟨?_, hstart, fun c cs' he => ?_, iff_of_false (by simp [extracted]) hne,
    fun he => absurd he hne, fun _ => ?_, rfl, ?_⟩
  · rw [List.append_assoc]
    exact congrArg (q ++ ·) (run_append_rest cs).symm
  · refine not_start hne ?_ fun hp hbase => hzero hp hbase c cs' he
    rw [hradix, ← find_lt_iff hb16]
    exact rest_head he
  · rw [hradix, hvalue]
    exact ⟨rfl, rfl⟩
  · simp only [extracted, List.isEmpty_iff, hlone, or_false]

/-- A sign and a prefix without digits end at once. -/
theorem scanned_nil {e : Extracted} (hbegin : e.begin = cs) (hfail : e.failbit = true)
    (hok : e.ok = false ∧ e.val = 0) (hneg : e.negative = negative)
    (hstop : ∀ c cs', cs = c :: cs' → ¬ Start bf [c]) (heof : e.eofbit = true ↔ cs = [])
    (hlone : ¬ LonePrefix bf cs) : Scanned bf negative cs [] e where
  split := hbegin.symm
  start := start_nil bf
  stop c cs' he := hstop c cs' (hbegin ▸ he)
  failbit := iff_of_true hfail rfl
  failed _ := hok
  read h := absurd rfl h
  negative := hneg
  eofbit := by simp only [hlone, or_false, hbegin, heof]

theorem find_zero : classic.find c = 0 ↔ c = widen '0' := by
  rw [find_classic]
  exact value_eq_zero

theorem find_hex : classic.find c = CacheBase.hex ↔ isHex c := by
  rw [find_classic]
  exact (value_marks c).2.2.1

theorem find_gt : classic.find c > 16 ↔ digit c = none ∧ c ≠ widen '+' := by
  rw [find_classic]
  exact (value_marks c).2.2.2

/-- The first character of a beginning is a digit. -/
theorem start_head (h : Start bf (c :: cs)) : ∃ d, digit c = some d := by
  have hdigits : ∀ {b : Nat}, Digits b (c :: cs) → ∃ d, digit c = some d := fun h =>
    (h c List.mem_cons_self).imp fun d hd => hd.1
  have hzero : ∀ {x : Int} {ds : List Int}, c :: cs = widen '0' :: x :: ds →
      ∃ d, digit c = some d := fun he => ⟨0, by rw [(List.cons.inj he).1]; decide⟩
  cases bf with
  | oct | dec => exact hdigits h
  | hex =>
    rcases h with h | ⟨x, ds, -, -, he⟩
    · exact hdigits h
    · exact hzero he
  | none =>
    rcases h with ⟨-, h⟩ | ⟨-, h⟩ | ⟨x, ds, -, -, he⟩
    · exact hdigits h
    · exact hdigits h
    · exact hzero he

/-- One digit alone. -/
theorem start_singleton (h : Start bf [c]) (hc : c ≠ widen '0') :
    ∃ d, digit c = some d ∧ d < radix bf [c] := by
  have hdigits : ∀ {b : Nat}, Digits b [c] → ∃ d, digit c = some d ∧ d < b :=
    fun h => h c List.mem_cons_self
  cases bf with
  | oct | dec => exact hdigits h
  | hex =>
    rcases h with h | ⟨x, ds, -, -, he⟩
    · exact hdigits h
    · exact absurd (List.cons.inj he).1 hc
  | none =>
    rw [radix, if_neg hc]
    rcases h with ⟨hhead, -⟩ | ⟨-, h⟩ | ⟨x, ds, -, -, he⟩
    · exact absurd (Option.some.inj hhead) hc
    · exact hdigits h
    · exact absurd (List.cons.inj he).1 hc

/-- Without a base of its own, the base is the one of the first character. -/
theorem base_none {a : Nat} (hb : b = 8 ∨ b = 10 ∨ b = 16)
    (h : Basefield.none.base = b ∨ Basefield.none.base = 17 ∧ b = a) : b = a := by
  rcases h with h | h
  · rw [← h] at hb
    exact absurd hb (by decide)
  · exact h.2

/-- Behind a `0` that is no prefix. -/
theorem scanned_octal {b : Nat} (hb : b = 8 ∨ b = 10 ∨ b = 16)
    (hbf : bf.base = b ∨ bf.base = 17 ∧ b = 8)
    (hhex : ∀ c cs', cs = c :: cs' → 16 ≤ bf.base → ¬ isHex c) :
    Scanned bf negative (widen '0' :: cs) (widen '0' :: run classic b cs)
      (get_value classic b negative cs) := by
  have hb16 : b ≤ 16 := by omega
  have hdigits : Digits b (widen '0' :: run classic b cs) :=
    digits_append.mpr ⟨digits_zero (by omega), digits_run hb16 cs⟩
  refine scanned_value (q := [widen '0']) hb (by simp) ?_ ?_ (.inr (by decide)) ?_ ?_
  · cases bf with
    | oct | dec | hex => exact hbf.resolve_right fun h => absurd h.1 (by decide)
    | none =>
      obtain rfl := base_none hb hbf
      show radix .none (widen '0' :: run classic 8 cs) = 8
      rw [radix, if_pos rfl, if_neg]
      rintro ⟨x, hx, hhex⟩
      have hmem : x ∈ run classic 8 cs := List.mem_of_mem_head? hx
      obtain ⟨d, hd, -⟩ := digits_run (by decide) cs x hmem
      rw [digit_hex hhex] at hd
      cases hd
  · cases bf with
    | oct | dec =>
      cases hbf.resolve_right fun h => absurd h.1 (by decide)
      exact hdigits
    | hex =>
      cases hbf.resolve_right fun h => absurd h.1 (by decide)
      exact .inl hdigits
    | none =>
      obtain rfl := base_none hb hbf
      exact .inl ⟨rfl, hdigits⟩
  · intro hp hbase c cs' he
    have hrun : run classic b cs = [] := (List.cons.inj hp).2
    refine hhex c cs' ?_ hbase
    rw [← run_append_rest (t := classic) (b := b) cs, hrun, he, List.nil_append]
  · rintro ⟨hbase, x, c, rest, he, hx, -⟩
    obtain ⟨-, rfl⟩ := List.cons.inj he
    exact hhex x _ rfl hbase hx

/-- Behind the prefix. -/
theorem scanned_hex {x : Int} (hbf : 16 ≤ bf.base) (hx : isHex x)
    (hcs : ∀ c cs', cs = c :: cs' → ¬ (digit c = none ∧ c ≠ widen '+')) :
    Scanned bf negative (widen '0' :: x :: cs) (widen '0' :: x :: run classic 16 cs)
      (get_value classic 16 negative cs) := by
  refine scanned_value (q := [widen '0', x]) (.inr (.inr rfl)) (by simp) ?_ ?_ (.inr ?_) ?_ ?_
  · cases bf with
    | oct | dec => exact absurd hbf (by decide)
    | hex => rfl
    | none =>
      show radix .none (widen '0' :: x :: run classic 16 cs) = 16
      rw [radix, if_pos rfl, if_pos ⟨x, rfl, hx⟩]
  · have hstart := digits_run (b := 16) (Nat.le_refl _) cs
    cases bf with
    | oct | dec => exact absurd hbf (by decide)
    | hex => exact .inr ⟨x, _, hx, hstart, rfl⟩
    | none => exact .inr (.inr ⟨x, _, hx, hstart, rfl⟩)
  · rw [digitsOf, List.filterMap_cons_some (b := 0) (by decide),
      List.filterMap_cons_none (digit_hex hx), List.filterMap_nil]
  · intro hp
    cases (List.cons.inj hp).2
  · rintro ⟨-, x', c, rest, he, -, hc⟩
    obtain ⟨-, htail⟩ := List.cons.inj he
    exact hcs c rest (List.cons.inj htail).2 hc

/-- The prefix is left behind, but not the character that stands there. -/
theorem scanned_lone {x : Int} (hbf : 16 ≤ bf.base) (hx : isHex x)
    (hc : digit c = none ∧ c ≠ widen '+') :
    Scanned bf negative (widen '0' :: x :: c :: cs) [widen '0', x]
      ⟨true, c :: cs, false, true, 0, negative⟩ where
  split := rfl
  start := by
    cases bf with
    | oct | dec => exact absurd hbf (by decide)
    | hex => exact .inr ⟨x, [], hx, digits_nil, rfl⟩
    | none => exact .inr (.inr ⟨x, [], hx, digits_nil, rfl⟩)
  stop c' cs' he := by
    obtain ⟨rfl, rfl⟩ := List.cons.inj he
    refine not_start (by simp) ?_ fun hp => by cases (List.cons.inj hp).2
    rintro ⟨d, hd, -⟩
    rw [hc.1] at hd
    cases hd
  failbit := iff_of_false (by simp) (by simp)
  failed h := absurd h (by simp)
  read _ := by
    have hvalue : ∀ b, Numeral.value b (digitsOf [widen '0', x]) = 0 := fun b => by
      rw [digitsOf, List.filterMap_cons_some (b := 0) (by decide),
        List.filterMap_cons_none (digit_hex hx), List.filterMap_nil, Numeral.value_zero_cons]
      rfl
    have hcap : ∀ b, 0 < capacity b := fun b => by
      unfold capacity
      split <;> decide
    simp only [hvalue, hcap, decide_true, if_true, and_self]
  negative := rfl
  eofbit := iff_of_true rfl (.inr ⟨hbf, x, c, cs, rfl, hx, hc⟩)

/-- Without a prefix. -/
theorem scanned_digit {b : Nat} (hb : b = 8 ∨ b = 10 ∨ b = 16)
    (hbf : bf.base = b ∨ bf.base = 17 ∧ b = 10) (hzero : c ≠ widen '0')
    (hc : classic.find c < b) :
    Scanned bf negative (c :: cs) (run classic b (c :: cs))
      (get_value classic b negative (c :: cs)) := by
  have hb16 : b ≤ 16 := by omega
  have hrun := (run_cons hc cs).1
  have hdigits : Digits b (run classic b (c :: cs)) := digits_run hb16 _
  refine scanned_value (q := []) hb (by simp [hrun]) ?_ ?_ (.inl rfl) ?_ ?_
  · cases bf with
    | oct | dec | hex => exact hbf.resolve_right fun h => absurd h.1 (by decide)
    | none =>
      obtain rfl := base_none hb hbf
      rw [List.nil_append, hrun, radix, if_neg hzero]
  · cases bf with
    | oct | dec =>
      cases hbf.resolve_right fun h => absurd h.1 (by decide)
      exact hdigits
    | hex =>
      cases hbf.resolve_right fun h => absurd h.1 (by decide)
      exact .inl hdigits
    | none =>
      obtain rfl := base_none hb hbf
      refine .inr (.inl ⟨?_, hdigits⟩)
      rw [List.nil_append, hrun]
      exact fun he => hzero (Option.some.inj he)
  · rw [List.nil_append, hrun]
    exact fun hp => absurd (List.cons.inj hp).1 hzero
  · rintro ⟨-, x, c', rest, he, -⟩
    exact hzero (List.cons.inj he).1

/-- Neither a digit nor a prefix. -/
theorem scanned_other {b : Nat} (hb : b = 8 ∨ b = 10 ∨ b = 16)
    (hbf : bf.base = b ∨ bf.base = 17 ∧ b = 10) (hzero : c ≠ widen '0')
    (hc : ¬ classic.find c < b) :
    Scanned bf negative (c :: cs) [] ⟨false, c :: cs, true, false, 0, negative⟩ := by
  refine scanned_nil rfl rfl ⟨rfl, rfl⟩ rfl ?_ (by simp) ?_
  · intro c' cs' he hstart
    obtain ⟨rfl, rfl⟩ := List.cons.inj he
    refine hc ((find_lt_iff (by omega)).mpr ?_)
    have hradix : radix bf [c] = b := by
      cases bf with
      | oct | dec | hex => exact hbf.resolve_right fun h => absurd h.1 (by decide)
      | none =>
        obtain rfl := base_none hb hbf
        rw [radix, if_neg hzero]
    rw [← hradix]
    exact start_singleton hstart hzero
  · rintro ⟨-, x, c', rest, he, -⟩
    exact hzero (List.cons.inj he).1

theorem digitsOf_eq_nil (h : Start bf p) : digitsOf p = [] ↔ p = [] := by
  constructor
  · intro hnil
    cases p with
    | nil => rfl
    | cons c p =>
      obtain ⟨d, hd⟩ := start_head h
      rw [digitsOf, List.filterMap_cons_some hd] at hnil
      cases hnil
  · rintro rfl
    rfl

theorem digit_sign (h : isSign c) : digit c = none := by
  rcases h with rfl | rfl <;> decide

theorem unsignedPart_sign (h : isSign c) : unsignedPart (c :: p) = p := if_pos h

theorem unsignedPart_other (h : ¬ isSign c) : unsignedPart (c :: p) = c :: p := if_neg h

theorem not_sign_of_start (h : Start bf (c :: p)) : ¬ isSign c := by
  intro hc
  obtain ⟨d, hd⟩ := start_head h
  rw [digit_sign hc] at hd
  cases hd

theorem longest_unsigned {e : Extracted} (hs : ∀ c cs', cs = c :: cs' → ¬ isSign c)
    (h : Scanned bf negative cs p e) : Longest bf cs p := by
  rw [h.split]
  refine longest_of_stop (viable_iff.mpr (.inl h.start)) fun c cs' he hv => ?_
  rcases viable_iff.mp hv with hv | ⟨c', t, hc', -, hp⟩
  · exact h.stop c cs' he hv
  · refine hs c' (t ++ cs') ?_ hc'
    rw [h.split, he, List.append_cons, hp, List.cons_append]

theorem longest_signed {e : Extracted} (hc : isSign c) (h : Scanned bf negative cs p e) :
    Longest bf (c :: cs) (c :: p) := by
  have hsplit : c :: cs = (c :: p) ++ e.begin := congrArg (c :: ·) h.split
  rw [hsplit]
  refine longest_of_stop (viable_iff.mpr (.inr ⟨c, p, hc, h.start, rfl⟩)) fun d cs' he hv => ?_
  rcases viable_iff.mp hv with hv | ⟨c', t, -, hstart, hp⟩
  · exact not_sign_of_start hv hc
  · obtain ⟨-, rfl⟩ := List.cons.inj hp
    exact h.stop d cs' he hstart

theorem consumed_unsigned {e : Extracted} (hs : ∀ c cs', cs = c :: cs' → ¬ isSign c)
    (h : Scanned bf false cs p e) : Consumed bf cs p e := by
  have hcs : unsignedPart cs = cs := by
    cases cs with
    | nil => rfl
    | cons c cs => exact unsignedPart_other (hs c cs rfl)
  have hp : unsignedPart p = p ∧ isNegative p = false := by
    cases p with
    | nil => exact ⟨rfl, rfl⟩
    | cons c p =>
      have hc := not_sign_of_start h.start
      exact ⟨unsignedPart_other hc, decide_eq_false fun he => hc (.inr (Option.some.inj he))⟩
  have hnil := digitsOf_eq_nil h.start
  refine ⟨h.split, longest_unsigned hs h, by rw [hnil, h.failbit], fun he => h.failed (hnil.mp he),
    fun he => ?_, by rw [hp.2, h.negative], by rw [hcs, h.eofbit]⟩
  rw [magnitude, hp.1]
  exact h.read fun he' => he (hnil.mpr he')

theorem consumed_signed {e : Extracted} (hc : isSign c)
    (h : Scanned bf (isNegative (c :: p)) cs p e) : Consumed bf (c :: cs) (c :: p) e := by
  have hdigits : digitsOf (c :: p) = digitsOf p := List.filterMap_cons_none (digit_sign hc)
  have hp : ∀ s, unsignedPart (c :: s) = s := fun s => unsignedPart_sign hc
  have hnil := digitsOf_eq_nil h.start
  refine ⟨congrArg (c :: ·) h.split, longest_signed hc h, by rw [hdigits, hnil, h.failbit],
    fun he => h.failed (hnil.mp (hdigits ▸ he)), fun he => ?_, h.negative, by rw [hp, h.eofbit]⟩
  rw [magnitude, hp, hdigits]
  exact h.read fun he' => he (hdigits.trans (hnil.mpr he'))

theorem base_of (bf : Basefield) {a : Nat} (ha : a = 8 ∨ a = 10) :
    let b := if bf.base = 17 then a else bf.base
    (b = 8 ∨ b = 10 ∨ b = 16) ∧ (bf.base = b ∨ bf.base = 17 ∧ b = a) := by
  cases bf <;> rcases ha with rfl | rfl <;> decide

end IntegerGrammarLemmas

open IntegerGrammarLemmas

theorem get_prefix_spec (bf : Basefield) (negative : Bool) (cs : List Int) :
    ∃ p, Scanned bf negative cs p ( get_prefix classic bf negative cs) := by
  obtain ⟨hb8, hbf8⟩ := base_of bf (.inl rfl : 8 = 8 ∨ 8 = 10)
  obtain ⟨hb10, hbf10⟩ := base_of bf (.inr rfl : 10 = 8 ∨ 10 = 10)
  unfold get_prefix
  cases cs with
  | nil =>
    refine ⟨[], scanned_nil rfl rfl ⟨rfl, rfl⟩ rfl (fun c cs' he => by cases he) (by simp) ?_⟩
    rintro ⟨-, x, c, rest, he, -⟩
    cases he
  | cons c cs =>
    dsimp only
    by_cases hzero : classic.find c = 0
    · obtain rfl := find_zero.mp hzero
      rw [if_pos hzero]
      cases cs with
      | nil => exact ⟨_, scanned_octal hb8 hbf8 fun c cs' he => by cases he⟩
      | cons x cs =>
        dsimp only
        by_cases hbase : 16 ≤ bf.base
        · rw [if_pos hbase]
          by_cases hx : classic.find x = CacheBase.hex
          · rw [if_pos hx]
            rw [find_hex] at hx
            cases cs with
            | nil => exact ⟨_, scanned_hex hbase hx fun c cs' he => by cases he⟩
            | cons c cs =>
              dsimp only
              by_cases hc : classic.find c > 16
              · rw [if_pos hc]
                exact ⟨_, scanned_lone hbase hx (find_gt.mp hc)⟩
              · rw [if_neg hc]
                refine ⟨_, scanned_hex hbase hx fun c' cs' he hc' => hc ?_⟩
                obtain ⟨rfl, rfl⟩ := List.cons.inj he
                exact find_gt.mpr hc'
          · rw [if_neg hx]
            refine ⟨_, scanned_octal hb8 hbf8 fun c cs' he _ hc => hx ?_⟩
            obtain ⟨rfl, rfl⟩ := List.cons.inj he
            exact find_hex.mpr hc
        · rw [if_neg hbase]
          have hne : bf.base ≠ 17 := by omega
          rw [if_neg hne] at hb8 hbf8
          exact ⟨_, scanned_octal hb8 hbf8 fun c cs' _ h => absurd h hbase⟩
    · have hc : c ≠ widen '0' := fun hc => hzero (find_zero.mpr hc)
      rw [if_neg hzero]
      by_cases hge : classic.find c ≥ if bf.base = 17 then 10 else bf.base
      · rw [if_pos hge]
        exact ⟨_, scanned_other hb10 hbf10 hc (Nat.not_lt.mpr hge)⟩
      · rw [if_neg hge]
        exact ⟨_, scanned_digit hb10 hbf10 hc (Nat.not_le.mp hge)⟩

/-- What is consumed is the longest beginning that can be continued to an integer. -/
theorem get_integer_spec (bf : Basefield) (input : List Int) :
    ∃ p, Consumed bf input p (get_integer classic bf input) := by
  unfold get_integer
  cases input with
  | nil =>
    obtain ⟨p, hp⟩ := get_prefix_spec bf false []
    exact ⟨p, consumed_unsigned (fun c cs' he => by cases he) hp⟩
  | cons c cs =>
    obtain ⟨hplus, hminus, -⟩ := value_marks c
    rw [← find_classic] at hplus hminus
    dsimp only
    by_cases hm : classic.find c = CacheBase.minus
    · obtain rfl := hminus.mp hm
      obtain ⟨p, hp⟩ := get_prefix_spec bf true cs
      rw [if_pos hm]
      exact ⟨_, consumed_signed (.inr rfl) hp⟩
    · rw [if_neg hm]
      by_cases hp : classic.find c = CacheBase.plus
      · obtain rfl := hplus.mp hp
        obtain ⟨p, hscan⟩ := get_prefix_spec bf false cs
        rw [if_pos hp]
        exact ⟨_, consumed_signed (.inl rfl) hscan⟩
      · obtain ⟨p, hscan⟩ := get_prefix_spec bf false (c :: cs)
        rw [if_neg hp]
        refine ⟨p, consumed_unsigned (fun c' cs' he hc => ?_) hscan⟩
        obtain ⟨rfl, rfl⟩ := List.cons.inj he
        exact hc.elim (fun h => hp (hplus.mpr h)) fun h => hm (hminus.mpr h)

end Kuhllib.Cxxrt
