import Kuhllib.Cxxrt.Cache
import Kuhllib.Lib.RangeSort

/-!
# The lookup of characters

`_CS_partition` moves two pointers towards each other and the pivot between them: it stands
at the lower pointer where a turn of the loop begins and at the upper one in the middle.

Results:
1. `partition_spec`, `quicksort_spec`: for every range, whatever stands around it.
2. `find_entry_spec`: the search in a sorted table of 31 characters.
3. `lookup_correct`: the table that is set up, sorted and searched; `init_lookup`: the one
   of the cache.
-/

namespace Kuhllib.Cxxrt

open RangeSort

namespace ScanTable

variable {α : Type} [LinearOrder α]

/-! ## The scans -/

section

variable {a : List (SortVal α)} {b e : Nat} {p : α}

theorem while_down_spec {x : SortVal α} (hx : a[b]? = some x) (hbe : b ≤ e) (he : e < a.length) :
    ∃ e' y, while_down a b e = some e' ∧ b ≤ e' ∧ e' ≤ e ∧ a[e']? = some y ∧ y.wide ≤ x.wide ∧
      ∀ i z, e' < i → i ≤ e → a[i]? = some z → x.wide < z.wide := by
  induction e with
  | zero =>
    obtain rfl : b = 0 := by omega
    refine ⟨0, x, ?_, Nat.le_refl _, Nat.le_refl _, hx, le_refl _, fun i z hi hi' => ?_⟩
    · simp only [while_down, hx, Option.bind_eq_bind, Option.bind_some, lt_irrefl, if_false]
    · omega
  | succ e ih =>
    have hy := List.getElem?_eq_getElem he
    by_cases hlt : x.wide < a[e + 1].wide
    · have hne : b ≠ e + 1 := by
        rintro rfl
        rw [hy, Option.some.injEq] at hx
        exact absurd hlt (hx ▸ lt_irrefl _)
      obtain ⟨e', y, hrun, hb, hle, hye, hyx, hall⟩ := ih (by omega) (by omega)
      refine ⟨e', y, ?_, hb, by omega, hye, hyx, fun i z hi hi' hz => ?_⟩
      · simp only [while_down, hx, hy, Option.bind_eq_bind, Option.bind_some, if_pos hlt, hrun]
      · rcases Nat.eq_or_lt_of_le hi' with rfl | hi'
        · rw [hy, Option.some.injEq] at hz
          rwa [← hz]
        · exact hall i z hi (by omega) hz
    · refine ⟨e + 1, a[e + 1], ?_, hbe, Nat.le_refl _, hy, not_lt.mp hlt, fun i z hi hi' => ?_⟩
      · simp only [while_down, hx, hy, Option.bind_eq_bind, Option.bind_some, if_neg hlt]
      · omega

theorem while_up_spec {y : SortVal α} (hy : a[e]? = some y) (n : Nat) (hbe : b ≤ e)
    (hn : e - b < n) :
    ∃ b' x, while_up a e n b = some b' ∧ b ≤ b' ∧ b' ≤ e ∧ a[b']? = some x ∧ y.wide ≤ x.wide ∧
      ∀ i z, b ≤ i → i < b' → a[i]? = some z → z.wide < y.wide := by
  have hlen := (List.getElem?_eq_some_iff.mp hy).1
  induction n generalizing b with
  | zero => omega
  | succ n ih =>
    have hx := List.getElem?_eq_getElem (show b < a.length by omega)
    by_cases hlt : a[b].wide < y.wide
    · have hne : b ≠ e := by
        rintro rfl
        rw [hx, Option.some.injEq] at hy
        exact absurd hlt (hy ▸ lt_irrefl _)
      obtain ⟨b', x, hrun, hb, hle, hxe, hyx, hall⟩ := @ih (b + 1) (by omega) (by omega)
      refine ⟨b', x, ?_, by omega, hle, hxe, hyx, fun i z hi hi' hz => ?_⟩
      · simp only [while_up, hx, hy, Option.bind_eq_bind, Option.bind_some, if_pos hlt, hrun]
      · rcases Nat.eq_or_lt_of_le hi with rfl | hi
        · rw [hx, Option.some.injEq] at hz
          rwa [← hz]
        · exact hall i z hi hi' hz
    · refine ⟨b, a[b], ?_, Nat.le_refl _, hbe, hx, not_lt.mp hlt, fun i z hi hi' => ?_⟩
      · simp only [while_up, hx, hy, Option.bind_eq_bind, Option.bind_some, if_neg hlt]
      · omega

end

/-! ## The partition -/

/-- The element at the lower pointer, once the upper one has stopped. -/
def after_down (a : List (SortVal α)) (b e : Nat) (x y : SortVal α) : List (SortVal α) × Nat :=
  if b ≠ e then if x.wide = y.wide then (a, b + 1) else ((a.set b y).set e x, b) else (a, b)

/-- The element at the upper pointer, once the lower one has stopped. -/
def after_up (a : List (SortVal α)) (b e : Nat) (x y : SortVal α) : List (SortVal α) × Nat :=
  if b ≠ e then if x.wide = y.wide then (a, e - 1) else ((a.set b y).set e x, e) else (a, e)

theorem partition_loop_succ {n : Nat} {a : List (SortVal α)} {b e : Nat} (hbe : b < e) :
    partition_loop (n + 1) a b e = (do
      let e ← while_down a b e
      let x ← a[b]?
      let y ← a[e]?
      let r := after_down a b e x y
      let b ← while_up r.1 e r.1.length r.2
      let x ← r.1[b]?
      let y ← r.1[e]?
      let r' := after_up r.1 b e x y
      partition_loop n r'.1 b r'.2) := by
  rw [partition_loop, if_pos hbe]
  rfl

/-- Between the pointers nothing is known; what they have passed is on its side of `p`. -/
structure Parting (a₀ a : List (SortVal α)) (lo hi b e : Nat) (p : α) : Prop where
  perm : a.Perm a₀
  outside : ∀ i, i < lo ∨ hi ≤ i → a[i]? = a₀[i]?
  lo_le : lo ≤ b
  le : b ≤ e
  lt_hi : e < hi
  low : ∀ i z, lo ≤ i → i < b → a[i]? = some z → z.wide ≤ p
  high : ∀ i z, e < i → i < hi → a[i]? = some z → p ≤ z.wide

variable {a₀ a : List (SortVal α)} {lo hi b b' e e' : Nat} {p : α} {x y : SortVal α}

theorem Parting.move (h : Parting a₀ a lo hi b e p) (hb : b ≤ b') (hle : b' ≤ e') (he : e' ≤ e)
    (hlow : ∀ i z, b ≤ i → i < b' → a[i]? = some z → z.wide ≤ p)
    (hhigh : ∀ i z, e' < i → i ≤ e → a[i]? = some z → p ≤ z.wide) :
    Parting a₀ a lo hi b' e' p where
  perm := h.perm
  outside := h.outside
  lo_le := h.lo_le.trans hb
  le := hle
  lt_hi := he.trans_lt h.lt_hi
  low i z hi hi' hz := by
    rcases Nat.lt_or_ge i b with hlt | hge
    · exact h.low i z hi hlt hz
    · exact hlow i z hge hi' hz
  high i z hi hi' hz := by
    rcases Nat.lt_or_ge e i with hlt | hge
    · exact h.high i z hlt hi' hz
    · exact hhigh i z hi hge hz

omit [LinearOrder α] in
theorem swap_eq (hx : a[b]? = some x) (hy : a[e]? = some y) :
    iter_swap a b e = some ((a.set b y).set e x) := by
  simp only [iter_swap, hx, hy, Option.bind_eq_bind, Option.bind_some, Option.pure_def]

theorem Parting.swap (h : Parting a₀ a lo hi b e p) (hx : a[b]? = some x) (hy : a[e]? = some y) :
    Parting a₀ ((a.set b y).set e x) lo hi b e p := by
  obtain ⟨a', hrun, hperm, -, -, hother⟩ := iter_swap_spec hx hy
  rw [swap_eq hx hy, Option.some.injEq] at hrun
  subst hrun
  have hlo := h.lo_le
  have hle := h.le
  have hhi := h.lt_hi
  refine ⟨hperm.trans h.perm, fun i hi => ?_, hlo, hle, hhi, fun i z hi hi' hz => ?_,
    fun i z hi hi' hz => ?_⟩
  · rw [hother i (by omega) (by omega)]
    exact h.outside i hi
  · rw [hother i (by omega) (by omega)] at hz
    exact h.low i z hi hi' hz
  · rw [hother i (by omega) (by omega)] at hz
    exact h.high i z hi hi' hz

omit [LinearOrder α] in
theorem get_swap (hx : a[b]? = some x) (hy : a[e]? = some y) :
    ((a.set b y).set e x)[b]? = some y ∧ ((a.set b y).set e x)[e]? = some x := by
  obtain ⟨a', hrun, -, hb, he, -⟩ := iter_swap_spec hx hy
  rw [swap_eq hx hy, Option.some.injEq] at hrun
  subst hrun
  exact ⟨hb, he⟩

/-- The pivot moves to the upper pointer. Where the lower one stays, it has something to
pass. -/
theorem after_down_spec (h : Parting a₀ a lo hi b e x.wide) (hx : a[b]? = some x)
    (hy : a[e]? = some y) (hyx : y.wide ≤ x.wide) :
    ∃ a' b' y', after_down a b e x y = (a', b') ∧ Parting a₀ a' lo hi b' e x.wide ∧
      a'[e]? = some y' ∧ y'.wide = x.wide ∧ b ≤ b' ∧
      (b' < e → b < b' ∨ ∃ z, a'[b']? = some z ∧ z.wide < x.wide) := by
  unfold after_down
  have hle := h.le
  split
  · next hne =>
    split
    · next heq =>
      refine ⟨a, b + 1, y, rfl, h.move (Nat.le_succ b) (by omega) (Nat.le_refl e)
        (fun i z hi hi' hz => ?_) (fun i z hi hi' => by omega), hy, heq.symm, Nat.le_succ b,
        fun _ => .inl (Nat.lt_succ_self b)⟩
      obtain rfl : i = b := by omega
      rw [hx, Option.some.injEq] at hz
      rw [← hz]
    · next hdiff =>
      obtain ⟨hb, he⟩ := get_swap hx hy
      exact ⟨_, b, x, rfl, h.swap hx hy, he, rfl, Nat.le_refl b,
        fun _ => .inr ⟨y, hb, lt_of_le_of_ne hyx (Ne.symm hdiff)⟩⟩
  · next heq =>
    obtain rfl : b = e := not_not.mp heq
    exact ⟨a, b, x, rfl, h, hx, rfl, Nat.le_refl b, fun hlt => absurd hlt (Nat.lt_irrefl b)⟩

/-- The pivot moves to the lower pointer. -/
theorem after_up_spec (h : Parting a₀ a lo hi b e y.wide) (hx : a[b]? = some x)
    (hy : a[e]? = some y) :
    ∃ a' e' x', after_up a b e x y = (a', e') ∧ Parting a₀ a' lo hi b e' y.wide ∧
      a'[b]? = some x' ∧ x'.wide = y.wide ∧ e' ≤ e := by
  unfold after_up
  have hle := h.le
  split
  · next hne =>
    split
    · next heq =>
      refine ⟨a, e - 1, x, rfl, h.move (Nat.le_refl b) (by omega) (Nat.sub_le e 1)
        (fun i z hi hi' => by omega) (fun i z hi hi' hz => ?_), hx, heq, Nat.sub_le e 1⟩
      obtain rfl : i = e := by omega
      rw [hy, Option.some.injEq] at hz
      rw [← hz]
    · next hdiff =>
      obtain ⟨hb, he⟩ := get_swap hx hy
      exact ⟨_, e, y, rfl, h.swap hx hy, hb, rfl, Nat.le_refl e⟩
  · next heq =>
    obtain rfl : b = e := not_not.mp heq
    exact ⟨a, b, y, rfl, h, hy, rfl, Nat.le_refl b⟩

/-- One turn of the loop: the pointers come closer. -/
theorem turn_spec (n : Nat) (h : Parting a₀ a lo hi b e p) (hlen : hi ≤ a₀.length)
    (hx : ∃ x, a[b]? = some x ∧ x.wide = p) (hbe : b < e) :
    ∃ a' b' e', partition_loop (n + 1) a b e = partition_loop n a' b' e' ∧
      Parting a₀ a' lo hi b' e' p ∧ (∃ x, a'[b']? = some x ∧ x.wide = p) ∧
      e' - b' < e - b := by
  obtain ⟨x, hx, rfl⟩ := hx
  have hlength := h.perm.length_eq
  have hlt := h.lt_hi
  obtain ⟨e₁, y, hdown, hb₁, he₁, hy, hyx, hhigh⟩ :=
    while_down_spec hx h.le (by omega : e < a.length)
  have h₁ := h.move (Nat.le_refl b) hb₁ he₁ (fun i z hi hi' => by omega)
    (fun i z hi hi' hz => (hhigh i z hi hi' hz).le)
  obtain ⟨a₂, b₂, y₂, hafter, h₂, hy₂, hyw, hb₂, hprogress⟩ := after_down_spec h₁ hx hy hyx
  have hlength₂ := h₂.perm.length_eq
  have hlt₂ := h₂.lt_hi
  obtain ⟨b₃, x₃, hup, hb₃, he₃, hx₃, hyx₃, hlow⟩ :=
    while_up_spec hy₂ a₂.length h₂.le (by omega)
  have h₃ := h₂.move hb₃ he₃ (Nat.le_refl e₁)
    (fun i z hi hi' hz => (hyw ▸ hlow i z hi hi' hz).le) (fun i z hi hi' => by omega)
  obtain ⟨a₄, e₄, x₄, hafter', h₄, hx₄, hxw, he₄⟩ := after_up_spec (hyw.symm ▸ h₃) hx₃ hy₂
  refine ⟨a₄, b₃, e₄, ?_, hyw ▸ h₄, ⟨x₄, hx₄, hxw.trans hyw⟩, ?_⟩
  · rw [partition_loop_succ hbe]
    simp only [hdown, hx, hy, hafter, hup, hx₃, hy₂, hafter', Option.bind_eq_bind,
      Option.bind_some]
  · rcases Nat.lt_or_ge b₂ e₁ with hlt' | hge
    · have hstrict : b < b₃ := by
        rcases hprogress hlt' with hb | ⟨z, hz, hzx⟩
        · omega
        · rcases Nat.eq_or_lt_of_le hb₃ with heq | hb
          · rw [← heq, hz, Option.some.injEq] at hx₃
            rw [← hx₃, hyw] at hyx₃
            exact absurd hzx (not_lt.mpr hyx₃)
          · omega
      omega
    · have hle := h₄.le
      omega

theorem partition_loop_spec (n : Nat) (h : Parting a₀ a lo hi b e p) (hlen : hi ≤ a₀.length)
    (hx : ∃ x, a[b]? = some x ∧ x.wide = p) (hn : e - b < n) :
    ∃ a' mid, partition_loop n a b e = some (a', mid) ∧ Parting a₀ a' lo hi mid mid p ∧
      ∃ x, a'[mid]? = some x ∧ x.wide = p := by
  induction n generalizing a b e with
  | zero => omega
  | succ n ih =>
    rcases Nat.lt_or_ge b e with hbe | hge
    · obtain ⟨a', b', e', hrun, h', hx', hlt⟩ := turn_spec n h hlen hx hbe
      obtain ⟨a'', mid, hrun', h''⟩ := ih h' hx' (by omega)
      exact ⟨a'', mid, hrun.trans hrun', h''⟩
    · obtain rfl : b = e := Nat.le_antisymm h.le hge
      refine ⟨a, b, ?_, h, hx⟩
      rw [partition_loop, if_neg (Nat.lt_irrefl b)]

/-- What is left alone around a range stays around it. -/
theorem range_split {β : Type} {a pre xs suf : List β} (hperm : a.Perm (pre ++ xs ++ suf))
    (houtside : ∀ i, i < pre.length ∨ pre.length + xs.length ≤ i →
      a[i]? = (pre ++ xs ++ suf)[i]?) :
    ∃ ys, a = pre ++ ys ++ suf ∧ ys.Perm xs := by
  have hfront : a.take pre.length = pre := by
    refine List.ext_getElem? fun i => ?_
    rw [List.getElem?_take]
    split
    · next hi => rw [houtside i (.inl hi), List.append_assoc, List.getElem?_append_left hi]
    · next hi => exact (List.getElem?_eq_none (Nat.le_of_not_lt hi)).symm
  have hback : a.drop (pre.length + xs.length) = suf := by
    refine List.ext_getElem? fun i => ?_
    rw [List.getElem?_drop, houtside _ (.inr (Nat.le_add_right _ _)),
      List.getElem?_append_right (by rw [List.length_append]; omega), List.length_append,
      Nat.add_sub_cancel_left]
  have hsplit : a = pre ++ (a.drop pre.length).take xs.length ++ suf := by
    conv_lhs => rw [← List.take_append_drop pre.length a, hfront,
      ← List.take_append_drop xs.length (a.drop pre.length), List.drop_drop, hback]
    rw [List.append_assoc]
  refine ⟨_, hsplit, ?_⟩
  rw [hsplit, List.append_assoc, List.append_assoc] at hperm
  exact (List.perm_append_right_iff suf).mp ((List.perm_append_left_iff pre).mp hperm)

theorem partition_spec (pre suf : List (SortVal α)) {xs : List (SortVal α)} (hxs : xs ≠ []) :
    ∃ l m r,
      partition (pre ++ xs ++ suf) pre.length (pre.length + xs.length) =
        some (pre ++ (l ++ m :: r) ++ suf, pre.length + l.length) ∧
      (l ++ m :: r).Perm xs ∧ (∀ x ∈ l, x.wide ≤ m.wide) ∧ ∀ x ∈ r, m.wide ≤ x.wide := by
  obtain ⟨p, rest, rfl⟩ := List.exists_cons_of_ne_nil hxs
  have hp : (pre ++ p :: rest ++ suf)[pre.length]? = some p := by
    rw [List.append_assoc, List.getElem?_append_right (Nat.le_refl _), Nat.sub_self]
    rfl
  have hlen : pre.length + (p :: rest).length ≤ (pre ++ p :: rest ++ suf).length := by
    simp only [List.length_append]
    omega
  have hstart : Parting (pre ++ p :: rest ++ suf) (pre ++ p :: rest ++ suf) pre.length
      (pre.length + (p :: rest).length) pre.length (pre.length + (p :: rest).length - 1) p.wide := by
    rw [List.length_cons]
    exact ⟨.refl _, fun _ _ => rfl, Nat.le_refl _, by omega, by omega,
      fun i z hi hi' => by omega, fun i z hi hi' => by omega⟩
  obtain ⟨a, mid, hrun, h, m, hm, hmp⟩ := partition_loop_spec
    ((pre ++ p :: rest ++ suf).length + 1) hstart hlen ⟨p, hp, rfl⟩ (by omega)
  obtain ⟨ys, rfl, hys⟩ := range_split h.perm h.outside
  have hlo := h.lo_le
  have hhi := h.lt_hi
  have hmid : mid - pre.length < ys.length := by
    rw [hys.length_eq]
    omega
  have hget : ∀ i x, ys[i]? = some x → (pre ++ ys ++ suf)[pre.length + i]? = some x := by
    intro i x hx
    have hi := (List.getElem?_eq_some_iff.mp hx).1
    rw [List.append_assoc, List.getElem?_append_right (Nat.le_add_right _ _),
      Nat.add_sub_cancel_left, List.getElem?_append_left hi, hx]
  have hym := hget (mid - pre.length) _ (List.getElem?_eq_getElem hmid)
  rw [Nat.add_sub_cancel' hlo, hm, Option.some.injEq] at hym
  have hcut : ys = ys.take (mid - pre.length) ++ m :: ys.drop (mid - pre.length + 1) := by
    conv_lhs => rw [← List.take_append_drop (mid - pre.length) ys,
      List.drop_eq_getElem_cons hmid, ← hym]
  refine ⟨ys.take (mid - pre.length), m, ys.drop (mid - pre.length + 1), ?_, ?_, fun x hx => ?_,
    fun x hx => ?_⟩
  · rw [← hcut, List.length_take_of_le hmid.le, Nat.add_sub_cancel' hlo]
    exact hrun
  · rwa [← hcut]
  · obtain ⟨i, hi⟩ := List.mem_iff_getElem?.mp hx
    rw [List.getElem?_take] at hi
    split at hi
    · next hlt => exact hmp ▸ h.low _ x (Nat.le_add_right _ _) (by omega) (hget i x hi)
    · cases hi
  · obtain ⟨i, hi⟩ := List.mem_iff_getElem?.mp hx
    rw [List.getElem?_drop] at hi
    have hlt := (List.getElem?_eq_some_iff.mp hi).1
    rw [hys.length_eq] at hlt
    exact hmp ▸ h.high _ x (by omega) (by omega) (hget _ x hi)

/-! ## The sort -/

theorem sorted_around {l r : List (SortVal α)} {m : SortVal α}
    (hl : l.Pairwise fun x y => x.wide ≤ y.wide) (hr : r.Pairwise fun x y => x.wide ≤ y.wide)
    (hlm : ∀ x ∈ l, x.wide ≤ m.wide) (hmr : ∀ x ∈ r, m.wide ≤ x.wide) :
    (l ++ m :: r).Pairwise fun x y => x.wide ≤ y.wide := by
  refine List.pairwise_append.mpr ⟨hl, List.pairwise_cons.mpr ⟨hmr, hr⟩, fun x hx y hy => ?_⟩
  rcases List.mem_cons.mp hy with rfl | hy
  · exact hlm x hx
  · exact (hlm x hx).trans (hmr y hy)

/-- With as many turns as the range has elements. Nothing in front of the range or behind it
is needed, and nothing there is changed. -/
theorem quicksort_spec (n : Nat) (pre xs suf : List (SortVal α)) (hn : xs.length < n) :
    ∃ ys,
      quicksort n (pre ++ xs ++ suf) pre.length (pre.length + xs.length) =
        some (pre ++ ys ++ suf) ∧
      ys.Perm xs ∧ ys.Pairwise fun x y => x.wide ≤ y.wide := by
  induction n generalizing pre xs suf with
  | zero => omega
  | succ n ih =>
    by_cases hxs : xs = []
    · subst hxs
      refine ⟨[], ?_, .refl _, .nil⟩
      rw [quicksort, if_neg (by rw [List.length_nil]; exact fun h => h rfl)]
    · obtain ⟨l, m, r, hpart, hperm, hl, hr⟩ := partition_spec pre suf hxs
      have hlen := hperm.length_eq
      rw [List.length_append, List.length_cons] at hlen
      obtain ⟨l', hrunl, hperml, hsl⟩ := ih pre l (m :: r ++ suf) (by omega)
      obtain ⟨r', hrunr, hpermr, hsr⟩ := ih (pre ++ l' ++ [m]) r suf (by omega)
      refine ⟨l' ++ m :: r', ?_, ?_, ?_⟩
      · have hne : pre.length ≠ pre.length + xs.length := by
          have hpos := List.length_pos_iff.mpr hxs
          omega
        have hstart : (pre ++ l' ++ [m]).length = pre.length + l.length + 1 := by
          simp only [List.length_append, List.length_singleton, hperml.length_eq]
        have hend : pre.length + l.length + 1 + r.length = pre.length + xs.length := by omega
        rw [hstart, hend] at hrunr
        simp only [List.append_assoc, List.cons_append, List.nil_append] at hpart hrunl hrunr ⊢
        rw [quicksort, if_pos hne]
        simp only [hpart, hrunl, hrunr, Option.bind_eq_bind, Option.bind_some]
      · exact ((hperml.append (hpermr.cons m))).trans hperm
      · exact sorted_around hsl hsr (fun x hx => hl x (hperml.mem_iff.mp hx))
          fun x hx => hr x (hpermr.mem_iff.mp hx)

/-! ## The search -/

/-- `if (*fnd != c) fnd += *fnd < c? step: -step;`, and the smaller steps inside of it. -/
def probe (scan_table : List α) (c : α) : Nat → List Nat → Option Nat
  | fnd, [] => some fnd
  | fnd, step :: steps => do
    let x ← scan_table[fnd]?
    if x ≠ c then
      if x < c then probe scan_table c (fnd + step) steps
      else if step ≤ fnd then probe scan_table c (fnd - step) steps
      else none
    else some fnd

/-- `_CS_find`. What is read outside of a table fails. -/
def find_entry (scan_table : List α) (vals_table : List Nat) (c : α) : Option Nat := do
  let fnd ← probe scan_table c 15 [8, 4, 2, 1]
  if (← scan_table[fnd]?) = c then vals_table[fnd]? else some CacheBase.none

/-- `_CS_setup_scan_table`, with the sorted characters and their values. -/
def setup_scan_table (chars : List α) : Option (List α × List Nat) := do
  let array ← quicksort 32 (chars.zipWith SortVal.mk ivals) 0 31
  pure (array.map SortVal.wide, array.map SortVal.val)

/-- Wherever the steps lead, there is an entry among the first `n`. -/
def stays (n : Nat) : Nat → List Nat → Bool
  | fnd, [] => fnd < n
  | fnd, step :: steps =>
    fnd < n && step ≤ fnd && stays n (fnd + step) steps && stays n (fnd - step) steps

/-- Where the steps lead if the character stands at position `k`. -/
def path (k : Nat) : Nat → List Nat → Nat
  | fnd, [] => fnd
  | fnd, step :: steps =>
    if fnd ≠ k then path k (if fnd < k then fnd + step else fnd - step) steps else fnd

theorem probe_stays (scan_table : List α) (c : α) {fnd : Nat} {steps : List Nat}
    (h : stays scan_table.length fnd steps = true) :
    ∃ j, j < scan_table.length ∧ probe scan_table c fnd steps = some j := by
  induction steps generalizing fnd with
  | nil => exact ⟨fnd, of_decide_eq_true h, rfl⟩
  | cons step steps ih =>
    simp only [stays, Bool.and_eq_true, decide_eq_true_eq] at h
    obtain ⟨⟨⟨hfnd, hstep⟩, hup⟩, hdown⟩ := h
    rw [probe, List.getElem?_eq_getElem hfnd, Option.bind_eq_bind, Option.bind_some]
    rw [if_pos hstep]
    split
    · split
      · exact ih hup
      · exact ih hdown
    · exact ⟨fnd, hfnd, rfl⟩

theorem probe_path {scan_table : List α} (hs : scan_table.Pairwise (· < ·)) {c : α} {k : Nat}
    (hk : scan_table[k]? = some c) {fnd : Nat} {steps : List Nat}
    (h : stays scan_table.length fnd steps = true) :
    probe scan_table c fnd steps = some (path k fnd steps) := by
  obtain ⟨hklt, rfl⟩ := List.getElem?_eq_some_iff.mp hk
  induction steps generalizing fnd with
  | nil => rfl
  | cons step steps ih =>
    simp only [stays, Bool.and_eq_true, decide_eq_true_eq] at h
    obtain ⟨⟨⟨hfnd, hstep⟩, hup⟩, hdown⟩ := h
    rw [probe, path, List.getElem?_eq_getElem hfnd, Option.bind_eq_bind, Option.bind_some]
    rcases Nat.lt_trichotomy fnd k with hlt | rfl | hgt
    · have hval := List.pairwise_iff_getElem.mp hs fnd k hfnd hklt hlt
      rw [if_pos hval.ne, if_pos hval, if_pos hlt.ne, if_pos hlt]
      exact ih hup
    · rw [if_neg (not_not.mpr rfl), if_neg (not_not.mpr rfl)]
    · have hval := List.pairwise_iff_getElem.mp hs k fnd hklt hfnd hgt
      rw [if_pos hval.ne', if_neg hval.not_gt, if_pos hstep, if_pos hgt.ne', if_neg hgt.not_gt]
      exact ih hdown

/-- Every position of a table of 31 entries is reached. -/
theorem path_reaches : ∀ k < 31, path k 15 [8, 4, 2, 1] = k := by
  decide

section

variable {scan_table : List α} {vals_table : List Nat} {c : α}

theorem find_entry_mem (hlen : scan_table.length = 31) (hs : scan_table.Pairwise (· < ·))
    {k : Nat} (hk : scan_table[k]? = some c) :
    find_entry scan_table vals_table c = vals_table[k]? := by
  have hklt := (List.getElem?_eq_some_iff.mp hk).1
  rw [find_entry, probe_path hs hk (by rw [hlen]; decide), path_reaches k (hlen ▸ hklt)]
  simp only [Option.bind_eq_bind, Option.bind_some, hk, if_true]

theorem find_entry_not_mem (hlen : scan_table.length = 31) (hc : c ∉ scan_table) :
    find_entry scan_table vals_table c = some CacheBase.none := by
  obtain ⟨j, hj, hrun⟩ := probe_stays scan_table c
    (show stays scan_table.length 15 [8, 4, 2, 1] = true by rw [hlen]; decide)
  have hne : scan_table[j] ≠ c := fun h => hc (h ▸ List.getElem_mem hj)
  simp only [find_entry, hrun, Option.bind_eq_bind, Option.bind_some,
    List.getElem?_eq_getElem hj, if_neg hne]

end

/-- The steps as the cache takes them. -/
def walk (t : Cache) (c : Int) : Nat → List Nat → Nat
  | fnd, [] => fnd
  | fnd, step :: steps =>
    if t.scan_table.getD fnd 0 ≠ c then
      walk t c (if t.scan_table.getD fnd 0 < c then fnd + step else fnd - step) steps
    else fnd

theorem probe_walk (t : Cache) (c : Int) {fnd : Nat} {steps : List Nat}
    (h : stays t.scan_table.length fnd steps = true) :
    probe t.scan_table c fnd steps = some (walk t c fnd steps) := by
  induction steps generalizing fnd with
  | nil => rfl
  | cons step steps ih =>
    simp only [stays, Bool.and_eq_true, decide_eq_true_eq] at h
    obtain ⟨⟨⟨hfnd, hstep⟩, hup⟩, hdown⟩ := h
    rw [probe, walk, List.getD_eq_getElem?_getD, List.getElem?_eq_getElem hfnd, Option.getD_some,
      Option.bind_eq_bind, Option.bind_some, if_pos hstep]
    split
    · split
      · exact ih hup
      · exact ih hdown
    · rfl

/-- The cache never reads outside of its tables. -/
theorem find_entry_cache (t : Cache) (c : Int) (hscan : t.scan_table.length = 31)
    (hvals : t.vals_table.length = 31) :
    find_entry t.scan_table t.vals_table c = some (t.find c) := by
  have hstays : stays t.scan_table.length 15 [8, 4, 2, 1] = true := by
    rw [hscan]
    decide
  obtain ⟨j, hj, hrun⟩ := probe_stays t.scan_table c hstays
  have hwalk := probe_walk t c hstays
  rw [hrun, Option.some.injEq] at hwalk
  have hfind : t.find c =
      if t.scan_table.getD j 0 = c then t.vals_table.getD j 0 else CacheBase.none := by
    rw [hwalk]
    rfl
  rw [hfind, find_entry, hrun, Option.bind_eq_bind, Option.bind_some,
    List.getD_eq_getElem?_getD, List.getD_eq_getElem?_getD, List.getElem?_eq_getElem hj,
    List.getElem?_eq_getElem (show j < t.vals_table.length by omega), Option.getD_some,
    Option.getD_some, Option.bind_eq_bind, Option.bind_some]
  exact (apply_ite some _ _ _).symm

/-! ## The table that is set up -/

/-- The characters beside the values they came with, and a search that finds each of them and
nothing else. -/
structure Lookup (chars scan_table : List α) (vals_table : List Nat) : Prop where
  sorted : scan_table.Pairwise (· < ·)
  length : scan_table.length = 31 ∧ vals_table.length = 31
  carried : (scan_table.zip vals_table).Perm (chars.zip ivals)
  found : ∀ (i : Nat) (c : α) (v : Nat), chars[i]? = some c → ivals[i]? = some v →
    find_entry scan_table vals_table c = some v
  other : ∀ c, c ∉ chars → find_entry scan_table vals_table c = some CacheBase.none

section

variable {chars : List α}

theorem setup_spec (hlen : chars.length = 31) (hd : chars.Nodup) :
    ∃ scan_table vals_table, setup_scan_table chars = some (scan_table, vals_table) ∧
      Lookup chars scan_table vals_table := by
  have hzip : (chars.zipWith SortVal.mk ivals).length = 31 := by
    rw [List.length_zipWith, hlen]
    rfl
  obtain ⟨array, hrun, hperm, hsorted⟩ :=
    quicksort_spec 32 [] (chars.zipWith SortVal.mk ivals) [] (by rw [hzip]; decide)
  rw [hzip] at hrun
  simp only [List.nil_append, List.append_nil, List.length_nil, Nat.zero_add] at hrun
  have harray : array.length = 31 := hperm.length_eq.trans hzip
  have hcarried : ((array.map SortVal.wide).zip (array.map SortVal.val)).Perm
      (chars.zip ivals) := by
    have hpairs := hperm.map fun x => (x.wide, x.val)
    rw [List.map_zipWith] at hpairs
    rw [List.zip_map', List.zip_eq_zipWith]
    exact hpairs
  have hchars : (array.map SortVal.wide).Perm chars := by
    have hfst := hcarried.map Prod.fst
    rwa [List.map_fst_zip (by simp only [List.length_map, le_refl]),
      List.map_fst_zip (hlen.trans_le (by decide))] at hfst
  have hstrict : (array.map SortVal.wide).Pairwise (· < ·) := by
    have hle := List.pairwise_map.mpr hsorted
    exact (hle.and (hchars.nodup_iff.mpr hd)).imp fun h => lt_of_le_of_ne h.1 h.2
  have hscan : (array.map SortVal.wide).length = 31 := (List.length_map ..).trans harray
  refine ⟨_, _, ?_, hstrict, ⟨hscan, (List.length_map ..).trans harray⟩, hcarried,
    fun i c v hc hv => ?_, fun c hc => ?_⟩
  · rw [setup_scan_table, hrun]
    rfl
  · have hmem : (c, v) ∈ chars.zip ivals :=
      List.mem_iff_getElem?.mpr ⟨i, List.getElem?_zip_eq_some.mpr ⟨hc, hv⟩⟩
    obtain ⟨k, hk⟩ := List.mem_iff_getElem?.mp (hcarried.mem_iff.mpr hmem)
    obtain ⟨hck, hvk⟩ := List.getElem?_zip_eq_some.mp hk
    rw [find_entry_mem hscan hstrict hck]
    exact hvk
  · exact find_entry_not_mem hscan fun h => hc (hchars.mem_iff.mp h)

end

/-- The sort, for every range, and the lookup that rests on it. -/
theorem lookup_correct (α : Type) [LinearOrder α] :
    (∀ pre xs suf : List (SortVal α), ∃ ys,
      quicksort (xs.length + 1) (pre ++ xs ++ suf) pre.length (pre.length + xs.length) =
        some (pre ++ ys ++ suf) ∧
      ys.Perm xs ∧ ys.Pairwise fun x y => x.wide ≤ y.wide) ∧
    ∀ chars : List α, chars.length = 31 → chars.Nodup →
      ∃ scan_table vals_table, setup_scan_table chars = some (scan_table, vals_table) ∧
        Lookup chars scan_table vals_table :=
  ⟨fun pre xs suf => quicksort_spec _ pre xs suf (Nat.lt_succ_self _),
    fun _ => setup_spec⟩

/-! ## The tables of the cache -/

/-- What `_CS_init` widens, with the punctuation of the `numpunct`. -/
def scanned (thousands_sep decimal_point : Int) : List Int :=
  (st.toList.take 29).map widen ++ [thousands_sep, decimal_point]

theorem lookup_correct_example :
    ∃ scan_table vals_table,
      setup_scan_table (scanned (widen ',') (widen '.')) = some (scan_table, vals_table) ∧
        Lookup (scanned (widen ',') (widen '.')) scan_table vals_table :=
  (lookup_correct Int).2 _ (by decide +kernel) (by decide +kernel)

theorem init_eq (grouping : List Int) (thousands_sep decimal_point : Int) :
    (init grouping thousands_sep decimal_point).map
        (fun t => (t.scan_table, t.vals_table)) =
      setup_scan_table (scanned thousands_sep decimal_point) := by
  simp only [init, setup_scan_table, scanned]
  cases quicksort 32 (List.zipWith SortVal.mk
    ((st.toList.take 29).map widen ++ [thousands_sep, decimal_point]) ivals) 0 31 with
  | none => rfl
  | some array => rfl

/-- With punctuation that differs from all other characters there is a cache, which looks up
what it was set up with. -/
theorem init_lookup (grouping : List Int) {thousands_sep decimal_point : Int}
    (hd : (scanned thousands_sep decimal_point).Nodup) :
    ∃ t, init grouping thousands_sep decimal_point = some t ∧
      Lookup (scanned thousands_sep decimal_point) t.scan_table t.vals_table ∧
      ∀ c, find_entry t.scan_table t.vals_table c = some (t.find c) := by
  have hlen : (scanned thousands_sep decimal_point).length = 31 := rfl
  obtain ⟨scan_table, vals_table, hsetup, h⟩ := setup_spec hlen hd
  rw [← init_eq grouping, Option.map_eq_some_iff] at hsetup
  obtain ⟨t, ht, htables⟩ := hsetup
  obtain ⟨rfl, rfl⟩ := Prod.mk.inj htables
  exact ⟨t, ht, h, fun c => find_entry_cache t c h.length.1 h.length.2⟩

end ScanTable

end Kuhllib.Cxxrt
