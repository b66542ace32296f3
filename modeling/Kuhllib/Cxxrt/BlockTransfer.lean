import Kuhllib.Cxxrt.BufferIterators
import Kuhllib.Lib.Supply

/-!
# `sgetn` and `sputn` against single characters

`xsgetn` and `xsputn` copy what the areas hold and call `sbumpc` and `sputc` where there is nothing
to copy. Single calls would leave the buffer in the same state, if they are stopped where there is
no character or one is refused.

Results:
1. `bump_each_block`, `put_until_block`: a block is what single characters are.
2. `block_transfer_eq`: the same for all characters.
-/

namespace Kuhllib.Cxxrt

section

variable {σ α : Type} (b : Streambuf σ α)

/-- Up to `n` calls of `sbumpc`; the characters. -/
def bump_each : Nat → σ → Option (σ × List α)
  | 0, s => some (s, [])
  | n + 1, s => do
    let (s, c) ← b.sbumpc s
    match c with
    | none => some (s, [])
    | some c => do
      let (s, cs) ← bump_each n s
      some (s, c :: cs)

/-- `sputc` until a character is refused; how many were taken. -/
def put_until : σ → List α → Option (σ × Nat)
  | s, [] => some (s, 0)
  | s, c :: cs => do
    let (s, r) ← b.sputc s c
    if r.isNone then some (s, 0)
    else do
      let (s, n) ← put_until s cs
      some (s, n + 1)

end

/-- What a class derived from `basic_streambuf` has to keep: `ok` holds from construction on, the
pointers are in order, and the areas have fewer than `2 ^ 31` characters. -/
structure Streambuf.Contract {σ α : Type} (b : Streambuf σ α) (ok : σ → Prop) : Prop
    extends b.Lawful ok where
  load_with : ∀ s a p, b.load (b.with_areas s a) p = b.load s p
  get_area : ∀ s, ok s → (b.areas s).gcur ≤ (b.areas s).gend ∧
    (b.areas s).gend - (b.areas s).gcur < 2 ^ 31
  put_area : ∀ s, ok s → (b.areas s).pend - (b.areas s).pcur < 2 ^ 31
  sbumpc : ∀ s s' r, ok s → b.sbumpc s = some (s', r) → ok s'

namespace BlockTransferLemmas

open BufferIteratorsLemmas StringbufLemmas

variable {σ α : Type} {b : Streambuf σ α} {ok : σ → Prop} {s s' : σ} {cs : List α}

/-! ## 1. Blocks -/

theorem read_chars_with (h : b.Contract ok) (a : Areas) (p : Int) (k : Nat) (s : σ) :
    b.read_chars (b.with_areas s a) p k = b.read_chars s p k := by
  induction k generalizing p with
  | zero => rfl
  | succ k ih => rw [Streambuf.read_chars, Streambuf.read_chars, h.load_with, ih]

theorem shift (p : Int) (i : Nat) : p + 1 + (i : Int) = p + ((i + 1 : Nat) : Int) := by
  rw [Nat.cast_add, Nat.cast_one, Int.add_assoc, Int.add_comm 1]

/-- The characters of the get area, one by one. -/
theorem bump_each_block (h : b.Contract ok) (k n : Nat)
    (hroom : ∀ i : Nat, i < k → (b.areas s).gcur + i ≠ (b.areas s).gend) :
    bump_each b (k + n) s = (b.read_chars s (b.areas s).gcur k).bind fun cs =>
      (bump_each b n (b.with_areas s { b.areas s with gcur := (b.areas s).gcur + k })).map
        fun r => (r.1, cs ++ r.2) := by
  induction k generalizing s with
  | zero =>
    rw [Nat.zero_add, Nat.cast_zero, Int.add_zero, h.with_self]
    show _ = (bump_each b n s).map fun r => (r.1, [] ++ r.2)
    simp only [List.nil_append, Prod.mk.eta]
    exact (congrFun Option.map_id _).symm
  | succ k ih =>
    have hne : (b.areas s).gcur ≠ (b.areas s).gend := by
      have := hroom 0 (Nat.succ_pos _)
      rwa [Nat.cast_zero, Int.add_zero] at this
    rw [Nat.add_right_comm, bump_each, Streambuf.sbumpc, if_pos hne, Streambuf.read_chars]
    cases b.load s (b.areas s).gcur with
    | none => rfl
    | some c =>
      simp only [Option.bind_eq_bind, Option.bind_some]
      have hrec := ih (s := b.with_areas s { b.areas s with gcur := (b.areas s).gcur + 1 })
        (fun i hi => by
          rw [h.areas_with, shift]
          exact hroom (i + 1) (Nat.succ_lt_succ hi))
      rw [hrec, h.areas_with, read_chars_with h]
      cases b.read_chars s ((b.areas s).gcur + 1) k with
      | none => rfl
      | some cs =>
        simp only [Option.bind_some, h.with_with, shift]
        cases bump_each b n _ <;> rfl

/-- Characters that fill the put area, one by one. -/
theorem put_until_block (h : b.Lawful ok) (cs ds : List α)
    (hroom : ∀ i : Nat, i < cs.length → (b.areas s).pcur + i ≠ (b.areas s).pend) :
    put_until b s (cs ++ ds) = (b.write_chars s (b.areas s).pcur cs).bind fun s' =>
      (put_until b (b.with_areas s' { b.areas s with pcur := (b.areas s).pcur + cs.length }) ds).map
        fun r => (r.1, cs.length + r.2) := by
  induction cs generalizing s with
  | nil =>
    show put_until b s ds = (put_until b (b.with_areas s { b.areas s with
      pcur := (b.areas s).pcur + (0 : Nat) }) ds).map fun r => (r.1, 0 + r.2)
    rw [Nat.cast_zero, Int.add_zero, h.with_self]
    simp only [Nat.zero_add, Prod.mk.eta]
    exact (congrFun Option.map_id _).symm
  | cons c cs ih =>
    have hne : (b.areas s).pcur ≠ (b.areas s).pend := by
      have := hroom 0 (Nat.succ_pos _)
      rwa [Nat.cast_zero, Int.add_zero] at this
    rw [List.cons_append, put_until, Streambuf.sputc, Streambuf.write_chars]
    dsimp only
    rw [if_neg hne]
    cases b.store s (b.areas s).pcur c with
    | none => rfl
    | some s₁ =>
      simp only [Option.bind_eq_bind, Option.bind_some, Option.isNone_some, Bool.false_eq_true,
        if_false]
      have hrec := ih (s := b.with_areas s₁ { b.areas s with pcur := (b.areas s).pcur + 1 })
        (fun i hi => by
          rw [h.areas_with, shift]
          exact hroom (i + 1) (Nat.succ_lt_succ hi))
      rw [h.areas_with, write_chars_with h] at hrec
      simp only [hrec, Option.bind_map]
      cases b.write_chars s₁ ((b.areas s).pcur + 1) cs with
      | none => rfl
      | some s₂ =>
        simp only [Option.bind_some, Function.comp_apply, h.with_with, shift, List.length_cons,
          Nat.add_right_comm]
        cases put_until b _ ds <;> rfl

theorem gbump_eq {a : Areas} {n : Int} (hn : 0 ≤ n ∧ n < 2 ^ 31) :
    a.gbump n = { a with gcur := a.gcur + n } := by
  rw [Areas.gbump, to_int_eq ⟨Int.le_trans (by decide) hn.1, hn.2⟩]

theorem ok_bump_each (h : b.Contract ok) {n : Nat} (hok : ok s)
    (hbump : bump_each b n s = some (s', cs)) : ok s' := by
  induction n generalizing s cs with
  | zero =>
    cases hbump
    exact hok
  | succ n ih =>
    rw [bump_each] at hbump
    obtain ⟨⟨s₁, c⟩, hs₁, hrest⟩ := Option.bind_eq_some_iff.mp hbump
    have hok₁ := h.sbumpc s s₁ c hok hs₁
    cases c with
    | none =>
      cases hrest
      exact hok₁
    | some c =>
      obtain ⟨⟨s₂, cs₂⟩, hs₂, heq⟩ := Option.bind_eq_some_iff.mp hrest
      cases heq
      exact ih hok₁ hs₂

theorem length_read_chars {p : Int} {k : Nat} (h : b.read_chars s p k = some cs) :
    cs.length = k := by
  induction k generalizing p cs with
  | zero =>
    cases h
    rfl
  | succ k ih =>
    rw [Streambuf.read_chars] at h
    obtain ⟨c, -, hrest⟩ := Option.bind_eq_some_iff.mp h
    obtain ⟨ds, hds, heq⟩ := Option.bind_eq_some_iff.mp hrest
    cases heq
    rw [List.length_cons, ih hds]

/-! ## 2. The loops -/

theorem short_of_area (h : b.Lawful ok)
    (hsmall : ∀ s, ok s → (b.areas s).pend - (b.areas s).pcur < 2 ^ 31) (hok : ok s) :
    Short b s cs := by
  induction cs generalizing s with
  | nil => trivial
  | cons c cs ih =>
    exact ⟨.inr (hsmall s hok), fun s' r hput => ih (h.sputc s c s' r hok hput)⟩

theorem xsgetn_loop_eq (h : b.Contract ok) {fuel n : Nat} (hok : ok s) (got : List α)
    (hfuel : n ≤ got.length + fuel) :
    b.xsgetn_loop fuel n s got =
      (bump_each b (n - got.length) s).map fun r => (r.1, got ++ r.2) := by
  induction fuel generalizing s got with
  | zero =>
    rw [Nat.sub_eq_zero_of_le (show n ≤ got.length from hfuel), bump_each, Option.map_some,
      List.append_nil]
    rfl
  | succ fuel ih =>
    rw [Streambuf.xsgetn_loop]
    split
    · next hlt =>
      have hlt : got.length < n := Int.ofNat_lt.mp hlt
      obtain ⟨horder, hshort⟩ := h.get_area s hok
      dsimp only
      split
      · next hne =>
        generalize hk : (if (b.areas s).gend - (b.areas s).gcur < (n : Int) - got.length then
          (b.areas s).gend - (b.areas s).gcur else (n : Int) - got.length) = csize
        obtain ⟨k, rfl⟩ : ∃ k : Nat, csize = k := Int.eq_ofNat_of_zero_le (by split at hk <;> omega)
        have hle : 0 < k ∧ k ≤ n - got.length ∧
            (k : Int) ≤ (b.areas s).gend - (b.areas s).gcur := by
          split at hk <;> omega
        have hroom : ∀ i : Nat, i < k → (b.areas s).gcur + i ≠ (b.areas s).gend := by
          omega
        have hstep := bump_each_block h k 0 hroom
        have hall := bump_each_block h k (n - got.length - k) hroom
        rw [Nat.add_sub_cancel' hle.2.1] at hall
        rw [if_neg (Int.not_lt.mpr (Int.natCast_nonneg k)), Int.toNat_natCast, hall,
          gbump_eq ⟨Int.natCast_nonneg k, Int.lt_of_le_of_lt hle.2.2 hshort⟩]
        cases hcs : b.read_chars s (b.areas s).gcur k with
        | none => rfl
        | some cs =>
          rw [hcs] at hstep
          have hlen := length_read_chars hcs
          have hrest : n - (got ++ cs).length = n - got.length - k := by
            rw [List.length_append, hlen, Nat.sub_sub]
          have hloop := ih (ok_bump_each h hok hstep) (got ++ cs) (by
            rw [List.length_append, hlen]
            omega)
          rw [hrest] at hloop
          simp only [Option.bind_eq_bind, Option.bind_some, Option.map_map, hloop]
          congr 1
          funext r
          rw [Function.comp_apply, List.append_assoc]
      · next heq =>
        obtain ⟨m, hm⟩ : ∃ m, n - got.length = m + 1 :=
          Nat.exists_eq_succ_of_ne_zero (Nat.sub_ne_zero_of_lt hlt)
        rw [hm, bump_each]
        cases hbump : b.sbumpc s with
        | none => rfl
        | some r =>
          obtain ⟨s₁, c⟩ := r
          cases c with
          | none => simp
          | some c =>
            have hrest : n - (got ++ [c]).length = m := by
              rw [List.length_append, List.length_singleton]
              omega
            have hloop := ih (h.sbumpc s s₁ _ hok hbump) (got ++ [c]) (by
              rw [List.length_append, List.length_singleton]
              omega)
            rw [hrest] at hloop
            simp only [Option.bind_eq_bind, Option.bind_some, hloop]
            cases bump_each b m s₁ <;> simp
    · next hge =>
      have hge : n ≤ got.length := Nat.not_lt.mp fun hlt => hge (Int.ofNat_lt.mpr hlt)
      rw [Nat.sub_eq_zero_of_le hge, bump_each, Option.map_some, List.append_nil]

theorem xsputn_loop_eq (h : b.Lawful ok)
    (hsmall : ∀ s, ok s → (b.areas s).pend - (b.areas s).pcur < 2 ^ 31) {fuel : Nat} (hok : ok s)
    (hfuel : cs.length ≤ fuel) (count : Nat) :
    b.xsputn_loop fuel s cs count = (put_until b s cs).map fun r => (r.1, count + r.2) := by
  induction fuel generalizing s cs count with
  | zero =>
    obtain rfl := List.length_eq_zero_iff.mp (Nat.le_zero.mp hfuel)
    rfl
  | succ fuel ih =>
    cases cs with
    | nil => rfl
    | cons c cs =>
      rw [Streambuf.xsputn_loop]
      dsimp only
      split
      · next hne =>
        obtain ⟨k, hk, hpos, hle, hbump, hroom⟩ :=
          block_eq h hok (short_of_area h hsmall hok) hne
        have htake : ((c :: cs).take k).length = k := List.length_take_of_le hle
        have hall := put_until_block h ((c :: cs).take k) ((c :: cs).drop k) hroom
        have hwrite := put_each_write h hroom
        rw [List.take_append_drop, htake] at hall
        rw [htake] at hwrite
        rw [hk, if_neg (Int.not_lt.mpr (Int.natCast_nonneg k)), Int.toNat_natCast, hbump, hall]
        cases hs' : b.write_chars s (b.areas s).pcur ((c :: cs).take k) with
        | none => rfl
        | some s' =>
          rw [hs'] at hwrite
          have hrest : ((c :: cs).drop k).length ≤ fuel := by
            rw [List.length_drop]
            exact Nat.le_of_lt_succ (Nat.lt_of_lt_of_le (Nat.sub_lt (Nat.succ_pos _) hpos) hfuel)
          have hloop := ih (ok_put_each h hok hwrite) hrest (count + k)
          simp only [Option.bind_eq_bind, Option.bind_some, Option.map_map, hloop]
          congr 1
          funext r
          rw [Function.comp_apply, Nat.add_assoc]
      · rw [put_until]
        cases hput : b.sputc s c with
        | none => rfl
        | some r =>
          obtain ⟨s₁, r⟩ := r
          cases r with
          | none => rfl
          | some c' =>
            have hloop := ih (h.sputc s c s₁ _ hok hput) (Nat.le_of_succ_le_succ hfuel) (count + 1)
            simp only [Option.bind_eq_bind, Option.bind_some, Option.isNone_some,
              Bool.false_eq_true, if_false, hloop]
            cases put_until b s₁ cs <;> simp [Nat.add_comm, Nat.add_left_comm]

/-- `sputn` is what single characters are. -/
theorem sputn_eq (h : b.Lawful ok)
    (hsmall : ∀ s, ok s → (b.areas s).pend - (b.areas s).pcur < 2 ^ 31) (hok : ok s) :
    b.sputn s cs = put_until b s cs := by
  unfold Streambuf.sputn
  dsimp only
  split
  · next hlt =>
    have hroom : ∀ i : Nat, i < cs.length → (b.areas s).pcur + i ≠ (b.areas s).pend := by
      omega
    have hblock := put_until_block h cs [] hroom
    have hlen : (cs.length : Int) < 2 ^ 31 := Int.lt_trans hlt (hsmall s hok)
    rw [List.append_nil] at hblock
    rw [hblock, pbump_eq ⟨Int.natCast_nonneg _, hlen⟩]
    rfl
  · rw [xsputn_loop_eq h hsmall hok (Nat.le_refl _)]
    simp

end BlockTransferLemmas

open BlockTransferLemmas BufferIteratorsLemmas

/-- Blocks are what single calls are, the state of the buffer included. -/
theorem block_transfer_eq {σ α : Type} {b : Streambuf σ α} {ok : σ → Prop} (h : b.Contract ok)
    {s : σ} (hok : ok s) :
    (∀ n : Nat, b.sgetn s n = bump_each b n s) ∧ ∀ cs, b.sputn s cs = put_until b s cs := by
  refine ⟨fun n => ?_, fun cs => sputn_eq h.toLawful h.put_area hok⟩
  have hloop := xsgetn_loop_eq h hok [] (Nat.le_add_left n 0)
  rw [Streambuf.sgetn, Int.toNat_natCast, hloop, List.length_nil, Nat.sub_zero]
  simp

/-! ## 3. A device -/

/-- A device that can be read, too. What `underflow` gives is a chunk of the input: an area, or a
character without one. -/
structure Pipe (α : Type) extends Device α where
  chunks : List (Chunk α)

namespace Pipe

variable {α : Type}

/-- The area lies below the address 0. -/
def place (s : Pipe α) (cs : List α) (chunks : List (Chunk α)) : Pipe α :=
  { s with
    areas := s.areas.setg (-cs.length) (-cs.length) 0
    memory := fun p => (if 0 ≤ p + cs.length then cs[(p + cs.length).toNat]? else none).getD
      (s.memory p)
    chunks := chunks }

def underflow (s : Pipe α) : Option (Pipe α × Option α) :=
  match s.chunks with
  | [] => some (s, none)
  | .single c :: _ => some (s, some c)
  | .area c cs :: chunks => some (s.place (c :: cs) chunks, some c)

def uflow (s : Pipe α) : Option (Pipe α × Option α) :=
  match s.chunks with
  | [] => some (s, none)
  | .single c :: chunks => some ({ s with chunks := chunks }, some c)
  | .area c cs :: chunks =>
    let s := s.place (c :: cs) chunks
    some ({ s with areas := { s.areas with gcur := s.areas.gcur + 1 } }, some c)

def overflow (s : Pipe α) (c : Option α) : Option (Pipe α × Option α) := do
  let (d, r) ← s.toDevice.overflow c
  some ({ s with toDevice := d }, r)

def buf : Streambuf (Pipe α) α where
  areas s := s.areas
  with_areas s a := { s with areas := a }
  load s p := some (s.memory p)
  store s p c := some { s with memory := Function.update s.memory p c }
  underflow := underflow
  uflow := uflow
  pbackfail s _ := some (s, none)
  overflow := overflow

/-- The pointers are in order, and no area is too large. -/
structure Ok (s : Pipe α) : Prop where
  get_order : s.areas.gcur ≤ s.areas.gend
  get_short : s.areas.gend - s.areas.gcur < 2 ^ 31
  put_order : s.areas.pcur ≤ s.areas.pend
  put_short : s.areas.pend - s.areas.pcur < 2 ^ 31
  chunks : ∀ chunk ∈ s.chunks, chunk.elems.length < 2 ^ 31
  script : ∀ call ∈ s.script, call.2 < 2 ^ 31

theorem place_ok {s : Pipe α} (h : s.Ok) {c : α} {cs : List α} {chunks : List (Chunk α)}
    (hchunks : s.chunks = .area c cs :: chunks) : (s.place (c :: cs) chunks).Ok := by
  have hsize : (c :: cs).length < 2 ^ 31 := h.chunks (.area c cs) (hchunks ▸ List.mem_cons_self)
  have horder : -((c :: cs).length : Int) ≤ 0 := by omega
  have hshort : (0 : Int) - -((c :: cs).length : Int) < 2 ^ 31 := by omega
  exact { h with
    get_order := horder
    get_short := hshort
    chunks := fun chunk hmem => h.chunks chunk (hchunks ▸ List.mem_cons_of_mem _ hmem) }

theorem bump_ok {s : Pipe α} (h : s.Ok) (hne : s.areas.gcur ≠ s.areas.gend) :
    Ok { s with areas := { s.areas with gcur := s.areas.gcur + 1 } } where
  get_order := Int.add_one_le_of_lt (lt_of_le_of_ne h.get_order hne)
  get_short := Int.lt_of_le_of_lt (Int.sub_le_sub_left (Int.le_add_one (Int.le_refl _)) _)
    h.get_short
  put_order := h.put_order
  put_short := h.put_short
  chunks := h.chunks
  script := h.script

theorem buf_contract : (buf (α := α)).Contract Ok where
  areas_with _ _ := rfl
  with_with _ _ _ := rfl
  with_self _ := rfl
  areas_store _ _ _ _ h := by
    cases h
    rfl
  store_with _ _ _ _ := rfl
  load_with _ _ _ := rfl
  order _ h := h.put_order
  get_area _ h := ⟨h.get_order, h.get_short⟩
  put_area _ h := h.put_short
  sputc s c s' r h hput := by
    unfold Streambuf.sputc at hput
    dsimp only at hput
    split at hput
    · obtain ⟨⟨d, r'⟩, hd, heq⟩ := Option.bind_eq_some_iff.mp hput
      cases heq
      unfold Device.overflow at hd
      split at hd
      · cases hd
        exact h
      · next takes size script hscript =>
        cases hd
        have hsize : size < 2 ^ 31 := h.script (takes, size) (hscript ▸ List.mem_cons_self)
        exact { h with
          put_order := Int.natCast_nonneg _
          put_short := by
            show (size : Int) - 0 < 2 ^ 31
            omega
          script := fun call hmem => h.script call (hscript ▸ List.mem_cons_of_mem _ hmem) }
    · next hne =>
      cases hput
      have horder : s.areas.pcur < s.areas.pend := lt_of_le_of_ne h.put_order hne
      exact { h with
        put_order := Int.add_one_le_of_lt horder
        put_short := Int.lt_of_le_of_lt (Int.sub_le_sub_left (Int.le_add_one (Int.le_refl _)) _)
          h.put_short }
  sbumpc s s' r h hbump := by
    unfold Streambuf.sbumpc at hbump
    split at hbump
    · next hne =>
      cases hbump
      exact bump_ok h hne
    · simp only [buf, uflow] at hbump
      split at hbump
      · cases hbump
        exact h
      · next hchunks =>
        cases hbump
        exact { h with
          chunks := fun chunk hmem => h.chunks chunk (hchunks ▸ List.mem_cons_of_mem _ hmem) }
      · next c cs chunks hchunks =>
        cases hbump
        have hne : -((c :: cs).length : Int) ≠ 0 := by
          rw [List.length_cons]
          omega
        exact bump_ok (place_ok h hchunks) hne

/-- No area at the beginning. -/
def new (script : List (Bool × Nat)) (chunks : List (Chunk Char)) : Pipe Char :=
  ⟨Device.new 0 script, chunks⟩

theorem ok_new {script : List (Bool × Nat)} {chunks : List (Chunk Char)}
    (hscript : ∀ call ∈ script, call.2 < 2 ^ 31)
    (hchunks : ∀ chunk ∈ chunks, chunk.elems.length < 2 ^ 31) : (new script chunks).Ok where
  get_order := Int.le_refl _
  get_short := (by decide : (0 : Int) - 0 < 2 ^ 31)
  put_order := Int.le_refl _
  put_short := (by decide : (0 : Int) - 0 < 2 ^ 31)
  chunks := hchunks
  script := hscript

end Pipe

/-- Areas of two characters and of one, and one without an area. The put areas are for two
characters and for none. -/
theorem block_transfer_eq_example :
    let s := Pipe.new [(true, 2), (true, 0)] [.area 'a' ['b'], .single 'c', .area 'd' []]
    Pipe.buf.sgetn s 5 = bump_each Pipe.buf 5 s ∧
      Pipe.buf.sputn s "hello".toList = put_until Pipe.buf s "hello".toList := by
  intro s
  have hok : s.Ok := Pipe.ok_new (by decide) (by decide)
  obtain ⟨hget, hput⟩ := block_transfer_eq Pipe.buf_contract hok
  exact ⟨hget 5, hput _⟩

end Kuhllib.Cxxrt
