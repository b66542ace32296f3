import Kuhllib.Execution.RepeatEffectUntil
import Mathlib.Algebra.BigOperators.Group.List.Basic
import Mathlib.Algebra.GroupWithZero.Nat

/-!
# `async_write` and `async_read`

The senders repeat an operation on what is left of a buffer until nothing is left. The
buffer is a member of the outer function object, the functions of the repeated sender
refer to it. How the operations end, whether they complete inside `start()`, and what the
stop token says is given.

Results:
1. `written_left`: what is left of the buffer after some writes.
2. `writes_all`: what is written, and how `async_write` completes.
3. `reads_iff`: when `async_read` completes, and where the bytes are stored.
-/

namespace Kuhllib.Transfer

open RepeatEffectUntil RepeatEffectUntilLemmas

/-- A `const_buffer` or a `mutable_buffer`. -/
structure Buffer where
  iov_base : Nat
  iov_len : Nat
  deriving DecidableEq, Repr

namespace Buffer

def size (b : Buffer) : Nat := b.iov_len

/-- `operator+=`. -/
def advance (b : Buffer) (n : Nat) : Buffer :=
  let n := min n b.size
  ⟨n + b.iov_base, b.iov_len - n⟩

variable {β : Type}

/-- The bytes of a buffer in memory. -/
def bytes (b : Buffer) (mem : Nat → β) : List β := (List.range' b.iov_base b.iov_len).map mem

/-- The memory with some bytes at the beginning of a buffer. -/
def store (b : Buffer) (mem : Nat → β) (data : List β) (p : Nat) : β :=
  if b.iov_base ≤ p then (data[p - b.iov_base]?).getD (mem p) else mem p

end Buffer

variable {ε β : Type}

/-- How an operation on a buffer ends. -/
inductive Ended (ε : Type)
  | value (n : Nat)
  | error (e : ε)
  | stopped
  deriving DecidableEq, Repr

def Ended.result : Ended ε → Result ε
  | .value _ => .value
  | .error e => .error e
  | .stopped => .stopped

/-- What is added to the buffer. -/
def Ended.count : Ended ε → Nat
  | .value n => n
  | .error _ => 0
  | .stopped => 0

/-- What is left of the buffer when operation `k` is started. Operation `k` on `n` bytes ends
as `ended k n` says. -/
def left (buffer : Buffer) (ended : Nat → Nat → Ended ε) : Nat → Buffer
  | 0 => buffer
  | k + 1 =>
    let b := left buffer ended k
    b.advance (ended k b.size).count

/-- The operation state of `repeat_effect_until`. The predicate refers to the buffer. -/
def repeated (buffer : Buffer) (ended : Nat → Nat → Ended ε)
    (inline stop_requested : Nat → Bool) : Env ε where
  result k := (ended k (left buffer ended k).size).result
  inline := inline
  stop_requested := stop_requested
  predicate k := .returns (decide ((left buffer ended (k + 1)).size = 0))

/-- `async_write(socket, cbs)`; write `k` ends as `write_some k` says. -/
def async_write (cbs : Buffer) (write_some : Nat → Ended ε)
    (inline stop_requested : Nat → Bool) : Env ε :=
  repeated cbs (fun k _ => write_some k) inline stop_requested

/-- What there is to read. -/
inductive Read (ε β : Type)
  | value (data : List β)
  | error (e : ε)
  | stopped

/-- A read of `n` bytes. -/
def Read.some (n : Nat) : Read ε β → Ended ε
  | .value data => .value (min data.length n)
  | .error e => .error e
  | .stopped => .stopped

/-- The bytes that a read of `n` bytes stores. -/
def Read.stored (n : Nat) : Read ε β → List β
  | .value data => data.take n
  | .error _ => []
  | .stopped => []

/-- `async_read(socket, mbs)`; read `k` finds what `read_some k` says. -/
def async_read (mbs : Buffer) (read_some : Nat → Read ε β)
    (inline stop_requested : Nat → Bool) : Env ε :=
  repeated mbs (fun k n => (read_some k).some n) inline stop_requested

/-! ## 1. What is left -/

section

variable {buffer : Buffer} {ended : Nat → Nat → Ended ε} {inline stop_requested : Nat → Bool}

theorem bytes_advance (b : Buffer) (n : Nat) (mem : Nat → β) :
    (b.advance n).bytes mem = (b.bytes mem).drop n := by
  rw [Buffer.bytes, Buffer.bytes, ← List.map_drop, List.drop_range', Nat.mul_one, Buffer.advance,
    Buffer.size]
  rcases Nat.le_total n b.iov_len with h | h
  · rw [Nat.min_eq_left h, Nat.add_comm]
  · rw [Nat.min_eq_right h, Nat.sub_self, Nat.sub_eq_zero_of_le h]
    rfl

/-- The bytes that the first `k` writes have accepted. -/
def written (cbs : Buffer) (write_some : Nat → Ended ε) (mem : Nat → β) (k : Nat) : List β :=
  (List.range k).flatMap fun i =>
    ((left cbs (fun k _ => write_some k) i).bytes mem).take (write_some i).count

/-- They are followed by the bytes that the next write is given. -/
theorem written_left (cbs : Buffer) (write_some : Nat → Ended ε) (mem : Nat → β) (k : Nat) :
    written cbs write_some mem k ++ (left cbs (fun k _ => write_some k) k).bytes mem =
      cbs.bytes mem := by
  induction k with
  | zero => rfl
  | succ k ih =>
    rw [left, bytes_advance, written, List.range_succ, List.flatMap_append, List.flatMap_singleton,
      List.append_assoc, List.take_append_drop]
    exact ih

/-- The loop goes on behind operation `k`. -/
def GoesOn (buffer : Buffer) (ended : Nat → Nat → Ended ε) (stop_requested : Nat → Bool)
    (k : Nat) : Prop :=
  (∃ n, ended k (left buffer ended k).size = .value n) ∧ stop_requested k = false ∧
    (left buffer ended (k + 1)).size ≠ 0

theorem goesOn_iff (inline : Nat → Bool) (k : Nat) :
    (repeated buffer ended inline stop_requested).after k = none ↔
      GoesOn buffer ended stop_requested k := by
  unfold Env.after GoesOn repeated
  dsimp only
  cases hk : ended k (left buffer ended k).size with
  | error e => simp [Ended.result]
  | stopped => simp [Ended.result]
  | value n =>
    by_cases hs : stop_requested k = true
    · simp [Ended.result, hs]
    · by_cases hz : (left buffer ended (k + 1)).size = 0
      · simp [Ended.result, hs, hz]
      · simp [Ended.result, hs, hz]

/-- Operation `k` is the last one, and the sender completes with `r`. -/
def EndsWith (buffer : Buffer) (ended : Nat → Nat → Ended ε) (stop_requested : Nat → Bool)
    (k : Nat) : Result ε → Prop
  | .value => (∃ n, ended k (left buffer ended k).size = .value n) ∧ stop_requested k = false ∧
      (left buffer ended (k + 1)).size = 0
  | .error e => ended k (left buffer ended k).size = .error e
  | .stopped => ended k (left buffer ended k).size = .stopped ∨
      (∃ n, ended k (left buffer ended k).size = .value n) ∧ stop_requested k = true

theorem endsWith_iff (inline : Nat → Bool) (k : Nat) (r : Result ε) :
    (∃ evs, (repeated buffer ended inline stop_requested).after k = some evs ∧
      .complete r ∈ evs) ↔ EndsWith buffer ended stop_requested k r := by
  unfold Env.after repeated
  dsimp only
  cases hk : ended k (left buffer ended k).size with
  | error e =>
    cases r with
    | error e' =>
      simp only [Ended.result, EndsWith, hk, Option.some.injEq, Ended.error.injEq]
      constructor
      · rintro ⟨evs, rfl, he⟩
        cases List.mem_singleton.mp he
        rfl
      · rintro rfl
        exact ⟨_, rfl, List.mem_singleton_self _⟩
    | value => simp [Ended.result, EndsWith, hk]
    | stopped => simp [Ended.result, EndsWith, hk]
  | stopped => cases r <;> simp [Ended.result, EndsWith, hk]
  | value n =>
    by_cases hs : stop_requested k = true
    · cases r <;> simp [Ended.result, EndsWith, hk, hs]
    · by_cases hz : (left buffer ended (k + 1)).size = 0
      · cases r <;> simp [Ended.result, EndsWith, hk, hs, hz]
      · cases r <;> simp [Ended.result, EndsWith, hk, hs, hz]

theorem not_goesOn_iff (k : Nat) :
    ¬ GoesOn buffer ended stop_requested k ↔ ∃ r, EndsWith buffer ended stop_requested k r := by
  rw [← goesOn_iff fun _ => false, ← ne_eq, Option.ne_none_iff_exists']
  simp only [← endsWith_iff fun _ => false]
  constructor
  · rintro ⟨evs, ha⟩
    obtain ⟨e, he, hc⟩ := List.countP_pos_iff.mp (Nat.lt_of_lt_of_eq Nat.one_pos
      (completions_after ha).symm)
    cases e with
    | start i => cases hc
    | predicate i => cases hc
    | complete r => exact ⟨r, evs, ha, he⟩
  · rintro ⟨r, evs, ha, -⟩
    exact ⟨evs, ha⟩

theorem starts_iff (k : Nat) :
    (∃ n, .start k ∈ (run (repeated buffer ended inline stop_requested) n).log) ↔
      ∀ i < k, GoesOn buffer ended stop_requested i := by
  rw [start_iff]
  simp only [goesOn_iff]

theorem completes_with_iff (r : Result ε) :
    (∃ n, .complete r ∈ (run (repeated buffer ended inline stop_requested) n).log) ↔
      ∃ k, (∀ i < k, GoesOn buffer ended stop_requested i) ∧
        EndsWith buffer ended stop_requested k r := by
  simp only [complete_iff, ← goesOn_iff inline, ← endsWith_iff inline]
  constructor
  · rintro ⟨k, evs, ⟨hearlier, hlast⟩, hr⟩
    exact ⟨k, hearlier, evs, hlast, hr⟩
  · rintro ⟨k, hearlier, evs, hlast, hr⟩
    exact ⟨k, evs, ⟨hearlier, hlast⟩, hr⟩

/-- A value, as soon as nothing is left. -/
theorem completes_value_iff :
    (∃ n, .complete .value ∈ (run (repeated buffer ended inline stop_requested) n).log) ↔
      ∃ k, (∀ i ≤ k, (∃ n, ended i (left buffer ended i).size = .value n) ∧
        stop_requested i = false) ∧ (left buffer ended (k + 1)).size = 0 := by
  rw [completes_with_iff]
  constructor
  · rintro ⟨k, hearlier, hvalue, hstop, hzero⟩
    refine ⟨k, fun i hi => ?_, hzero⟩
    rcases Nat.eq_or_lt_of_le hi with rfl | hlt
    · exact ⟨hvalue, hstop⟩
    · exact ⟨(hearlier i hlt).1, (hearlier i hlt).2.1⟩
  · rintro ⟨k, hvalue, hzero⟩
    have hex : ∃ k, (left buffer ended (k + 1)).size = 0 := ⟨k, hzero⟩
    have hle : Nat.find hex ≤ k := Nat.find_min' hex hzero
    refine ⟨Nat.find hex, fun i hi => ?_, (hvalue _ hle).1, (hvalue _ hle).2, Nat.find_spec hex⟩
    obtain ⟨hv, hs⟩ := hvalue i (hi.le.trans hle)
    exact ⟨hv, hs, Nat.find_min hex hi⟩

end

/-! ## 2. Writing -/

/-- What a write is given follows what has been accepted, and the sender completes with a
value exactly when nothing is left and no stop has been requested by then, and otherwise with
what ended the writes. -/
theorem writes_all (cbs : Buffer) (write_some : Nat → Ended ε) (mem : Nat → β)
    (inline stop_requested : Nat → Bool) :
    (∀ k, (∃ n, .start k ∈ (run (async_write cbs write_some inline stop_requested) n).log) ↔
      ∀ i < k, GoesOn cbs (fun k _ => write_some k) stop_requested i) ∧
    (∀ k, written cbs write_some mem k ++ (left cbs (fun k _ => write_some k) k).bytes mem =
      cbs.bytes mem) ∧
    ((∃ n, .complete .value ∈ (run (async_write cbs write_some inline stop_requested) n).log) ↔
      ∃ k, (∀ i ≤ k, (∃ n, write_some i = .value n) ∧ stop_requested i = false) ∧
        (left cbs (fun k _ => write_some k) (k + 1)).size = 0) ∧
    (∀ e, (∃ n, .complete (.error e) ∈
        (run (async_write cbs write_some inline stop_requested) n).log) ↔
      ∃ k, (∀ i < k, GoesOn cbs (fun k _ => write_some k) stop_requested i) ∧
        write_some k = .error e) ∧
    ((∃ n, .complete .stopped ∈ (run (async_write cbs write_some inline stop_requested) n).log) ↔
      ∃ k, (∀ i < k, GoesOn cbs (fun k _ => write_some k) stop_requested i) ∧
        (write_some k = .stopped ∨ (∃ n, write_some k = .value n) ∧ stop_requested k = true)) :=
  ⟨starts_iff, written_left cbs write_some mem, completes_value_iff,
    fun e => completes_with_iff (.error e), completes_with_iff .stopped⟩

/-- All is written, but a stop has been requested. -/
theorem not_writes_all : ¬ ∀ (cbs : Buffer) (write_some : Nat → Ended Unit)
    (inline stop_requested : Nat → Bool),
    (∃ n, .complete .value ∈ (run (async_write cbs write_some inline stop_requested) n).log) ↔
      ∃ k, (∀ i ≤ k, ∃ n, write_some i = .value n) ∧
        (left cbs (fun k _ => write_some k) (k + 1)).size = 0 := by
  intro hall
  have hiff := hall ⟨0, 1⟩ (fun _ => .value 1) (fun _ => false) (fun _ => true)
  rw [async_write, completes_value_iff] at hiff
  obtain ⟨k, hk, -⟩ := hiff.mpr ⟨0, fun _ _ => ⟨1, rfl⟩, rfl⟩
  exact absurd (hk 0 (Nat.zero_le k)).2 (by decide)

/-! ## 3. Reading -/

section

/-- What is left of the buffer when read `k` is started. -/
def unread (mbs : Buffer) (read_some : Nat → Read ε β) (k : Nat) : Buffer :=
  left mbs (fun k n => (read_some k).some n) k

/-- The memory when read `k` is started. -/
def memory (mbs : Buffer) (read_some : Nat → Read ε β) (mem : Nat → β) : Nat → Nat → β
  | 0 => mem
  | k + 1 =>
    let b := unread mbs read_some k
    b.store (memory mbs read_some mem k) ((read_some k).stored b.size)

/-- The bytes that the first `k` reads have stored. -/
def received (mbs : Buffer) (read_some : Nat → Read ε β) (k : Nat) : List β :=
  (List.range k).flatMap fun i => (read_some i).stored (unread mbs read_some i).size

/-- How much there is to read. -/
def Read.available : Read ε β → Nat
  | .value data => data.length
  | .error _ => 0
  | .stopped => 0

variable {mbs : Buffer} {read_some : Nat → Read ε β}

theorem received_succ (k : Nat) : received mbs read_some (k + 1) =
    received mbs read_some k ++ (read_some k).stored (unread mbs read_some k).size := by
  rw [received, List.range_succ, List.flatMap_append, List.flatMap_singleton]
  rfl

theorem stored_length (r : Read ε β) (n : Nat) :
    (r.stored n).length = (r.some n).count ∧ (r.stored n).length = min r.available n := by
  cases r with
  | value data => simp [Read.stored, Read.some, Ended.count, Read.available, Nat.min_comm]
  | error e => simp [Read.stored, Read.some, Ended.count, Read.available]
  | stopped => simp [Read.stored, Read.some, Ended.count, Read.available]

/-- The buffer begins behind the bytes that have been stored. -/
theorem unread_eq (k : Nat) :
    (unread mbs read_some k).iov_base = mbs.iov_base + (received mbs read_some k).length ∧
      (unread mbs read_some k).size + (received mbs read_some k).length = mbs.size := by
  induction k with
  | zero => exact ⟨rfl, rfl⟩
  | succ k ih =>
    obtain ⟨hcount, havailable⟩ := stored_length (read_some k) (unread mbs read_some k).size
    have hstep : unread mbs read_some (k + 1) = (unread mbs read_some k).advance
        ((read_some k).stored (unread mbs read_some k).size).length := by
      rw [hcount]
      rfl
    rw [hstep, received_succ, List.length_append]
    dsimp only [Buffer.advance, Buffer.size] at ih havailable ⊢
    omega

theorem unread_size (mbs : Buffer) (read_some : Nat → Read ε β) (k : Nat) :
    (unread mbs read_some k).size =
    mbs.size - ((List.range k).map fun i => (read_some i).available).sum := by
  induction k with
  | zero => rfl
  | succ k ih =>
    obtain ⟨-, hsize⟩ := @unread_eq _ _ mbs read_some k
    obtain ⟨-, hsize'⟩ := @unread_eq _ _ mbs read_some (k + 1)
    have havailable := (stored_length (read_some k) (unread mbs read_some k).size).2
    rw [received_succ, List.length_append] at hsize'
    rw [List.range_succ, List.map_append, List.map_singleton, List.sum_append, List.sum_singleton]
    omega

theorem store_append (b : Buffer) (mem : Nat → β) (data data' : List β) (n : Nat) :
    (⟨b.iov_base + data.length, n⟩ : Buffer).store (b.store mem data) data' =
      b.store mem (data ++ data') := by
  funext p
  unfold Buffer.store
  dsimp only
  by_cases hlow : b.iov_base ≤ p
  · rw [if_pos hlow, if_pos hlow]
    by_cases hhigh : b.iov_base + data.length ≤ p
    · rw [if_pos hhigh, List.getElem?_append_right (by omega),
        List.getElem?_eq_none (l := data) (by omega)]
      rw [show p - b.iov_base - data.length = p - (b.iov_base + data.length) by omega]
      rfl
    · rw [if_neg hhigh, List.getElem?_append_left (by omega)]
  · rw [if_neg hlow, if_neg hlow, if_neg (by omega)]

/-- The bytes are stored without a gap. -/
theorem memory_eq (mem : Nat → β) (k : Nat) :
    memory mbs read_some mem k = mbs.store mem (received mbs read_some k) := by
  induction k with
  | zero =>
    funext p
    simp [memory, received, Buffer.store]
  | succ k ih =>
    have hbuffer : unread mbs read_some k =
        ⟨mbs.iov_base + (received mbs read_some k).length, (unread mbs read_some k).iov_len⟩ := by
      rw [← (unread_eq k).1]
    rw [memory, ih, received_succ, hbuffer, store_append]

end

/-- `async_read` issues finitely many reads and completes, and the bytes are stored from the
beginning of the buffer on. This is so exactly if some read fails or is stopped, or a stop is
requested when one has ended, or there is enough to read. -/
theorem reads_iff (mbs : Buffer) (read_some : Nat → Read ε β) (mem : Nat → β)
    (inline stop_requested : Nat → Bool) :
    ((∃ m, ∀ k, (∃ n, .start k ∈ (run (async_read mbs read_some inline stop_requested) n).log) →
        k ≤ m) ∧
      (∃ r n, .complete r ∈ (run (async_read mbs read_some inline stop_requested) n).log) ∧
      ∀ k, memory mbs read_some mem k = mbs.store mem (received mbs read_some k)) ↔
    ∃ k, (∀ data, read_some k ≠ .value data) ∨ stop_requested k = true ∨
      mbs.size ≤ ((List.range (k + 1)).map fun i => (read_some i).available).sum := by
  have hgoes (k : Nat) : ¬ GoesOn mbs (fun k n => (read_some k).some n) stop_requested k ↔
      (∀ data, read_some k ≠ .value data) ∨ stop_requested k = true ∨
        mbs.size ≤ ((List.range (k + 1)).map fun i => (read_some i).available).sum := by
    have hzero : (left mbs (fun k n => (read_some k).some n) (k + 1)).size ≠ 0 ↔
        ¬ mbs.size ≤ ((List.range (k + 1)).map fun i => (read_some i).available).sum := by
      rw [show (left mbs (fun k n => (read_some k).some n) (k + 1)).size = _ from
        unread_size mbs read_some (k + 1)]
      omega
    have hvalue : (∃ n, (read_some k).some (left mbs (fun k n => (read_some k).some n) k).size =
        .value n) ↔ ∃ data, read_some k = .value data := by
      cases read_some k with
      | value data => exact iff_of_true ⟨_, rfl⟩ ⟨data, rfl⟩
      | error e => exact iff_of_false (by simp [Read.some]) (by simp)
      | stopped => exact iff_of_false (by simp [Read.some]) (by simp)
    rw [GoesOn, hzero, hvalue, not_and_or, not_and_or, not_not, Bool.not_eq_false, not_exists]
  simp only [← hgoes]
  constructor
  · rintro ⟨-, ⟨r, hr⟩, -⟩
    obtain ⟨k, -, hend⟩ := (completes_with_iff r).mp hr
    exact ⟨k, (not_goesOn_iff k).mpr ⟨r, hend⟩⟩
  · rintro ⟨k, hk⟩
    refine ⟨⟨k, fun i hi => ?_⟩, ?_, memory_eq mem⟩
    · by_contra hlt
      exact hk ((starts_iff i).mp hi k (by omega))
    · classical
      have hex : ∃ k, ¬ GoesOn mbs (fun k n => (read_some k).some n) stop_requested k := ⟨k, hk⟩
      obtain ⟨r, hend⟩ := (not_goesOn_iff _).mp (Nat.find_spec hex)
      exact ⟨r, (completes_with_iff r).mpr
        ⟨Nat.find hex, fun i hi => not_not.mp (Nat.find_min hex hi), hend⟩⟩

/-- The other side has closed the connection. -/
theorem not_reads : ¬ ∀ (mbs : Buffer) (read_some : Nat → Read Unit UInt8)
    (inline stop_requested : Nat → Bool),
    ∃ r n, .complete r ∈ (run (async_read mbs read_some inline stop_requested) n).log := by
  intro hall
  obtain ⟨r, hr⟩ := hall ⟨0, 1⟩ (fun _ => .value []) (fun _ => true) (fun _ => false)
  obtain ⟨k, -, hend⟩ := (completes_with_iff r).mp hr
  refine (not_goesOn_iff k).mpr ⟨r, hend⟩ ⟨⟨0, rfl⟩, rfl, ?_⟩
  rw [show (left ⟨0, 1⟩ (fun k n => ((.value [] : Read Unit UInt8)).some n) (k + 1)).size = _ from
    unread_size ⟨0, 1⟩ (fun _ => .value []) (k + 1)]
  simp [Read.available, Buffer.size]

end Kuhllib.Transfer
