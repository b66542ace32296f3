import Mathlib.Data.Fin.Rev
import Mathlib.Data.Fin.VecNotation
import Mathlib.Data.Fintype.Basic
import Mathlib.Tactic.FinCases

/-!
# Endpoints as socket addresses

`get_address` writes the address of an endpoint as a `sockaddr_in` or a `sockaddr_in6` into
the bytes of a `sockaddr_storage`, `set_address` reads one back. The byte order of the host
and what an uninitialised structure contains are given.

Results:
1. `get_address_v4`, `get_address_v6`: the bytes written.
2. `set_address_v4`, `set_address_v6`: what is read back from them.
3. `survives_iff`: the endpoints that come back as they were.
-/

namespace Kuhllib.Endpoint

/-! ## 1. Memory -/

abbrev Byte := BitVec 8

/-- The byte order of the host. -/
inductive Endian
  | little
  | big
  deriving DecidableEq, Repr

/-- The bytes of an unsigned 16-bit integer in memory. -/
def Endian.bytes16 : Endian → BitVec 16 → Fin 2 → Byte
  | .little, x => ![x.extractLsb' 0 8, x.extractLsb' 8 8]
  | .big, x => ![x.extractLsb' 8 8, x.extractLsb' 0 8]

/-- The unsigned 16-bit integer with some bytes. -/
def Endian.value16 : Endian → (Fin 2 → Byte) → BitVec 16
  | .little, b => b ⟨1, Nat.one_lt_two⟩ ++ b ⟨0, Nat.zero_lt_two⟩
  | .big, b => b ⟨0, Nat.zero_lt_two⟩ ++ b ⟨1, Nat.one_lt_two⟩

/-- The unsigned 32-bit integer with some bytes. -/
def Endian.value32 : Endian → (Fin 4 → Byte) → BitVec 32
  | .little, b => b 3 ++ b 2 ++ b 1 ++ b 0
  | .big, b => b 0 ++ b 1 ++ b 2 ++ b 3

/-- The integer with the bytes of the argument in network order. -/
def Endian.htons (order : Endian) (x : BitVec 16) : BitVec 16 :=
  order.value16 (Endian.big.bytes16 x)

def Endian.ntohs (order : Endian) (x : BitVec 16) : BitVec 16 :=
  Endian.big.value16 (order.bytes16 x)

def memcpy (mem : Nat → Byte) (offset : Nat) {n : Nat} (bytes : Fin n → Byte) (i : Nat) : Byte :=
  if h : offset ≤ i ∧ i - offset < n then bytes ⟨i - offset, h.2⟩ else mem i

def bytes_at (mem : Nat → Byte) (offset n : Nat) (i : Fin n) : Byte := mem (offset + i)

/-! ## 2. Addresses -/

def AF_INET : BitVec 16 := 2
def AF_INET6 : BitVec 16 := 10

/-- The size of a `sockaddr_in`: the family, the port at 2, the address at 4, padding. -/
def sizeof_sockaddr_in : Nat := 16

/-- The size of a `sockaddr_in6`: the family, the port at 2, the flow information at 4, the
address at 8, the scope id at 24. -/
def sizeof_sockaddr_in6 : Nat := 28

structure AddressV4 where
  d_bytes : Fin 4 → Byte
  deriving DecidableEq

structure AddressV6 where
  d_bytes : Fin 16 → Byte
  d_scope_id : BitVec 16
  deriving DecidableEq

/-- The variant of the two. -/
inductive Address
  | v4 (addr : AddressV4)
  | v6 (addr : AddressV6)
  deriving DecidableEq

/-- The constructor from an integer. -/
def AddressV4.of_uint (value : BitVec 32) : AddressV4 where
  d_bytes := ![(value >>> 24 &&& 0xff).setWidth 8, (value >>> 16 &&& 0xff).setWidth 8,
    (value >>> 8 &&& 0xff).setWidth 8, (value >>> 0 &&& 0xff).setWidth 8]

/-- `address_v4::get_address`: the storage and the length. `addr` is the local structure
before its members are assigned. -/
def AddressV4.get_address (self : AddressV4) (order : Endian) (addr storage : Nat → Byte)
    (port : BitVec 16) : (Nat → Byte) × Nat :=
  let addr := memcpy addr 0 (order.bytes16 AF_INET)
  let addr := memcpy addr 2 (order.bytes16 (order.htons port))
  let tmp : Fin 4 → Byte := fun i => self.d_bytes i.rev
  let addr := memcpy addr 4 tmp
  (memcpy storage 0 (bytes_at addr 0 sizeof_sockaddr_in), sizeof_sockaddr_in)

/-- `address_v6::get_address`. -/
def AddressV6.get_address (self : AddressV6) (order : Endian) (addr storage : Nat → Byte)
    (port : BitVec 16) : (Nat → Byte) × Nat :=
  let addr := memcpy addr 0 (order.bytes16 AF_INET6)
  let addr := memcpy addr 2 (order.bytes16 (order.htons port))
  let addr := memcpy addr 8 self.d_bytes
  (memcpy storage 0 (bytes_at addr 0 sizeof_sockaddr_in6), sizeof_sockaddr_in6)

def Address.get_address (self : Address) (order : Endian) (addr storage : Nat → Byte)
    (port : BitVec 16) : (Nat → Byte) × Nat :=
  match self with
  | .v4 a => a.get_address order addr storage port
  | .v6 a => a.get_address order addr storage port

/-! ## 3. Endpoints -/

/-- The two values of a protocol such as `tcp`. -/
inductive InternetProtocol
  | v4
  | v6
  deriving DecidableEq, Repr

def InternetProtocol.family : InternetProtocol → BitVec 16
  | .v4 => AF_INET
  | .v6 => AF_INET6

structure BasicEndpoint where
  d_protocol : InternetProtocol := .v6
  d_address : Address := .v4 ⟨fun _ => 0⟩
  d_port : BitVec 16 := 0
  deriving DecidableEq

/-- The constructor from an address. -/
def BasicEndpoint.of_address (address : Address) (port : BitVec 16) : BasicEndpoint where
  d_protocol := match address with
    | .v4 _ => .v4
    | .v6 _ => .v6
  d_address := address
  d_port := port

/-- The constructor from a protocol. -/
def BasicEndpoint.of_protocol (protocol : InternetProtocol) (port : BitVec 16) :
    BasicEndpoint where
  d_protocol := protocol
  d_port := port

def BasicEndpoint.get_address (self : BasicEndpoint) (order : Endian)
    (addr storage : Nat → Byte) : (Nat → Byte) × Nat :=
  self.d_address.get_address order addr storage self.d_port

def BasicEndpoint.set_address (self : BasicEndpoint) (order : Endian) (storage : Nat → Byte)
    (length : Nat) : BasicEndpoint :=
  if sizeof_sockaddr_in = length then
    { self with
      d_port := order.ntohs (order.value16 (bytes_at storage 2 2))
      d_address := .v4 (.of_uint (order.value32 (bytes_at storage 4 4))) }
  else if sizeof_sockaddr_in6 = length then
    { self with d_port := order.ntohs (order.value16 (bytes_at storage 2 2)) }
  else self

/-! ## 4. What is written and read back -/

/-- The socket address of `e`: its family, and the port and the address in network order. -/
def Encodes (order : Endian) (e : BasicEndpoint) (storage : Nat → Byte) (length : Nat) : Prop :=
  bytes_at storage 0 2 = order.bytes16 e.d_protocol.family ∧
    bytes_at storage 2 2 = Endian.big.bytes16 e.d_port ∧
    match e.d_address with
    | .v4 a => length = sizeof_sockaddr_in ∧ bytes_at storage 4 4 = a.d_bytes
    | .v6 a => length = sizeof_sockaddr_in6 ∧ bytes_at storage 8 16 = a.d_bytes

namespace EndpointLemmas

variable {order : Endian} {mem : Nat → Byte} {offset offset' m n : Nat}

@[simp] theorem bytes16_value16 (b : Fin 2 → Byte) : order.bytes16 (order.value16 b) = b := by
  funext i
  cases order <;> fin_cases i
  · exact BitVec.extractLsb'_append_eq_right
  · exact BitVec.extractLsb'_append_eq_left
  · exact BitVec.extractLsb'_append_eq_left
  · exact BitVec.extractLsb'_append_eq_right

@[simp] theorem value16_bytes16 (x : BitVec 16) : order.value16 (order.bytes16 x) = x := by
  cases order <;> exact BitVec.extractLsb'_append_extractLsb' (w := 8) 

theorem byte_eq_extractLsb' (value : BitVec 32) (k : Nat) :
    (value >>> k &&& 0xff).setWidth 8 = value.extractLsb' k 8 := by
  rw [BitVec.setWidth_and]
  exact BitVec.and_allOnes

theorem of_uint_append (b₀ b₁ b₂ b₃ : Byte) :
    AddressV4.of_uint (b₀ ++ b₁ ++ b₂ ++ b₃) = ⟨![b₀, b₁, b₂, b₃]⟩ := by
  simp only [AddressV4.of_uint, byte_eq_extractLsb', BitVec.extractLsb'_append_eq_ite]
  simp

/-- The address made from the bytes in memory, read as an integer of the host. -/
theorem of_uint_value32 (b : Fin 4 → Byte) :
    AddressV4.of_uint (order.value32 b) = ⟨if order = .little then fun i => b i.rev else b⟩ := by
  cases order
  all_goals
    refine (of_uint_append _ _ _ _).trans (congrArg AddressV4.mk (funext fun i => ?_))
    fin_cases i <;> rfl

theorem bytes_at_memcpy (bytes : Fin n → Byte) :
    bytes_at (memcpy mem offset bytes) offset n = bytes := by
  funext i
  simp [bytes_at, memcpy]

theorem bytes_at_memcpy_of_disjoint (bytes : Fin n → Byte)
    (h : offset' + m ≤ offset ∨ offset + n ≤ offset') :
    bytes_at (memcpy mem offset bytes) offset' m = bytes_at mem offset' m := by
  funext i
  have hi := i.isLt
  rw [bytes_at, memcpy, dif_neg (by omega)]
  rfl

/-- A part of a copy is the part of the original. -/
theorem bytes_at_copy {addr : Nat → Byte} (h : offset + m ≤ n) :
    bytes_at (memcpy mem 0 (bytes_at addr 0 n)) offset m = bytes_at addr offset m := by
  funext i
  have hi := i.isLt
  rw [bytes_at, memcpy, dif_pos (by omega)]
  simp [bytes_at]

@[simp] theorem bytes16_htons (port : BitVec 16) :
    order.bytes16 (order.htons port) = Endian.big.bytes16 port :=
  bytes16_value16 _

@[simp] theorem ntohs_value16_big (port : BitVec 16) :
    order.ntohs (order.value16 (Endian.big.bytes16 port)) = port := by
  rw [Endian.ntohs, bytes16_value16, value16_bytes16]

/-- The port is in network order, the address in the opposite one. -/
theorem get_address_v4 (order : Endian) (addr storage : Nat → Byte) (port : BitVec 16)
    (a : AddressV4) :
    ∃ mem, a.get_address order addr storage port = (mem, sizeof_sockaddr_in) ∧
      bytes_at mem 0 2 = order.bytes16 AF_INET ∧
      bytes_at mem 2 2 = Endian.big.bytes16 port ∧
      bytes_at mem 4 4 = fun i => a.d_bytes i.rev := by
  refine ⟨_, rfl, ?_, ?_, ?_⟩
  · rw [bytes_at_copy (by decide), bytes_at_memcpy_of_disjoint _ (.inl (by decide)),
      bytes_at_memcpy_of_disjoint _ (.inl (by decide)), bytes_at_memcpy]
  · rw [bytes_at_copy (by decide), bytes_at_memcpy_of_disjoint _ (.inl (by decide)),
      bytes_at_memcpy, bytes16_htons]
  · rw [bytes_at_copy (by decide), bytes_at_memcpy]

/-- The port and the address are in network order. -/
theorem get_address_v6 (order : Endian) (addr storage : Nat → Byte) (port : BitVec 16)
    (a : AddressV6) :
    ∃ mem, a.get_address order addr storage port = (mem, sizeof_sockaddr_in6) ∧
      bytes_at mem 0 2 = order.bytes16 AF_INET6 ∧
      bytes_at mem 2 2 = Endian.big.bytes16 port ∧
      bytes_at mem 8 16 = a.d_bytes := by
  refine ⟨_, rfl, ?_, ?_, ?_⟩
  · rw [bytes_at_copy (by decide), bytes_at_memcpy_of_disjoint _ (.inl (by decide)),
      bytes_at_memcpy_of_disjoint _ (.inl (by decide)), bytes_at_memcpy]
  · rw [bytes_at_copy (by decide), bytes_at_memcpy_of_disjoint _ (.inl (by decide)),
      bytes_at_memcpy, bytes16_htons]
  · rw [bytes_at_copy (by decide), bytes_at_memcpy]

variable {port : BitVec 16}

/-- The two reversals cancel out where the host is little endian. -/
theorem set_address_v4 (order : Endian) (o : BasicEndpoint) {b : Fin 4 → Byte}
    (hport : bytes_at mem 2 2 = Endian.big.bytes16 port)
    (haddr : bytes_at mem 4 4 = fun i => b i.rev) :
    o.set_address order mem sizeof_sockaddr_in = { o with
      d_port := port
      d_address := .v4 ⟨if order = .little then b else fun i => b i.rev⟩ } := by
  rw [BasicEndpoint.set_address, if_pos rfl, hport, haddr, ntohs_value16_big, of_uint_value32]
  simp only [Fin.rev_rev]

/-- Only the port is read. -/
theorem set_address_v6 (order : Endian) (o : BasicEndpoint)
    (hport : bytes_at mem 2 2 = Endian.big.bytes16 port) :
    o.set_address order mem sizeof_sockaddr_in6 = { o with d_port := port } := by
  rw [BasicEndpoint.set_address, if_neg (by decide), if_pos rfl, hport, ntohs_value16_big]

theorem family_inj {p q : InternetProtocol} : order.bytes16 p.family = order.bytes16 q.family ↔
    p = q := by
  constructor
  · intro h
    have := congrArg order.value16 h
    rw [value16_bytes16, value16_bytes16] at this
    cases p <;> cases q <;> first | rfl | exact absurd this (by decide)
  · rintro rfl
    rfl

end EndpointLemmas

open EndpointLemmas

/-- What `get_address` writes is the socket address of `e`, and reading it into `o` yields
`e`. This is so exactly if the protocols of `e` and `o` are that of the address, and the
bytes of an IPv4 address are the same in both directions, or `o` already has the IPv6
address. -/
theorem survives_iff (order : Endian) (e o : BasicEndpoint) (addr storage : Nat → Byte) :
    (∃ mem length, e.get_address order addr storage = (mem, length) ∧
      Encodes order e mem length ∧ o.set_address order mem length = e) ↔
    e.d_protocol = o.d_protocol ∧
      ((∃ a, e.d_address = .v4 a ∧ e.d_protocol = .v4 ∧ ∀ i, a.d_bytes i = a.d_bytes i.rev) ∨
        ∃ a, e.d_address = .v6 a ∧ e.d_protocol = .v6 ∧ o.d_address = .v6 a) := by
  obtain ⟨protocol, address, port⟩ := e
  obtain ⟨protocol', address', port'⟩ := o
  cases address with
  | v4 a =>
    obtain ⟨mem, hget, hfamily, hport, haddr⟩ :=
      get_address_v4 order addr storage port a
    have hset := set_address_v4 order ⟨protocol', address', port'⟩ hport haddr
    constructor
    · rintro ⟨mem', length, hget', ⟨hf, -, -, hb⟩, hset'⟩
      obtain ⟨rfl, rfl⟩ := Prod.mk.inj (hget.symm.trans hget')
      refine ⟨(congrArg BasicEndpoint.d_protocol (hset.symm.trans hset')).symm, .inl ⟨a, rfl,
        (family_inj (p := .v4)).1 (hfamily.symm.trans hf) |>.symm, fun i => ?_⟩⟩
      exact congrFun (hb.symm.trans haddr) i
    · rintro ⟨hp, ⟨_, ⟨⟩, hv4, hrev⟩ | ⟨_, ⟨⟩, -⟩⟩
      dsimp only at hp hv4
      subst hp hv4
      have hb : (fun i => a.d_bytes i.rev) = a.d_bytes := (funext hrev).symm
      refine ⟨mem, _, hget, ⟨hfamily, hport, rfl, haddr.trans hb⟩, hset.trans ?_⟩
      simp only [hb, ite_self]
  | v6 a =>
    obtain ⟨mem, hget, hfamily, hport, haddr⟩ :=
      get_address_v6 order addr storage port a
    have hset := set_address_v6 order ⟨protocol', address', port'⟩ hport
    constructor
    · rintro ⟨mem', length, hget', ⟨hf, -⟩, hset'⟩
      obtain ⟨rfl, rfl⟩ := Prod.mk.inj (hget.symm.trans hget')
      have heq := hset.symm.trans hset'
      exact ⟨(congrArg BasicEndpoint.d_protocol heq).symm, .inr ⟨a, rfl,
        (family_inj (p := .v6)).1 (hfamily.symm.trans hf) |>.symm,
        congrArg BasicEndpoint.d_address heq⟩⟩
    · rintro ⟨hp, ⟨_, ⟨⟩, -⟩ | ⟨_, ⟨⟩, hv6, ho⟩⟩
      dsimp only at hp hv6 ho
      subst hp hv6 ho
      exact ⟨mem, _, hget, ⟨hfamily, hport, rfl, haddr⟩, hset⟩

/-- The address 127.0.0.1 is written as 1.0.0.127. -/
theorem not_survives : ¬ ∀ (order : Endian) (e o : BasicEndpoint) (addr storage : Nat → Byte),
    ∃ mem length, e.get_address order addr storage = (mem, length) ∧
      Encodes order e mem length ∧ o.set_address order mem length = e := by
  intro hall
  let e : BasicEndpoint := .of_address (.v4 ⟨![127, 0, 0, 1]⟩) 80
  obtain ⟨mem, length, hget, ⟨-, -, -, haddr⟩, -⟩ := hall .little e e (fun _ => 0) fun _ => 0
  obtain ⟨rfl, -⟩ := Prod.mk.inj hget
  exact absurd (congrFun haddr 0) (by decide)

end Kuhllib.Endpoint
