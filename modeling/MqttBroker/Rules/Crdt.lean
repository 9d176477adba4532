-- State that merges (`crdt.rs`): what a key of a replicated namespace holds, how two
-- copies of it become one, and the bytes it travels as. The JSON text of a value is a
-- parameter; a binary travels as its bytes.
import Mathlib.Data.Prod.Lex
import MqttBroker.Rules.Value
import MqttBroker.Rules.Sketch
import MqttBroker.Lib.Wire

namespace mqtt_rules

open ByteCodec SortedJoin Wire

def MAX_VALUE_BYTES : Nat := 4096
def MAX_SET_ELEMENTS : Nat := 1024
def MAX_ELEMENT_BYTES : Nat := 256
def MAX_NODE_ID_BYTES : Nat := 255
def MAX_COUNTER_NODES : Nat := 256

def VERSION : UInt8 := 1

def value_max (bytes : Nat) : Nat := 1 + 2 + bytes

def MAX_ENCODED_BYTES : Nat := 1 + 16 + 10 + 1 + 2 + MAX_SET_ELEMENTS * value_max MAX_ELEMENT_BYTES

/-- The text of a value (`Value::to_json`), and the value of a text (`json_decode`). -/
structure Json where
  to_json : Value → Option String
  json_decode : Bytes → Option Value

/-! ## Stamps -/

structure Stamp where
  time : UInt64
  node : UInt64
  deriving DecidableEq

namespace Stamp

def ZERO : Stamp := ⟨0, 0⟩

def key (s : Stamp) : Lex (Nat × Nat) := toLex (s.time.toNat, s.node.toNat)

theorem key_inj : Function.Injective key := by
  rintro ⟨t, n⟩ ⟨t', n'⟩ h
  obtain ⟨htime, hnode⟩ := Prod.mk.inj (toLex.injective h)
  cases UInt64.toNat_inj.mp htime
  cases UInt64.toNat_inj.mp hnode
  rfl

instance : LinearOrder Stamp := LinearOrder.lift' key key_inj

def put (s : Stamp) : Bytes := toBe 8 s.time.toNat ++ toBe 8 s.node.toNat

end Stamp

/-! ## The bytes of a value -/

section values

variable (json : Json)

/-- Whether a value travels as a binary, and the bytes that it travels as. -/
def written (v : Value) : Bool × Bytes :=
  if is_binary v then (true, bytes_of v)
  else (false, stringBytes ((json.to_json v).getD ""))

def written_cmp (a b : Bool × Bytes) : Ordering :=
  (compare a.1 b.1).then (bytes_cmp a.2 b.2)

/-- A total order on values: only values that are written the same compare equal. -/
def exact_order (a b : Value) : Ordering :=
  (term_order a b).then ((bytes_cmp (term_key a) (term_key b)).then
    (written_cmp (written json a) (written json b)))

/-- The loop of `put_varint`. A number of 128 bits takes 19 turns at most. -/
def put_varint_loop : Nat → Nat → Bytes
  | 0, _ => []
  | turns + 1, n =>
    if n / 128 = 0 then [UInt8.ofNat (n % 128)]
    else (UInt8.ofNat (n % 128) ||| 0x80) :: put_varint_loop turns (n / 128)

def put_varint (n : Nat) : Bytes := put_varint_loop 19 n

def put_len (n : Nat) : Bytes := put_varint n

def put_value (v : Value) : Bytes :=
  (if (written json v).1 then 'b'.toUInt8 else 'j'.toUInt8) ::
    put_len (written json v).2.length ++ (written json v).2

end values

/-! ## The reader -/

inductive DecodeError
  | Truncated
  | TooLarge
  | Version (v : UInt8)
  | Malformed (what : String)
  deriving DecidableEq

abbrev StateReader := Wire.Reader DecodeError

namespace read

def take (n : Nat) : StateReader Bytes := fun bytes =>
  if bytes.length < n then .error .Truncated else .ok (bytes.take n, bytes.drop n)

def byte : StateReader UInt8 := do
  let b ← take 1
  return b.headD 0

def u64 : StateReader UInt64 := do
  let b ← take 8
  return UInt64.ofNat (ofBe b)

def stamp : StateReader Stamp := do
  let time ← u64
  let node ← u64
  return ⟨time, node⟩

/-- The loop of `varint`, from the byte at `at_` on. -/
def varint_loop : Nat → Nat → Nat → StateReader Nat
  | 0, _, _ => throw (.Malformed "a number past 128 bits")
  | turns + 1, at_, n => do
    let b ← byte
    let bits := (b &&& 0x7f).toNat
    if at_ = 18 ∧ 3 < bits then throw (.Malformed "a number past 128 bits")
    else
      let n := n ||| bits <<< (7 * at_)
      if b &&& 0x80 = 0 then
        if b = 0 ∧ 0 < at_ then throw (.Malformed "a number written long")
        else return n
      else varint_loop turns (at_ + 1) n

/-- A number of at most 128 bits, written in the fewest bytes. -/
def varint : StateReader Nat := varint_loop 19 0 0

/-- A count or a length of at most `max`. -/
def len (max : Nat) (what : String) : StateReader Nat := do
  let n ← varint
  check (n ≤ max) (.Malformed what)
  return n

def u64_varint : StateReader UInt64 := do
  let n ← varint
  check (n < 2 ^ 64) (.Malformed "a time past 64 bits")
  return UInt64.ofNat n

/-- One value of at most `max` bytes, in the one form that it is written in. -/
def value (json : Json) (max : Nat) : StateReader Value := do
  let tag ← byte
  let n ← len max "a value past its bound"
  let bytes ← take n
  if tag = 'b'.toUInt8 then return from_bytes bytes
  else if tag = 'j'.toUInt8 then
    let v ← orThrow (json.json_decode bytes) (.Malformed "a value that is not JSON")
    check (is_binary v = false ∧ is_undefined v = false ∧
      (json.to_json v).map stringBytes = some bytes)
      (.Malformed "a value not written as the rule engine writes it")
    return v
  else throw (.Malformed "an unknown value tag")

end read

/-! ## Counters -/

/-- What one node added and took away. -/
structure Row where
  node : String
  up : Nat
  down : Nat
  deriving DecidableEq

structure Counts where
  rows : List Row
  deriving DecidableEq

def row_cmp (a b : Row) : Ordering := bytes_cmp (stringBytes a.node) (stringBytes b.node)

/-- The larger of each number of one node. -/
def row_max (a b : Row) : Row := ⟨a.node, max a.up b.up, max a.down b.down⟩

namespace Counts

/-- The rows of both, each found by its node; past the bound those first in order. -/
def merge (self other : Counts) : Counts :=
  ⟨(other.rows.foldl (place row_cmp row_max) self.rows).take MAX_COUNTER_NODES⟩

def put_row (row : Row) : Bytes :=
  UInt8.ofNat (min (stringBytes row.node).length 255) :: stringBytes row.node ++
    put_varint row.up ++ put_varint row.down

def put (c : Counts) : Bytes := put_len c.rows.length ++ c.rows.flatMap put_row

def read_row (last : Option Row) : StateReader Row := do
  let n ← read.byte
  let bytes ← read.take n.toNat
  let node ← orThrow (String.fromUTF8? ⟨bytes.toArray⟩) (.Malformed "a node id that is not UTF-8")
  check (∀ row ∈ last, bytes_cmp (stringBytes row.node) (stringBytes node) = .lt)
    (.Malformed "a counter's nodes out of order")
  let up ← read.varint
  let down ← read.varint
  return ⟨node, up, down⟩

def read : StateReader Counts := do
  let count ← read.len MAX_COUNTER_NODES "a counter of too many nodes"
  let rows ← ascending read_row count none
  return ⟨rows⟩

end Counts

/-! ## Sets -/

/-- The elements in order, each with its identity. -/
structure Elements where
  items : List (Bytes × Value)

def element_cmp (a b : Bytes × Value) : Ordering := (term_order a.2 b.2).then (bytes_cmp a.1 b.1)

namespace Elements

/-- Of two elements with one identity, the one that `exact_order` puts first. -/
def first_of (json : Json) (a b : Bytes × Value) : Bytes × Value :=
  if exact_order json a.2 b.2 = .gt then b else a

/-- The union; past the bound the elements first in order. -/
def merge (json : Json) (self other : Elements) : Elements :=
  ⟨unionUpTo element_cmp (first_of json) MAX_SET_ELEMENTS self.items other.items⟩

def put (json : Json) (e : Elements) : Bytes :=
  put_len e.items.length ++ e.items.flatMap fun item => put_value json item.2

def read_item (json : Json) (last : Option (Bytes × Value)) : StateReader (Bytes × Value) := do
  let v ← read.value json MAX_ELEMENT_BYTES
  let identity := term_key v
  check (∀ item ∈ last, element_cmp item (identity, v) = .lt)
    (.Malformed "a set's elements out of order")
  return (identity, v)

def read (json : Json) : StateReader Elements := do
  let count ← read.len MAX_SET_ELEMENTS "a set of too many elements"
  let items ← ascending (read_item json) count none
  return ⟨items⟩

end Elements

/-! ## Sketches -/

namespace Hll

def put_entry (e : Nat × UInt8) : Bytes := [UInt8.ofNat (e.1 / 256), UInt8.ofNat e.1, e.2]

def put (h : Hll) : Bytes :=
  match h.registers with
  | .Sparse list => 0 :: put_len list.length ++ list.flatMap put_entry
  | .Dense dense => 1 :: dense

def read_entry (last : Option (Nat × UInt8)) : StateReader (Nat × UInt8) := do
  match ← read.take 3 with
  | [high, low, rank] =>
    let index := high.toNat * 256 + low.toNat
    check (index < HLL_REGISTERS ∧ (1 ≤ rank ∧ rank ≤ HLL_MAX_RANK) ∧
      ∀ held ∈ last, held.1 < index) (.Malformed "a sketch's registers")
    return (index, rank)
  | _ => throw .Truncated

def read : StateReader Hll := do
  let form ← read.byte
  if form = 0 then
    let count ← read.len HLL_SPARSE_MAX "a sparse sketch of too many registers"
    let list ← ascending read_entry count none
    return ⟨.Sparse list⟩
  else if form = 1 then
    let dense ← read.take HLL_DENSE_BYTES
    check (∀ i < HLL_REGISTERS, dense_get dense i ≤ HLL_MAX_RANK)
      (.Malformed "a sketch's registers")
    check (HLL_SPARSE_MAX < set_count (.Dense dense)) (.Malformed "a dense sketch of few registers")
    return ⟨.Dense dense⟩
  else throw (.Malformed "an unknown sketch form")

end Hll

/-! ## The state of a key -/

/-- What a key holds. -/
inductive Data
  | Lww (stamp : Stamp) (value : Value)
  | First (stamp : Stamp) (value : Value)
  | Max (value : Value)
  | Min (value : Value)
  | Sum (counts : Counts)
  | Union (elements : Elements)
  | Hll (sketch : Hll)

/-- The tag of the type, which is also its rank. -/
def tag : Data → UInt8
  | .Lww _ _ => 1
  | .First _ _ => 2
  | .Max _ => 3
  | .Min _ => 4
  | .Sum _ => 5
  | .Union _ => 6
  | .Hll _ => 7

/-- An expiry with "never" (0) as the latest of all. -/
def never_last (expires_ms : UInt64) : UInt64 :=
  if expires_ms = 0 then 18446744073709551615 else expires_ms

def later (a b : UInt64) : UInt64 := if a = 0 ∨ b = 0 then 0 else if a ≤ b then b else a

/-- Whether what a state holds outlives the delete, the state's own being `own`. -/
def outlives (data : Data) (own deleted : Stamp) : Bool :=
  match data with
  | .Lww stamp _ => deleted < stamp
  | _ => own = deleted

section join

variable (json : Json)

/-- Two things of one type that is not `lww`. -/
def join_same (a b : Data) : Data :=
  match a, b with
  | .First stamp v, .First their_stamp their_v =>
    let order := (compare stamp their_stamp).then (exact_order json v their_v)
    if order = .gt then .First their_stamp their_v else .First stamp v
  | .Max v, .Max their_v =>
    let order := (term_order v their_v).then (exact_order json their_v v)
    .Max (if order = .lt then their_v else v)
  | .Min v, .Min their_v => .Min (if exact_order json v their_v = .gt then their_v else v)
  | .Sum counts, .Sum their_counts => .Sum (counts.merge their_counts)
  | .Union elements, .Union their_elements => .Union (elements.merge json their_elements)
  | .Hll sketch, .Hll their_sketch => .Hll (sketch.merge their_sketch)
  | a, _ => a

/-- Two things that both outlive the delete, as one, with its expiry. -/
def join (a : Data) (a_expires : UInt64) (b : Data) (b_expires : UInt64) : Data × UInt64 :=
  match a, b with
  | .Lww stamp v, .Lww their_stamp their_v =>
    let order := (compare stamp their_stamp).then ((exact_order json v their_v).then
      (compare (never_last a_expires).toNat (never_last b_expires).toNat))
    if order = .lt then (b, b_expires) else (a, a_expires)
  | .Lww _ _, _ => (a, a_expires)
  | _, .Lww _ _ => (b, b_expires)
  | a, b =>
    if tag a ≠ tag b then
      if tag b < tag a then (a, a_expires) else (b, b_expires)
    else (join_same json a b, later a_expires b_expires)

end join

/-- The latest delete that a key has seen, what it holds since, and when that expires
(0 for never). -/
structure KeyState where
  deleted : Stamp
  data : Option Data
  expires_ms : UInt64

namespace KeyState

/-- The join of two states. -/
def merge (json : Json) (self other : KeyState) : KeyState :=
  let deleted := max self.deleted other.deleted
  let mine := self.data.filter fun d => outlives d self.deleted deleted
  let theirs := other.data.filter fun d => outlives d other.deleted deleted
  match mine, theirs with
  | none, none => ⟨deleted, none, 0⟩
  | some mine, none => ⟨deleted, some mine, self.expires_ms⟩
  | none, some theirs => ⟨deleted, some theirs, other.expires_ms⟩
  | some mine, some theirs =>
    let joined := join json mine self.expires_ms theirs other.expires_ms
    ⟨deleted, some joined.1, joined.2⟩

def put_data (json : Json) : Data → Bytes
  | .Lww stamp v | .First stamp v => stamp.put ++ put_value json v
  | .Max v | .Min v => put_value json v
  | .Sum counts => counts.put
  | .Union elements => elements.put json
  | .Hll sketch => sketch.put

def encoded (json : Json) (s : KeyState) : Bytes :=
  VERSION :: s.deleted.put ++ put_varint s.expires_ms.toNat ++
    match s.data with
    | none => [0]
    | some data => tag data :: put_data json data

section decode

variable (json : Json)

def number : StateReader Value := do
  let v ← read.value json MAX_VALUE_BYTES
  check (is_number v = true) (.Malformed "a maximum that is not a number")
  return v

def stamped (deleted : Stamp) : StateReader (Stamp × Value) := do
  let stamp ← read.stamp
  check (deleted < stamp) (.Malformed "a write its own delete covers")
  let v ← read.value json MAX_VALUE_BYTES
  return (stamp, v)

def read_data (deleted : Stamp) : StateReader (Option Data) := do
  let form ← read.byte
  if form = 0 then return none
  else if form = 1 then
    let (stamp, v) ← stamped json deleted
    return some (.Lww stamp v)
  else if form = 2 then
    let (stamp, v) ← stamped json deleted
    return some (.First stamp v)
  else if form = 3 then return some (.Max (← number json))
  else if form = 4 then return some (.Min (← number json))
  else if form = 5 then return some (.Sum (← Counts.read))
  else if form = 6 then return some (.Union (← Elements.read json))
  else if form = 7 then return some (.Hll (← Hll.read))
  else throw (.Malformed "an unknown type")

def read_state : StateReader KeyState := do
  let version ← read.byte
  check (version = VERSION) (.Version version)
  let deleted ← read.stamp
  let expires_ms ← read.u64_varint
  let data ← read_data json deleted
  check (¬ (data.isNone = true ∧ expires_ms ≠ 0)) (.Malformed "an expiry with nothing to expire")
  check ((← isEmpty) = true) (.Malformed "bytes after the state")
  return ⟨deleted, data, expires_ms⟩

/-- The state that the bytes are, or why they are none. -/
def decode (bytes : Bytes) : Except DecodeError KeyState :=
  if MAX_ENCODED_BYTES < bytes.length then .error .TooLarge
  else match (read_state json).run bytes with
    | .ok (s, _) => .ok s
    | .error e => .error e

end decode

end KeyState

end mqtt_rules
