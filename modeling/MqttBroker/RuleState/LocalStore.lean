-- The store that rules keep their state in (`rule_state.rs`), for the namespaces of this
-- node alone: the keys of each shard with their orders of use and of expiry, the room
-- that a new key reserves, and what each call of a rule does to its key.
import Mathlib.Data.List.Lex
import Mathlib.Data.Nat.Log
import Mathlib.Order.Fin.Basic
import MqttBroker.Lib.OrderedMap
import MqttBroker.Rules.CrdtWrites

namespace mqttd.rule_state.local_store

open mqtt_rules

abbrev Key := List (Fin 256)

instance neZero_256 : NeZero 256 := ⟨by decide⟩

instance transCmp_key : Std.TransCmp (@compare Key LinearOrder.toOrd) := inferInstance

instance transCmp_slot_key : Std.TransCmp (@compare (Nat ×ₗ Key) LinearOrder.toOrd) := inferInstance

instance transCmp_slot : Std.TransCmp (@compare (Nat ×ₗ Nat) LinearOrder.toOrd) := inferInstance

def SHARDS : Nat := 64
def ENTRY_OVERHEAD : Nat := 128
def ELEMENT_OVERHEAD : Nat := 32
def SKETCH_OVERHEAD : Nat := 128
def NUMBER_BYTES : Nat := 8
def LOCAL_NODE : String := ""
def PURGE_EVERY_MS : Nat := 1000
def PURGE_BATCH : Nat := 64
def MAX_EVICTIONS_PER_CALL : Nat := 64
def REMEMBERED_PREFIX : Fin 256 := 0
def MAX_IDEMPOTENCY_KEY_BYTES : Nat := 255

theorem shards_pos : 0 < SHARDS := by decide

/-! ## Arithmetic of 64 bits -/

def u64_max : Nat := 2 ^ 64 - 1

def add_saturating (a b : Nat) : Nat := min (a + b) u64_max

def mul_saturating (a b : Nat) : Nat := min (a * b) u64_max

/-- `i64::try_from(n).unwrap_or(i64::MAX)`, as a value. -/
def int_of (n : Nat) : Value := .Int (Int64.ofInt (min n (2 ^ 63 - 1)))

/-! ## Values -/

mutual

/-- Erlang's `=:=`: an integer is never a float, and `-0.0` is not `0.0`. -/
def exact_eq : Value → Value → Bool
  | .Float a, .Float b => a.bits == b.bits
  | .Float _, _ => false
  | .Array a, .Array b => exact_items a b
  | .Map a, .Map b => a.length == b.length && exact_entries a b
  | .Undefined, .Undefined => true
  | .Null, .Null => true
  | .Bool a, .Bool b => a == b
  | a, b =>
    if is_number a && is_number b then !(b matches .Float _) && num_cmp a b == .eq
    else is_binary a && is_binary b && decide (bytes_of a = bytes_of b)

def exact_items : List Value → List Value → Bool
  | [], [] => true
  | a :: x, b :: y => exact_eq a b && exact_items x y
  | _, _ => false

/-- Whether each entry has its like under its key in `other`. -/
def exact_entries : List (String × Value) → List (String × Value) → Bool
  | [], _ => true
  | (k, v) :: rest, other =>
    (match other.find? (fun e => e.1 = k) with
      | some e => exact_eq v e.2
      | none => false) && exact_entries rest other

end

/-- The most integer bits of a value. -/
def MAX_INT_BITS : Nat := 8192

def from_big (n : BigInt) : Option Value :=
  match i64_of n with
  | some n => some (.Int (Int64.ofInt n))
  | none => if MAX_INT_BITS < bit_length n.natAbs then none else some (.Big n)

/-- The count of a counter, of any size. -/
def total (c : Counts) : Value :=
  match c.total_i128.bind i64_of with
  | some n => .Int (Int64.ofInt n)
  | none =>
    let sum : BigInt := c.rows.foldl (fun t row => t + row.up - row.down) 0
    (from_big sum).getD (.Int (Int64.ofInt (2 ^ 63 - 1)))

/-- The room that a list of `n` registers has when they were added one by one: it doubles when it
is full, up to its bound. -/
def list_room (n : Nat) : Nat :=
  if n = 0 then 0 else min (8 * 2 ^ Nat.clog 2 ((n + 7) / 8)) HLL_SPARSE_MAX

def sketch_bytes (h : Hll) : Nat :=
  match h.registers with
  | .Sparse list => list_room list.length * 4
  | .Dense dense => dense.length

/-! ## Keys and settings -/

def remembered_of (once : Key) : Key :=
  REMEMBERED_PREFIX :: once.take MAX_IDEMPOTENCY_KEY_BYTES

/-- Whether the key is of an entry that remembers an idempotency key. -/
def remembered : Key → Bool
  | b :: once => decide (b = REMEMBERED_PREFIX) && !once.isEmpty
  | [] => false

inductive Eviction
  | Fail
  | Lru
  deriving DecidableEq, Repr

structure NamespaceSettings where
  max_keys : Nat
  max_bytes : Nat
  default_ttl_secs : Option Nat
  eviction : Eviction
  dedupe_window_secs : Nat

/-- A value with its size as the store accounts it. -/
structure Stored where
  value : Value
  bytes : Nat

inductive StateOp
  | Get (key : Key)
  | Set (key : Key) (value : Stored) (ttl : Option Nat)
  | SetOnce (key : Key) (value : Stored) (ttl : Option Nat)
  | Incr (key : Key) (by_ : Int64) (ttl : Option Nat)
  | IncrOnce (key : Key) (by_ : Int64) (ttl : Option Nat) (once : Key)
  | Extreme (key : Key) (value : Stored) (largest : Bool) (ttl : Option Nat)
  | Add (key : Key) (element : Stored) (identity : Bytes) (ttl : Option Nat)
  | Del (key : Key)
  | Ttl (key : Key)
  | Held (key : Key) (holds : Bool) (ttl : Option Nat)
  | Changed (key : Key) (value : Stored) (ttl : Option Nat)
  | HllAdd (key : Key) (hash : UInt64) (ttl : Option Nat)
  | HllCount (key : Key)

def op_key : StateOp → Key
  | .Get key | .Set key _ _ | .SetOnce key _ _ | .Incr key _ _ | .IncrOnce key _ _ _
  | .Extreme key _ _ _ | .Add key _ _ _ | .Del key | .Ttl key | .Held key _ _
  | .Changed key _ _ | .HllAdd key _ _ | .HllCount key => key

structure StateReply where
  value : Option Value
  read_bytes : Nat

/-- A refused call: its reason, which it is counted by, and its message. -/
structure StateError where
  reason : String
  message : String
  deriving DecidableEq, Repr

inductive Refusal
  | NamespaceFull
  | StoreFull
  | Brownout
  | WrongType
  | Other
  deriving DecidableEq, Repr

def Refusal.reason : Refusal → String
  | .NamespaceFull => "namespace_full"
  | .StoreFull => "store_full"
  | .Brownout => "brownout"
  | .WrongType => "wrong_type"
  | .Other => "refused"

def wrong_type_message (held : Data) (wanted : String) : String :=
  "the key holds a value of type `" ++ type_name held ++
    "`, and this is an operation on type `" ++ wanted ++ "` (kv_del deletes a key of any type)"

/-! ## Entries and shards -/

/-- A key that is held. `life` numbers the lives of the keys of a namespace, for the
statements about runs. -/
structure Entry where
  key : Key
  data : Data
  expires_ms : Nat
  bytes : Nat
  used : Nat
  life : Nat

namespace Entry

def expired (e : Entry) (now_ms : Nat) : Bool :=
  decide (e.expires_ms ≠ 0) && decide (e.expires_ms ≤ now_ms)

def data_bytes (e : Entry) : Nat := e.bytes - (ENTRY_OVERHEAD + e.key.length)

end Entry

/-- The second that an expiry falls in, rounded up. -/
def expiry_slot (expires_ms : Nat) : Nat := (expires_ms + 999) / 1000

structure Shard where
  map : BTreeMap Key Entry := ∅
  /-- The keys by their places in the order of use, oldest first. -/
  used : BTreeMap Nat Key := ∅
  /-- The keys that expire, by their seconds. -/
  expiry : BTreeSet (Nat ×ₗ Key) := ∅
  /-- The keys that have expired and are held for their events. -/
  held : BTreeMap (Nat ×ₗ Nat) Entry := ∅
  held_seq : Nat := 0

namespace Shard

/-- The shard without `entry`, which its map holds. -/
def without (s : Shard) (entry : Entry) : Shard :=
  { s with
    map := s.map.erase entry.key
    used := if entry.used ≠ 0 then s.used.erase entry.used else s.used
    expiry := if entry.expires_ms ≠ 0
      then s.expiry.erase (toLex (expiry_slot entry.expires_ms, entry.key)) else s.expiry }

/-- Takes a key out of the map and both orders. -/
def take (s : Shard) (key : Key) : Option Entry × Shard :=
  match s.map[key]? with
  | some entry => (some entry, s.without entry)
  | none => (none, s)

def put (s : Shard) (entry : Entry) : Shard := { s with map := s.map.insert entry.key entry }

/-- Holds an expired entry, already out of the map, for its event. -/
def hold (s : Shard) (entry : Entry) : Shard :=
  { s with
    held_seq := s.held_seq + 1
    held := s.held.insert (toLex (expiry_slot entry.expires_ms, s.held_seq + 1)) entry }

end Shard

/-! ## A namespace in its store -/

/-- What the namespaces of a store share. `clock` gives the readings of the clock in their
order, and `walk` the order in which a walk over a hash map finds its keys, which may be any. -/
structure Shared where
  max_bytes : Nat
  bytes : Nat := 0
  brownout : Bool := false
  expiry_events : Bool := false
  clock : Nat → Nat
  reads : Nat := 0
  walk : Nat → Fin SHARDS → List Key

structure Namespace where
  name : String
  shard_of : Key → Fin SHARDS
  shards : Fin SHARDS → Shard := fun _ => {}
  keys : Nat := 0
  bytes : Nat := 0
  tick : Nat := 0
  /-- Each shard's oldest place in the order of use, as it was last noted. -/
  oldest : Fin SHARDS → Option Nat := fun _ => none
  purged_ms : Nat := 0
  refused : Refusal → Nat := fun _ => 0
  evicted : Nat := 0
  /-- How many lives of keys have begun, and the entries that were evicted with the reading
  of the clock that each was found unexpired at. -/
  lives : Nat := 0
  evictions : List (Entry × Nat) := []

structure View where
  sh : Shared
  ns : Namespace

namespace View

def now (v : View) : Nat := v.sh.clock v.sh.reads

def ticked (v : View) : View := { v with sh := { v.sh with reads := v.sh.reads + 1 } }

def shard (v : View) (i : Fin SHARDS) : Shard := v.ns.shards i

def setShard (v : View) (i : Fin SHARDS) (s : Shard) : View :=
  { v with ns := { v.ns with shards := Function.update v.ns.shards i s } }

/-- Publishes a shard's oldest place in the order of use. -/
def note_oldest (v : View) (i : Fin SHARDS) : View :=
  let oldest := (v.shard i).used.keys.head?
  { v with ns := { v.ns with oldest := Function.update v.ns.oldest i oldest } }

/-- The same where a place is or was noted. -/
def note_used (v : View) (i : Fin SHARDS) : View :=
  if !(v.shard i).used.isEmpty || (v.ns.oldest i).isSome then v.note_oldest i else v

def refuse (v : View) (refusal : Refusal) (message : String) : StateError × View :=
  (⟨refusal.reason, message⟩, { v with ns := { v.ns with
    refused := Function.update v.ns.refused refusal (v.ns.refused refusal + 1) } })

def wrong_type (v : View) (held : Data) (wanted : String) : StateError × View :=
  v.refuse .WrongType (wrong_type_message held wanted)

/-- Gives back what a removed entry was accounted as. -/
def release (v : View) (e : Entry) : View :=
  { sh := { v.sh with bytes := v.sh.bytes - e.bytes }
    ns := { v.ns with keys := v.ns.keys - 1, bytes := v.ns.bytes - e.bytes } }

/-- Accounts a change in the size of an entry that stays. -/
def resize (v : View) (e : Entry) (bytes : Nat) : Entry × View :=
  let account (total : Nat) : Nat :=
    if bytes ≥ e.bytes then total + (bytes - e.bytes) else total - (e.bytes - bytes)
  ({ e with bytes }, {
    sh := { v.sh with bytes := account v.sh.bytes }
    ns := { v.ns with bytes := account v.ns.bytes } })

/-- Reserves room for one new key, or names the bound in the way. -/
def reserve (v : View) (settings : NamespaceSettings) (bytes : Nat) : Except Refusal View :=
  if ¬ v.ns.keys < settings.max_keys then .error .NamespaceFull
  else if ¬ v.ns.bytes + bytes ≤ settings.max_bytes then .error .NamespaceFull
  else if ¬ v.sh.bytes + bytes ≤ v.sh.max_bytes then .error .StoreFull
  else .ok {
    sh := { v.sh with bytes := v.sh.bytes + bytes }
    ns := { v.ns with keys := v.ns.keys + 1, bytes := v.ns.bytes + bytes } }

/-- Removes a key of a shard and gives its room back. -/
def remove (v : View) (i : Fin SHARDS) (key : Key) : Bool × View :=
  match (v.shard i).take key with
  | (some entry, s) => (true, (v.setShard i s).release entry)
  | (none, _) => (false, v)

/-- A key was found past its expiry: it is held for its event where one is owed, and else its
room is given back. -/
def expire (v : View) (i : Fin SHARDS) (key : Key) : View :=
  match (v.shard i).take key with
  | (some entry, s) =>
    if v.sh.expiry_events && !remembered entry.key then v.setShard i (s.hold entry)
    else (v.setShard i s).release entry
  | (none, _) => v

/-- The loop of `purge`, with what it has found so far. -/
def purge_loop (i : Fin SHARDS) (now_ms : Nat) : Nat → Bool → View → Bool × View
  | 0, any, v => (any, v)
  | n + 1, any, v =>
    match (v.shard i).expiry.toList with
    | [] => (any, v)
    | first :: _ =>
      let slot := (ofLex first).1
      let key := (ofLex first).2
      if mul_saturating slot 1000 ≤ now_ms then
        let s := v.shard i
        let v := v.setShard i { s with expiry := s.expiry.erase first }
        if s.map[key]?.any (·.expired now_ms) then
          let (removed, v) := v.remove i key
          purge_loop i now_ms n (any || removed) v
        else purge_loop i now_ms n any v
      else (any, v)

/-- Removes keys of a shard whose expiry has passed, unless they are held for their events. -/
def purge (v : View) (i : Fin SHARDS) (now_ms : Nat) : Bool × View :=
  if v.sh.expiry_events then (false, v) else purge_loop i now_ms PURGE_BATCH false v

/-- The walk of `purge_all` over the shards that are left. -/
def purge_shards (now_ms : Nat) : List (Fin SHARDS) → View → Bool × View
  | [], v => (false, { v with ns := { v.ns with purged_ms := max now_ms 1 } })
  | i :: rest, v =>
    let (any, v) := v.purge i now_ms
    let v := v.note_oldest i
    if any then (true, v) else purge_shards now_ms rest v

/-- Looks through the shards for expired keys and stops at the first that had some. -/
def purge_all (v : View) : Bool × View :=
  if v.sh.expiry_events then (false, v)
  else
    let now_ms := v.now
    let v := v.ticked
    let last := v.ns.purged_ms
    if last ≠ 0 ∧ now_ms < add_saturating last PURGE_EVERY_MS then (false, v)
    else purge_shards now_ms (List.finRange SHARDS) v

/-- The expiry that a TTL gives from `now_ms` on. -/
def expires_at (now_ms secs : Nat) : Nat :=
  max (add_saturating now_ms (mul_saturating secs 1000)) 1

/-- After a write to, or a read of, an entry: its expiry when the call named a TTL, and its
place in the order of use. -/
def after (v : View) (settings : NamespaceSettings) (i : Fin SHARDS) (e : Entry)
    (ttl : Option Nat) (now_ms : Nat) : Entry × View :=
  let (e, v) := match ttl with
    | none => (e, v)
    | some secs =>
      let expires_ms := expires_at now_ms secs
      let was := expiry_slot e.expires_ms
      let slot := expiry_slot expires_ms
      let s := v.shard i
      let expiry :=
        if was ≠ slot then
          let kept := if e.expires_ms ≠ 0 then s.expiry.erase (toLex (was, e.key)) else s.expiry
          kept.insert (toLex (slot, e.key))
        else s.expiry
      ({ e with expires_ms }, v.setShard i { s with expiry })
  match settings.eviction with
  | .Fail => (e, v)
  | .Lru =>
    let place := v.ns.tick + 1
    let s := v.shard i
    let kept := if e.used ≠ 0 then s.used.erase e.used else s.used
    let v := v.setShard i { s with used := kept.insert place e.key }
    ({ e with used := place }, { v with ns := { v.ns with tick := place } })

/-- `after`, with the entry in its place in the map. -/
def touch (v : View) (settings : NamespaceSettings) (i : Fin SHARDS) (e : Entry)
    (ttl : Option Nat) (now_ms : Nat) : View :=
  let (e, v) := v.after settings i e ttl now_ms
  v.setShard i ((v.shard i).put e)

/-- A write to an entry that stays: its data, its size, and then `touch`. -/
def write (v : View) (settings : NamespaceSettings) (i : Fin SHARDS) (e : Entry) (data : Data)
    (bytes : Nat) (ttl : Option Nat) (now_ms : Nat) : View :=
  let (e, v) := v.resize { e with data } bytes
  v.touch settings i e ttl now_ms

/-- Inserts a new key, with its room reserved. -/
def insert (v : View) (settings : NamespaceSettings) (i : Fin SHARDS) (key : Key) (data : Data)
    (data_bytes : Nat) (ttl : Option Nat) (now_ms : Nat) : Except Refusal Unit × View :=
  let bytes := ENTRY_OVERHEAD + key.length + data_bytes
  let put (v : View) : View :=
    let e : Entry :=
      { key, data, expires_ms := 0, bytes, used := 0, life := v.ns.lives }
    { v with ns := { v.ns with lives := v.ns.lives + 1 } }.touch settings i e
      (ttl.or settings.default_ttl_secs) now_ms
  if v.sh.brownout then (.error .Brownout, v)
  else match v.reserve settings bytes with
    | .ok v => (.ok (), put v)
    | .error refusal =>
      -- Expired keys that this shard still holds are room, too.
      match v.purge i now_ms with
      | (false, v) => (.error refusal, v)
      | (true, v) => match v.reserve settings bytes with
        | .ok v => (.ok (), put v)
        | .error refusal => (.error refusal, v)

end View

/-! ## One call on its key -/

/-- What a call does next. -/
inductive Step (α : Type)
  | Done (a : α)
  | NeedRoom (refusal : Refusal)

def done (value : Option Value) : Step StateReply := .Done { value, read_bytes := 0 }

def counter (by_ : Int64) : Data :=
  match (Counts.mk []).add LOCAL_NODE by_ with
  | .ok (_, counts) => .Sum counts
  | .error _ => .Sum ⟨[]⟩

def set_of (identity : Bytes) (element : Value) : Data :=
  match (Elements.mk []).insert identity element with
  | some (_, elements) => .Union elements
  | none => .Union ⟨[]⟩

def lww (value : Value) : Data := .Lww Stamp.ZERO value

def first (value : Value) : Data := .First Stamp.ZERO value

def seconds (since_ms now_ms : Nat) : Value := int_of ((now_ms - since_ms) / 1000)

/-- The estimate of a sketch, which is computed in doubles. -/
structure Estimate where
  count : Hll → Nat

def estimate (est : Estimate) (sketch : Hll) : Value := int_of (est.count sketch)

def read (est : Estimate) : Data → Value
  | .Lww _ value | .First _ value | .Max value | .Min value => value
  | .Sum counts => total counts
  | .Union elements => .Array (elements.items.map (·.2))
  | .Hll sketch => estimate est sketch

namespace View

/-- The answer of a call, with what is left of the namespace. -/
abbrev Answer (α : Type) := Except StateError α × View

/-- A new key, or the bound that is in its way. -/
def inserted (v : View) (settings : NamespaceSettings) (i : Fin SHARDS) (key : Key) (data : Data)
    (bytes : Nat) (ttl : Option Nat) (now_ms : Nat) (reply : Option Value) :
    Answer (Step StateReply) :=
  match v.insert settings i key data bytes ttl now_ms with
  | (.ok (), v) => (.ok (done reply), v)
  | (.error refusal, v) => (.ok (.NeedRoom refusal), v)

/-- The refusal of a key of another type. -/
def refusedType {α : Type} (v : View) (held : Data) (wanted : String) : Answer α :=
  let (e, v) := v.wrong_type held wanted
  (.error e, v)

def refusedOther {α : Type} (v : View) (refusal : Refusal) (message : String) : Answer α :=
  let (e, v) := v.refuse refusal message
  (.error e, v)

def readReply (est : Estimate) (e : Entry) : StateReply :=
  { value := some (read est e.data)
    read_bytes := match e.data with
      | .Hll _ => NUMBER_BYTES
      | _ => e.data_bytes }

/-- Whether a number takes the place of the one that is held. -/
def wins (largest : Bool) (value held : Value) : Bool :=
  if largest then term_cmp value held == .gt else term_cmp value held == .lt

def extreme (largest : Bool) (value : Value) : Data := if largest then .Max value else .Min value

/-- The number that a key of the type holds. -/
def extremeHeld : Bool → Data → Option Value
  | true, .Max held => some held
  | false, .Min held => some held
  | _, _ => none

/-- What a call does with its key, which has not expired. -/
def applyLive (est : Estimate) (v : View) (settings : NamespaceSettings) (op : StateOp)
    (i : Fin SHARDS) (now_ms : Nat) : Answer (Step StateReply) :=
  let key := op_key op
  let entry := (v.shard i).map[key]?
  match op with
  | .Get _ =>
    match entry with
    | none => (.ok (done none), v)
    | some e => (.ok (.Done (readReply est e)), v.touch settings i e none now_ms)
  | .Set _ value ttl =>
    match entry with
    | some e =>
      match e.data with
      | .Lww _ _ =>
        (.ok (done none), v.write settings i e (lww value.value)
          (ENTRY_OVERHEAD + key.length + value.bytes) ttl now_ms)
      | held => v.refusedType held "lww"
    | none => v.inserted settings i key (lww value.value) value.bytes ttl now_ms none
  | .SetOnce _ value ttl =>
    match entry with
    | some e =>
      match e.data with
      | .First _ held =>
        (.ok (.Done { value := some held, read_bytes := e.data_bytes }),
          v.touch settings i e ttl now_ms)
      | held => v.refusedType held "first"
    | none =>
      v.inserted settings i key (first value.value) value.bytes ttl now_ms (some value.value)
  | .Incr _ by_ ttl =>
    match entry with
    | some e =>
      match e.data with
      | .Sum counts =>
        match counts.add LOCAL_NODE by_ with
        | .ok (sum, counts) =>
          (.ok (done (some (.Int (Int64.ofInt sum)))),
            v.touch settings i { e with data := .Sum counts } ttl now_ms)
        | .error .Overflow => v.refusedOther .Other "the counter would pass 64 bits"
        | .error _ =>
          v.refusedOther .Other "the counter holds counts of as many nodes as it may"
      | held => v.refusedType held "sum"
    | none =>
      v.inserted settings i key (counter by_) NUMBER_BYTES ttl now_ms (some (.Int by_))
  -- Two keys, so never one operation: `incr_once` takes it apart.
  | .IncrOnce _ _ _ _ => (.ok (.NeedRoom .Other), v)
  | .Extreme _ value largest ttl =>
    match entry with
    | some e =>
      match extremeHeld largest e.data with
      | some held =>
        if wins largest value.value held then
          (.ok (done (some value.value)), v.write settings i e (extreme largest value.value)
            (ENTRY_OVERHEAD + key.length + value.bytes) ttl now_ms)
        else (.ok (done (some held)), v.touch settings i e ttl now_ms)
      | none => v.refusedType e.data (if largest then "max" else "min")
    | none => v.inserted settings i key (extreme largest value.value) value.bytes ttl now_ms
        (some value.value)
  | .Add _ element identity ttl =>
    match entry with
    | some e =>
      match e.data with
      | .Union elements =>
        match elements.insert identity element.value with
        | some (is_new, elements) =>
          let bytes := if is_new then e.bytes + ELEMENT_OVERHEAD + element.bytes else e.bytes
          (.ok (done (some (int_of elements.items.length))),
            v.write settings i e (.Union elements) bytes ttl now_ms)
        | none => v.refusedOther .Other
            "the set holds 1024 elements, the most a set may"
      | held => v.refusedType held "union"
    | none => v.inserted settings i key (set_of identity element.value)
        (ELEMENT_OVERHEAD + element.bytes) ttl now_ms (some (.Int 1))
  | .Del _ =>
    let (removed, v) := v.remove i key
    (.ok (done (some (.Bool removed))), v)
  | .Ttl _ =>
    match entry with
    | none => (.ok (done none), v)
    | some e =>
      let left := if e.expires_ms ≠ 0
        then some (int_of ((e.expires_ms - now_ms + 999) / 1000)) else none
      (.ok (done left), v.touch settings i e none now_ms)
  | .Held _ holds ttl =>
    match entry with
    | some e =>
      match e.data with
      | .First _ since =>
        if holds then
          match since with
          | .Int since =>
            (.ok (done (some (seconds since.toInt.toNat now_ms))),
              v.touch settings i e ttl now_ms)
          | _ => v.refusedOther .WrongType
              "the key holds a value kv_set_once stored, not the time kv_held records"
        else (.ok (done none), (v.remove i key).2)
      | held => v.refusedType held "first"
    | none =>
      if holds then
        v.inserted settings i key (first (int_of now_ms)) 8 ttl now_ms (some (.Int 0))
      else (.ok (done none), v)
  | .Changed _ value ttl =>
    match entry with
    | some e =>
      match e.data with
      | .Lww _ held =>
        if exact_eq held value.value then
          (.ok (done (some (.Bool false))), v.touch settings i e ttl now_ms)
        else
          (.ok (done (some (.Bool true))), v.write settings i e (lww value.value)
            (ENTRY_OVERHEAD + key.length + value.bytes) ttl now_ms)
      | held => v.refusedType held "lww"
    | none =>
      v.inserted settings i key (lww value.value) value.bytes ttl now_ms (some (.Bool true))
  | .HllAdd _ hash ttl =>
    match entry with
    | some e =>
      match e.data with
      | .Hll sketch =>
        let before := sketch_bytes sketch
        let sketch := (sketch.add hash).2
        let bytes := if sketch_bytes sketch ≠ before
          then e.bytes + (sketch_bytes sketch - before) else e.bytes
        (.ok (done (some (estimate est sketch))),
          v.write settings i e (.Hll sketch) bytes ttl now_ms)
      | held => v.refusedType held "hll"
    | none =>
      let sketch := ((Hll.mk (.Sparse [])).add hash).2
      v.inserted settings i key (.Hll sketch) (SKETCH_OVERHEAD + sketch_bytes sketch) ttl now_ms
        (some (estimate est sketch))
  | .HllCount _ =>
    match entry with
    | none => (.ok (done (some (.Int 0))), v)
    | some e =>
      match e.data with
      | .Hll sketch => (.ok (done (some (estimate est sketch))), v.touch settings i e none now_ms)
      | held => v.refusedType held "hll"

/-- A key past its expiry is taken out by whoever finds it. -/
def expireFound (v : View) (i : Fin SHARDS) (key : Key) (now_ms : Nat) : View :=
  if (v.shard i).map[key]?.any (·.expired now_ms) then v.expire i key else v

def apply (est : Estimate) (v : View) (settings : NamespaceSettings) (op : StateOp)
    (i : Fin SHARDS) (now_ms : Nat) : Answer (Step StateReply) :=
  (v.expireFound i (op_key op) now_ms).applyLive est settings op i now_ms

/-- One attempt at a call: the shard of its key, at one reading of the clock. -/
def attempt (est : Estimate) (settings : NamespaceSettings) (op : StateOp) (v : View) :
    Answer (Step StateReply) :=
  let i := v.ns.shard_of (op_key op)
  let (step, v) := v.ticked.apply est settings op i v.now
  (step, v.note_used i)

end View

end mqttd.rule_state.local_store
