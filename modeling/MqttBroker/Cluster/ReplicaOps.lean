-- What a lease-holder ships to its replicas (`cluster_log.rs`), and how a
-- log key finds its placement group and its shard (`hrw.rs`, `placement.rs`).
import MqttBroker.Lib.OrderedMap
import MqttBroker.Lib.Bytes

namespace mqtt_cluster

abbrev Offset := Nat
abbrev Epoch := Nat
abbrev GroupId := Nat
abbrev Bytes := List UInt8

abbrev as_bytes (s : String) : Bytes := ByteCodec.stringBytes s

/-! ## The placement group of a key -/

namespace hrw

def FNV_OFFSET : UInt64 := 0xcbf29ce484222325
def FNV_PRIME : UInt64 := 0x00000100000001b3

def fnv1a (seed : UInt64) (bytes : Bytes) : UInt64 :=
  bytes.foldl (fun h b => (h ^^^ b.toUInt64) * FNV_PRIME) seed

def mix64 (z : UInt64) : UInt64 :=
  let z := (z ^^^ (z >>> 30)) * 0xbf58476d1ce4e5b9
  let z := (z ^^^ (z >>> 27)) * 0x94d049bb133111eb
  z ^^^ (z >>> 31)

@[irreducible] def stable_id (bytes : Bytes) : UInt64 := mix64 (fnv1a FNV_OFFSET bytes)

end hrw

namespace placement

def NUM_GROUPS : Nat := 256

def group_of (client : Bytes) : GroupId := (hrw.stable_id client).toNat % NUM_GROUPS

/-- The string from byte 2 on, as `get(2..)`: nothing when the string is
shorter, or when byte 2 is inside a character. -/
def from_byte_two (bytes : Bytes) : Option Bytes :=
  if bytes.length < 2 then none
  else match bytes[2]? with
    | none => some []
    | some b => if b < 128 ∨ 192 ≤ b then some (bytes.drop 2) else none

/-- The group of a log key: the two bytes of its kind do not count. -/
def group_of_key (key : String) : GroupId :=
  group_of ((from_byte_two (as_bytes key)).getD (as_bytes key))

theorem group_of_key_lt (key : String) : group_of_key key < NUM_GROUPS :=
  Nat.mod_lt _ (by decide)

end placement

namespace cluster_log

open placement

/-- The `(epoch, seq)` of a write attempt, ordered first by epoch. -/
abbrev Tag := Epoch ×ₗ Nat

def tag (epoch : Epoch) (seq : Nat) : Tag := toLex (epoch, seq)

def Tag.epoch (t : Tag) : Epoch := (ofLex t).1
def Tag.seq (t : Tag) : Nat := (ofLex t).2

@[simp] theorem epoch_tag (e : Epoch) (s : Nat) : Tag.epoch (tag e s) = e := rfl
@[simp] theorem seq_tag (e : Epoch) (s : Nat) : Tag.seq (tag e s) = s := rfl

theorem tag_le_iff (e e' : Epoch) (s s' : Nat) :
    tag e s ≤ tag e' s' ↔ e < e' ∨ e = e' ∧ s ≤ s' := Prod.Lex.le_iff

theorem epoch_le_of_le {t t' : Tag} (h : t ≤ t') : t.epoch ≤ t'.epoch := by
  rcases (tag_le_iff t.epoch t'.epoch t.seq t'.seq).mp h with hlt | ⟨heq, _⟩
  · exact Nat.le_of_lt hlt
  · exact Nat.le_of_eq heq

/-! ## The operations -/

inductive ReplOp
  | Append (key : String) (offset : Offset) (seq : Nat) (record : Bytes)
  | Truncate (key : String) (up_to : Offset)
  | Remove (key : String)
  deriving DecidableEq, Repr

def op_key : ReplOp → String
  | .Append key _ _ _ => key
  | .Truncate key _ => key
  | .Remove key => key

def op_group (op : ReplOp) : GroupId := group_of_key (op_key op)

theorem op_group_lt (op : ReplOp) : op_group op < NUM_GROUPS := group_of_key_lt _

/-- The shard that owns a group, of a store of `shards` files. -/
def shard_of_group (group : GroupId) (shards : Nat) : Nat :=
  if shards ≤ 1 then 0 else group % shards

theorem shard_of_group_lt (group : GroupId) {shards : Nat} (h : 0 < shards) :
    shard_of_group group shards < shards := by
  unfold shard_of_group
  split
  · exact h
  · exact Nat.mod_lt _ h

/-! ## The logs of a replica -/

/-- One stored entry: the tag it was written under, and its record. -/
abbrev Stored := Tag × Bytes

abbrev KeyMap (α : Type) := BTreeMap String (BTreeMap Offset α)

abbrev ReplicaLogs := KeyMap Stored

abbrev Fences := BTreeMap GroupId Epoch

abbrev CaughtUp := BTreeMap GroupId (BTreeSet String)

section keymap

variable {α : Type}

/-- The log of a key: empty when the replica holds none. -/
def logOf (logs : KeyMap α) (key : String) : BTreeMap Offset α := logs[key]?.getD ∅

def held (logs : KeyMap α) (key : String) (offset : Offset) : Option α :=
  (logOf logs key)[offset]?

theorem logOf_ext {logs logs' : KeyMap α} {key : String}
    (h : ∀ offset, held logs key offset = held logs' key offset) :
    logOf logs key = logOf logs' key := BTreeMap.ext h

@[simp] theorem held_empty (key : String) (offset : Offset) :
    held (∅ : KeyMap α) key offset = none := by
  simp [held, logOf]

theorem logOf_insert (logs : KeyMap α) (key key' : String) (log : BTreeMap Offset α) :
    logOf (logs.insert key log) key' = if key = key' then log else logOf logs key' := by
  unfold logOf
  rw [BTreeMap.get_insert]
  split <;> simp

theorem logOf_erase (logs : KeyMap α) (key key' : String) :
    logOf (logs.erase key) key' = if key = key' then ∅ else logOf logs key' := by
  unfold logOf
  rw [BTreeMap.get_erase]
  split <;> simp

def NoEmpty (logs : KeyMap α) : Prop :=
  ∀ (key : String) log, logs[key]? = some log → ∃ offset : Offset, (log[offset]?).isSome

theorem logs_ext {logs logs' : KeyMap α} (hn : NoEmpty logs) (hn' : NoEmpty logs')
    (h : ∀ key offset, held logs key offset = held logs' key offset) : logs = logs' := by
  ext key : 1
  have hl : logOf logs key = logOf logs' key := logOf_ext (h key)
  unfold logOf at hl
  rcases ha : logs[key]? with _ | log <;> rcases hb : logs'[key]? with _ | log'
  · rfl
  · obtain ⟨o, ho⟩ := hn' key log' hb
    rw [ha, hb] at hl
    simp only [Option.getD_none, Option.getD_some] at hl
    rw [← hl] at ho
    simp at ho
  · obtain ⟨o, ho⟩ := hn key log ha
    rw [ha, hb] at hl
    simp only [Option.getD_none, Option.getD_some] at hl
    rw [hl] at ho
    simp at ho
  · rw [ha, hb] at hl
    simpa using hl

end keymap

end cluster_log

end mqtt_cluster
