-- The log of one node on disk (`mqtt-storage/src/persistent_log.rs`) and the log in
-- memory (`InMemoryReplicatedLog` of `repl.rs`). The one on disk keeps all keys in one
-- ordered table of byte strings, and its appends are committed in batches.
import MqttBroker.Lib.ByteOrder
import MqttBroker.Cluster.Pipeline

namespace mqtt_storage.repl

/-! ## The calls of a log -/

inductive Call
  | append (key : String) (record : List UInt8)
  | read (key : String) (after limit : Nat)
  | live_range (key : String)
  | truncate (key : String) (up_to : Nat)
  | remove (key : String)
  | keys
  deriving DecidableEq

inductive Answer
  | Offset (offset : Nat)
  | Entries (entries : List LogEntry)
  | Range (range : Option (Nat × Nat))
  | Done
  | Keys (keys : List String)
  | Error (error : ReplError)
  deriving DecidableEq

/-! ## The log in memory -/

structure LogState where
  entries : List LogEntry := []
  next_offset : Nat := 0

def LogState.live_range (s : LogState) : Option (Nat × Nat) :=
  match s.entries.head?, s.entries.getLast? with
  | some front, some back => some (front.offset, back.offset)
  | _, _ => none

structure InMemoryReplicatedLog where
  logs : BTreeMap String LogState := ∅

namespace InMemoryReplicatedLog

def append (m : InMemoryReplicatedLog) (key : String) (record : List UInt8) :
    InMemoryReplicatedLog × Answer :=
  let state := m.logs[key]?.getD {}
  let offset := state.next_offset + 1
  let entries := state.entries ++ [⟨offset, record⟩]
  ({ logs := m.logs.insert key { entries, next_offset := offset } }, .Offset offset)

def read (m : InMemoryReplicatedLog) (key : String) (after limit : Nat) : List LogEntry :=
  match m.logs[key]? with
  | none => []
  | some s => (s.entries.filter (fun e => decide (after < e.offset))).take limit

def live_range (m : InMemoryReplicatedLog) (key : String) : Option (Nat × Nat) :=
  m.logs[key]?.bind LogState.live_range

def truncate (m : InMemoryReplicatedLog) (key : String) (up_to : Nat) : InMemoryReplicatedLog :=
  match m.logs[key]? with
  | none => m
  | some s =>
    let entries := s.entries.dropWhile (fun e => decide (e.offset ≤ up_to))
    { logs := m.logs.insert key { s with entries } }

/-- The keys with entries. The map tells no order of them; they stand in the order of the keys
here. -/
def keys (m : InMemoryReplicatedLog) : List String :=
  (m.logs.toList.filter (fun e => !e.2.entries.isEmpty)).map Prod.fst

def remove (m : InMemoryReplicatedLog) (key : String) : InMemoryReplicatedLog :=
  { logs := m.logs.erase key }

def call (m : InMemoryReplicatedLog) : Call → InMemoryReplicatedLog × Answer
  | .append key record => m.append key record
  | .read key after limit => (m, .Entries (m.read key after limit))
  | .live_range key => (m, .Range (m.live_range key))
  | .truncate key up_to => (m.truncate key up_to, .Done)
  | .remove key => (m.remove key, .Done)
  | .keys => (m, .Keys m.keys)

def answers (m : InMemoryReplicatedLog) : List Call → List Answer
  | [] => []
  | c :: calls => (m.call c).2 :: answers (m.call c).1 calls

end InMemoryReplicatedLog

end mqtt_storage.repl

namespace mqtt_storage.persistent_log

open ByteCodec (toBe ofBe stringBytes)
open mqtt_storage.repl
open ByteOrder

/-! ## The keys of the table -/

def U32_MAX : Nat := 2 ^ 32 - 1
def U64_MAX : Nat := 2 ^ 64 - 1

/-- The length of the key, the key and the offset, the numbers big-endian. -/
def entry_key (key : String) (offset : Nat) : List UInt8 :=
  toBe 4 (min (stringBytes key).length U32_MAX) ++ stringBytes key ++ toBe 8 offset

def entry_bounds (key : String) (after : Nat) : List UInt8 × List UInt8 :=
  (entry_key key (min (after + 1) U64_MAX), entry_key key U64_MAX)

def decode_entry_key (bytes : List UInt8) : Option String :=
  if bytes.length < 4 then none
  else
    let len := ofBe (bytes.take 4)
    if bytes.length < 4 + len then none
    else String.fromUTF8? ⟨((bytes.drop 4).take len).toArray⟩

def decode_offset (bytes : List UInt8) : Nat := ofBe (bytes.drop (bytes.length - 8))

/-! ## The database -/

def SCHEMA_VERSION : Nat := 2

/-- What a file holds: the two tables, and the stamp of the layout. -/
structure Database where
  entries : BTreeMap (List UInt8) (List UInt8) := ∅
  next_offset : BTreeMap String Nat := ∅
  version : Option Nat := none

/-- The entries with keys between two, in the order of the keys. -/
def range (entries : BTreeMap (List UInt8) (List UInt8)) (bounds : List UInt8 × List UInt8) :
    List (List UInt8 × List UInt8) :=
  entries.toList.filter (fun e => decide (bounds.1 ≤ e.1 ∧ e.1 ≤ bounds.2))

namespace Database

/-- The gate at an open: a fresh file is stamped, and one of another layout is refused. There is no
migration. -/
def gate_or_migrate (db : Database) : Option Database :=
  match db.version with
  | none => some { db with version := some SCHEMA_VERSION }
  | some v => if v = SCHEMA_VERSION then some db else none

/-- One append inside the transaction of a batch. -/
def assign (db : Database) (key : String) (record : List UInt8) : Database × Nat :=
  let next := db.next_offset[key]?.getD 0 + 1
  ({ db with
      next_offset := db.next_offset.insert key next,
      entries := db.entries.insert (entry_key key next) record }, next)

def read (db : Database) (key : String) (after limit : Nat) : List LogEntry :=
  ((range db.entries (entry_bounds key after)).take limit).map
    (fun e => { offset := decode_offset e.1, record := e.2 })

def live_range (db : Database) (key : String) : Option (Nat × Nat) :=
  match range db.entries (entry_bounds key 0) with
  | [] => none
  | first :: rest =>
    match rest.getLast? with
    | none => some (decode_offset first.1, decode_offset first.1)
    | some last => some (decode_offset first.1, decode_offset last.1)

/-- Drops the entries between two keys. -/
def drop_range (db : Database) (bounds : List UInt8 × List UInt8) : Database :=
  { db with
    entries := ((range db.entries bounds).map Prod.fst).foldl (fun t k => t.erase k) db.entries }

def truncate (db : Database) (key : String) (up_to : Nat) : Database :=
  db.drop_range (entry_key key 0, entry_key key up_to)

def keys (db : Database) : List String :=
  ((db.entries.toList.filterMap (fun e => decode_entry_key e.1)).foldl
    (fun s k => s.insert k) (∅ : BTreeSet String)).toList

def remove (db : Database) (key : String) : Database :=
  let db := db.drop_range (entry_bounds key 0)
  { db with next_offset := db.next_offset.erase key }

end Database

/-! ## The log on disk -/

structure AppendJob where
  key : String
  record : List UInt8
  deriving DecidableEq

def AppendJob.call (job : AppendJob) : Call := .append job.key job.record

/-- Where the transaction of a batch fails: after how many of its appends, and why. -/
structure Fault where
  reached : Nat
  message : String

structure PersistentLog where
  db : Database
  /-- The appends that the writer has not taken yet, in the order of their arrival. -/
  queue : List AppendJob := []

namespace PersistentLog

/-- Opens the log over a file: the tables are there or are made empty. -/
def «open» (db : Database) : Option PersistentLog := db.gate_or_migrate.map (fun db => { db })

/-- The appends of a batch inside one transaction, with their offsets. -/
def assign_all (db : Database) : List AppendJob → Database × List (Call × Answer)
  | [] => (db, [])
  | job :: jobs =>
    let (db, offset) := db.assign job.key job.record
    let (db, answered) := assign_all db jobs
    (db, (job.call, .Offset offset) :: answered)

/-- What the callers of a failed batch are told: an append that had its offset the error, and a
later one that its job was dropped. -/
def fail_all (fault : Fault) (jobs : List AppendJob) : List (Call × Answer) :=
  (jobs.take fault.reached).map (fun job => (job.call,
      .Error (.Backend ("replicated-log backend error: " ++ fault.message)))) ++
    (jobs.drop fault.reached).map (fun job => (job.call,
      .Error (.Backend "append writer dropped the job")))

/-- What happens at a log. -/
inductive Event
  | append (key : String) (record : List UInt8)
  /-- The writer drains some of the appends that wait and commits them, or fails to. -/
  | batch (jobs : Nat) (fault : Option Fault)
  | read (key : String) (after limit : Nat)
  | live_range (key : String)
  | truncate (key : String) (up_to : Nat)
  | remove (key : String)
  | keys
  /-- The last handle goes, and the file is opened again. -/
  | reopen
  /-- The process dies with the appends that wait, and the file is opened again. -/
  | crash

/-- One event, with the calls that it answers. Nothing when it cannot be: a batch has the first of
the appends that wait and one of them at least, and the last handle goes only after the writer has
drained them all. -/
def step (s : PersistentLog) : Event → Option (PersistentLog × List (Call × Answer))
  | .append key record => some ({ s with queue := s.queue ++ [⟨key, record⟩] }, [])
  | .batch n fault =>
    if n = 0 ∨ s.queue.length < n then none
    else
      let jobs := s.queue.take n
      match fault with
      | none =>
        let (db, answered) := assign_all s.db jobs
        some ({ db, queue := s.queue.drop n }, answered)
      | some fault => some ({ s with queue := s.queue.drop n }, fail_all fault jobs)
  | .read key after limit =>
    some (s, [(.read key after limit, .Entries (s.db.read key after limit))])
  | .live_range key => some (s, [(.live_range key, .Range (s.db.live_range key))])
  | .truncate key up_to =>
    some ({ s with db := s.db.truncate key up_to }, [(.truncate key up_to, .Done)])
  | .remove key => some ({ s with db := s.db.remove key }, [(.remove key, .Done)])
  | .keys => some (s, [(.keys, .Keys s.db.keys)])
  | .reopen =>
    if s.queue.isEmpty then (PersistentLog.open s.db).map (fun s => (s, [])) else none
  | .crash => (PersistentLog.open s.db).map (fun s => (s, []))

def run (s : PersistentLog) : List Event → Option (PersistentLog × List (Call × Answer))
  | [] => some (s, [])
  | e :: events => do
    let (s, answered) ← s.step e
    let (s, later) ← run s events
    return (s, answered ++ later)

end PersistentLog

end mqtt_storage.persistent_log
