-- What goes on around one attempt at a call (`rule_state.rs`, `rule_state/expiry.rs`): how a
-- call makes room, which keys it evicts, how `kv_incr` counts a message once, and the
-- sweep that hands the keys that have expired to the rules that want their events.
import MqttBroker.RuleState.LocalStore

namespace mqttd.rule_state.local_store

open mqtt_rules

namespace View

/-! ## Making room -/

/-- The loop of `hold_expired_oldest`, with whether it has found one so far. -/
def hold_loop (i : Fin SHARDS) (now_ms : Nat) : Nat → Bool → View → Bool × View
  | 0, any, v => (any, v)
  | n + 1, any, v =>
    match (v.shard i).used.toList with
    | [] => (any, v)
    | (_, key) :: _ =>
      if (v.shard i).map[key]?.any (·.expired now_ms) then
        hold_loop i now_ms n true (v.expire i key)
      else (any, v)

/-- A shard's least recently used keys that have expired are held for their events. The
reading of the clock comes with the answer. -/
def hold_expired_oldest (v : View) (i : Fin SHARDS) : Bool × Nat × View :=
  if !v.sh.expiry_events then (false, v.now, v)
  else
    let (any, v') := hold_loop i v.now PURGE_BATCH false v.ticked
    (any, v.now, v')

def oldest_shard (v : View) : Option (Fin SHARDS) :=
  let noted : List (Nat ×ₗ Fin SHARDS) :=
    (List.finRange SHARDS).filterMap (fun i => (v.ns.oldest i).map (fun used => toLex (used, i)))
  noted.min?.map (fun x => (ofLex x).2)

/-- An entry was evicted, at the reading `now_ms`. -/
def evictedEntry (v : View) (e : Option Entry) (now_ms : Nat) : View :=
  { v with ns := { v.ns with
    evicted := v.ns.evicted + 1
    evictions := v.ns.evictions ++ e.toList.map (fun e => (e, now_ms)) } }

/-- The walk of `evict_one` over the shards: any key makes room but one that has expired. -/
def evict_any (now_ms : Nat) (order : Fin SHARDS → List Key) :
    List (Fin SHARDS) → View → Bool × View
  | [], v => (false, v)
  | i :: rest, v =>
    let found := (((order i).filterMap (fun key => (v.shard i).map[key]?)).take PURGE_BATCH).find?
      (fun e => !(v.sh.expiry_events && e.expired now_ms))
    match found with
    | some e => (true, ((v.remove i e.key).2).evictedEntry (some e) now_ms)
    | none => evict_any now_ms order rest v

/-- The last part of `evict_one`: keys that are in no order of use. -/
def evict_unordered (v : View) : Bool × View :=
  evict_any v.now (v.sh.walk v.sh.reads) (List.finRange SHARDS) v.ticked

/-- Evicts the key that was used least recently, with so many looks at the shards left. -/
def evict_loop : Nat → View → Bool × View
  | 0, v => v.evict_unordered
  | n + 1, v =>
    match v.oldest_shard with
    | none => v.evict_unordered
    | some i =>
      match v.hold_expired_oldest i with
      | (true, _, v) => evict_loop n (v.note_oldest i)
      | (false, now_ms, v) =>
        match (v.shard i).used.toList with
        | [] => (v.note_oldest i).evict_unordered
        | (_, key) :: _ =>
          let entry := (v.shard i).map[key]?
          match v.remove i key with
          | (true, v) => (true, (v.note_oldest i).evictedEntry entry now_ms)
          | (false, v) => (v.note_oldest i).evict_unordered

def evict_one (v : View) : Bool × View := evict_loop (SHARDS + 1) v

/-- The refusal of a new key that found no room. -/
def full (v : View) (settings : NamespaceSettings) (refusal : Refusal) : StateError × View :=
  let message := match refusal with
    | .Brownout =>
      "the broker is over its memory watermark, so namespace `" ++ v.ns.name ++
        "` takes no new key (existing keys still update and delete)"
    | .StoreFull =>
      "rule state holds " ++ toString v.sh.bytes ++
        " bytes across its namespaces, and a new key in `" ++ v.ns.name ++
        "` would pass the store's ceiling of " ++ toString v.sh.max_bytes ++
        " (`rules.state_max_bytes`)"
    | _ =>
      "namespace `" ++ v.ns.name ++ "` holds " ++ toString v.ns.keys ++ " keys and " ++
        toString v.ns.bytes ++ " bytes (max_keys " ++ toString settings.max_keys ++
        ", max_bytes " ++ toString settings.max_bytes ++ "); a new key does not fit"
  v.refuse refusal message

def refusedFull {α : Type} (v : View) (settings : NamespaceSettings) (refusal : Refusal) :
    Answer α :=
  let (e, v) := v.full settings refusal
  (.error e, v)

/-- The loop of `with_room`. Each turn but the last one takes a key out, so that the keys in
the maps and the evictions left are fuel enough. -/
def room_loop {α : Type} (settings : NamespaceSettings) (attempt : View → Answer (Step α)) :
    Nat → Nat → View → Answer α
  | 0, _, v => v.refusedFull settings .NamespaceFull
  | fuel + 1, evictions, v =>
    match attempt v with
    | (.error e, v) => (.error e, v)
    | (.ok (.Done a), v) => (.ok a, v)
    | (.ok (.NeedRoom refusal), v) =>
      if refusal = .Brownout then v.refusedFull settings refusal
      else
        match v.purge_all with
        | (true, v) => room_loop settings attempt fuel evictions v
        | (false, v) =>
          if settings.eviction = .Lru ∧ evictions < MAX_EVICTIONS_PER_CALL then
            match v.evict_one with
            | (true, v) => room_loop settings attempt fuel (evictions + 1) v
            | (false, v) => v.refusedFull settings refusal
          else v.refusedFull settings refusal

def mapped (v : View) : Nat := ((List.finRange SHARDS).map (fun i => (v.shard i).map.size)).sum

/-- Tries until it is done, making room between two tries. -/
def with_room {α : Type} (settings : NamespaceSettings) (attempt : View → Answer (Step α))
    (v : View) : Answer α :=
  room_loop settings attempt (v.mapped + MAX_EVICTIONS_PER_CALL + 1) 0 v

/-! ## Counting a message once -/

/-- Remembers an idempotency key from now on; answers whether it was not remembered. -/
def remember (settings : NamespaceSettings) (seen : Key) (v : View) : Answer (Step Bool) :=
  let now_ms := v.now
  let i := v.ns.shard_of seen
  let v := v.ticked.expireFound i seen now_ms
  match (v.shard i).map[seen]? with
  | some e => (.ok (.Done false), (v.touch settings i e none now_ms).note_used i)
  | none =>
    match v.insert settings i seen (first (int_of now_ms)) NUMBER_BYTES
        (some settings.dedupe_window_secs) now_ms with
    | (.ok (), v) => (.ok (.Done true), v.note_used i)
    | (.error refusal, v) => (.ok (.NeedRoom refusal), v.note_used i)

/-- What the counter of a key holds, for a call that adds nothing. -/
def count (est : Estimate) (settings : NamespaceSettings) (key : Key) (v : View) :
    Answer StateReply :=
  let now_ms := v.now
  let i := v.ns.shard_of key
  let v := v.ticked.expireFound i key now_ms
  match (v.shard i).map[key]? with
  | none => (.ok { value := some (.Int 0), read_bytes := 0 }, v.note_used i)
  | some e =>
    match e.data with
    | .Sum _ =>
      (.ok { value := some (read est e.data), read_bytes := 0 },
        (v.touch settings i e none now_ms).note_used i)
    | held => v.refusedType held "sum"

/-- `kv_incr` with an idempotency key: the first call with it increments. One whose increment
is refused takes the entry out again. -/
def incr_once (est : Estimate) (settings : NamespaceSettings) (key : Key) (by_ : Int64)
    (ttl : Option Nat) (once : Key) (v : View) : Answer StateReply :=
  let seen := remembered_of once
  match v.with_room settings (remember settings seen) with
  | (.error e, v) => (.error e, v)
  | (.ok false, v) => v.count est settings key
  | (.ok true, v) =>
    match v.with_room settings (attempt est settings (.Incr key by_ ttl)) with
    | (.ok reply, v) => (.ok reply, v)
    | (.error e, v) =>
      let i := v.ns.shard_of seen
      (.error e, ((v.remove i seen).2).note_used i)

def call (est : Estimate) (settings : NamespaceSettings) (op : StateOp) (v : View) :
    Answer StateReply :=
  match op with
  | .IncrOnce key by_ ttl once => v.incr_once est settings key by_ ttl once
  | op => v.with_room settings (attempt est settings op)

end View

/-! ## The keys of a shard that are due -/

namespace Shard

/-- The second of the earliest key that expires, or has and is held. -/
def first_expiry (s : Shard) : Option Nat :=
  let live := s.expiry.toList.head?.map (fun x => (ofLex x).1)
  let held := s.held.toList.head?.map (fun x => (ofLex x.1).1)
  match live, held with
  | some a, some b => some (min a b)
  | a, b => a.or b

/-- The loop of `pop_expired`. -/
def pop_loop (slot : Nat) : Nat → Shard → Option Entry × Shard
  | 0, s => (none, s)
  | n + 1, s =>
    let live := s.expiry.toList.head?
    let fits (place : Nat ×ₗ Nat) : Bool :=
      decide ((ofLex place).1 ≤ slot) && live.all (fun x => decide ((ofLex place).1 ≤ (ofLex x).1))
    match s.held.toList.head?.filter (fun h => fits h.1) with
    | some (place, e) => (some e, { s with held := s.held.erase place })
    | none =>
      match live with
      | none => (none, s)
      | some x =>
        if (ofLex x).1 > slot then (none, s)
        else
          let s := { s with expiry := s.expiry.erase x }
          -- The order names a key that the map holds with that expiry; else the next one is
          -- looked at.
          if s.map[(ofLex x).2]?.any (fun e => decide (expiry_slot e.expires_ms = (ofLex x).1))
          then s.take (ofLex x).2
          else pop_loop slot n s

/-- Takes out the key that expired earliest, if that was in `slot` or before. -/
def pop_expired (s : Shard) (slot : Nat) : Option Entry × Shard :=
  pop_loop slot (s.expiry.size + 1) s

/-- A batch of the sweep from one shard: at most so many keys, of which `left` count. -/
def batch (events : Bool) (slot : Nat) : Nat → Nat → Shard → List Entry × Nat × Shard
  | 0, _, s => ([], 0, s)
  | n + 1, left, s =>
    if left = 0 then ([], 0, s)
    else match s.pop_expired slot with
      | (none, s) => ([], 0, s)
      | (some e, s) =>
        let counts := if !events || !remembered e.key then 1 else 0
        let (es, counted, s) := batch events slot n (left - counts) s
        (e :: es, counts + counted, s)

end Shard

/-! ## The sweep -/

/-- What the event of an expired key reports. `of` and `life` say which life of which key of
which namespace it is, for the statements about runs. -/
structure Expired where
  «namespace» : String
  key : Key
  kind : String
  value : Value
  expired_ms : Nat
  of : Nat
  life : Nat

def Expired.ofEntry (est : Estimate) (name : String) (n : Nat) (e : Entry) : Expired :=
  { «namespace» := name, key := e.key, kind := type_name e.data, value := read est e.data,
    expired_ms := e.expires_ms, of := n, life := e.life }

structure Swept where
  expired : List Expired := []
  removed : Nat := 0
  more : Bool := false
  next_due_ms : Option Nat := none

structure Store where
  shared : Shared
  namespaces : List Namespace

/-- A shard with a key due: the second, the namespace and the shard. -/
abbrev Due := Nat ×ₗ (Nat ×ₗ Fin SHARDS)

structure Sweeping where
  store : Store
  due : List Due := []
  swept : Swept := {}
  left : Nat
  taken : List (Nat × Entry) := []

namespace Sweeping

/-- Sorts a shard by the second of its earliest key: due now, or next. -/
def sort (st : Sweeping) (now_ms : Nat) (first : Option Nat) (n : Nat) (i : Fin SHARDS) :
    Sweeping :=
  match first with
  | none => st
  | some slot =>
    let due_ms := mul_saturating slot 1000
    if due_ms ≤ now_ms then { st with due := toLex (slot, toLex (n, i)) :: st.due }
    else { st with swept := { st.swept with
      next_due_ms := some (st.swept.next_due_ms.elim due_ms (min due_ms)) } }

def look (st : Sweeping) (now_ms : Nat) (n : Nat) (ns : Namespace) : Sweeping :=
  if ns.keys = 0 then st
  else (List.finRange SHARDS).foldl
    (fun st i => st.sort now_ms (ns.shards i).first_expiry n i) st

/-- One batch from the shard with the earliest key. -/
def turn (st : Sweeping) (now_ms : Nat) (first : Due) : Sweeping :=
  let slot := (ofLex first).1
  let n := (ofLex (ofLex first).2).1
  let i := (ofLex (ofLex first).2).2
  match st.store.namespaces[n]? with
  | none => { st with due := st.due.erase first }
  | some ns =>
    let events := st.store.shared.expiry_events
    let (es, counted, s) := (ns.shards i).batch events slot PURGE_BATCH st.left
    let v := ((View.mk st.store.shared ns).setShard i s).note_used i
    let st : Sweeping :=
      { st with
        due := st.due.erase first
        left := st.left - counted
        taken := st.taken ++ es.map (fun e => (n, e))
        store := { st.store with namespaces := st.store.namespaces.set n v.ns } }
    st.sort now_ms s.first_expiry n i

def loop (now_ms : Nat) : Nat → Sweeping → Sweeping
  | 0, st => st
  | fuel + 1, st =>
    match st.due.min? with
    | none => st
    | some first =>
      if st.left = 0 then { st with swept := { st.swept with more := true } }
      else loop now_ms fuel (st.turn now_ms first)

/-- A key that was taken out: its room is given back, and its event is handed over. -/
def handOver (est : Estimate) (st : Sweeping) (n : Nat) (e : Entry) : Sweeping :=
  match st.store.namespaces[n]? with
  | none => st
  | some ns =>
    let v := (View.mk st.store.shared ns).release e
    let store := { shared := v.sh, namespaces := st.store.namespaces.set n v.ns }
    if st.store.shared.expiry_events && !remembered e.key then
      { st with store, swept := { st.swept with
        expired := st.swept.expired ++ [Expired.ofEntry est ns.name n e] } }
    else { st with store, swept := { st.swept with removed := st.swept.removed + 1 } }

end Sweeping

namespace Store

def keys (s : Store) : Nat := (s.namespaces.map (·.keys)).sum

/-- The sweep up to the keys that it takes out: the first look, and the batches. Each batch
takes a key out, so that the keys and the shards are fuel enough. -/
def taking (s : Store) (max : Nat) : Sweeping :=
  let now_ms := s.shared.clock s.shared.reads
  let s' := { s with shared := { s.shared with reads := s.shared.reads + 1 } }
  let st : Sweeping := s'.namespaces.zipIdx.foldl (fun st x => st.look now_ms x.2 x.1)
    { store := s', left := max }
  Sweeping.loop now_ms (s.keys + st.due.length + 1) st

/-- Removes keys whose expiry has passed, at most `max` of them, the earliest second first. -/
def sweep (est : Estimate) (s : Store) (max : Nat) : Swept × Store :=
  let st := s.taking max
  let st := st.taken.foldl (fun st x => st.handOver est x.1 x.2) st
  (st.swept, st.store)

def call (est : Estimate) (s : Store) (n : Nat) (settings : NamespaceSettings) (op : StateOp) :
    Option (Except StateError StateReply) × Store :=
  match s.namespaces[n]? with
  | none => (none, s)
  | some ns =>
    let (answer, v) := View.call est settings op ⟨s.shared, ns⟩
    (some answer, { shared := v.sh, namespaces := s.namespaces.set n v.ns })

end Store

/-! ## Runs -/

inductive Event
  | Call (n : Nat) (settings : NamespaceSettings) (op : StateOp)
  | Sweep (max : Nat)
  /-- The broker goes over its memory watermark, or under it again. -/
  | Brownout (on : Bool)

/-- What came of an event: the answer of a call, or what a sweep did. -/
inductive Outcome
  | Answered (n : Nat) (answer : Option (Except StateError StateReply))
  | Swept (swept : Swept)
  | Noted

namespace Store

def step (est : Estimate) (s : Store) : Event → Outcome × Store
  | .Call n settings op =>
    let (answer, s) := s.call est n settings op
    (.Answered n answer, s)
  | .Sweep max =>
    let (swept, s) := s.sweep est max
    (.Swept swept, s)
  | .Brownout on => (.Noted, { s with shared := { s.shared with brownout := on } })

def run (est : Estimate) : List Event → Store → List Outcome × Store
  | [], s => ([], s)
  | e :: es, s =>
    let (o, s) := s.step est e
    let (os, s) := run est es s
    (o :: os, s)

end Store

end mqttd.rule_state.local_store
