-- One node's copy of an eventual namespace (`rule_state/replica.rs`): the keys of each
-- shard with their places in the order of change, and the links that read on from
-- their cursors. Each step holds one shard's lock once, and the steps of the rules, of
-- the merges and of the links come in any order.
import MqttBroker.Lib.OrderedMap
import MqttBroker.Rules.CrdtWrites

namespace mqttd.rule_state.replica

open mqtt_rules

abbrev Key := List UInt8

def SHARDS : Nat := 64

def HELD_KEYS : Nat := 32

def MAX_KEY_BYTES : Nat := 256

/-! ## A copy -/

structure Entry where
  state : KeyState
  /-- Its place in the shard's order of change; 0 while this node has not changed it. -/
  changed : Nat := 0

structure Shard where
  map : Key → Option Entry := fun _ => none
  /-- The keys that this node changed, by the number of their latest change. -/
  changed : BTreeMap Nat Key := ∅
  last : Nat := 0
  /-- The furthest that any link has read. -/
  read_to : Nat := 0

namespace Shard

def put (s : Shard) (key : Key) (entry : Option Entry) : Shard :=
  { s with map := fun k => if k = key then entry else s.map k }

/-- Takes a key out of the map and of the order of change. -/
def detach (s : Shard) (key : Key) : Shard :=
  match s.map key with
  | none => s
  | some entry =>
    { s.put key none with
      changed := if entry.changed ≠ 0 then s.changed.erase entry.changed else s.changed }

/-- A key that no link has read past keeps its place, else it goes to the end. -/
def take_place (s : Shard) (key : Key) (entry : Entry) : Shard :=
  if entry.changed = 0 ∨ entry.changed ≤ s.read_to then
    let order := if entry.changed ≠ 0 then s.changed.erase entry.changed else s.changed
    { s.put key (some { entry with changed := s.last + 1 }) with
      last := s.last + 1
      changed := order.insert (s.last + 1) key }
  else s.put key (some entry)

end Shard

/-- A call of `take_changed` that goes round the shards. -/
structure Call where
  budget : Nat
  step : Nat := 0
  found : Bool := false
  bytes : Nat := 0

structure Link where
  /-- Its place in each shard's order of change. -/
  cursor : Nat → Nat := fun _ => 0
  /-- The shards in which it has taken its first place. -/
  made : Nat := 0
  from_ : Nat := 0
  call : Option Call := none

/-- What happened to a key, the latest first. -/
inductive Event
  | Wrote (key : Key) (before after : Option KeyState)
  | Forgot (key : Key)
  | Linked (link : Nat)
  | Handed (link : Nat) (key : Key) (state : KeyState)

structure Replica where
  shards : Nat → Shard := fun _ => {}
  /-- The number of each shard's latest change, for readers without its lock. -/
  marks : Nat → Nat := fun _ => 0
  clock : Hlc
  links : List Link := []
  trace : List Event := []

/-- What the copy's node is set to. -/
structure Config where
  json : Json
  node : String
  shard_of : Key → Nat
  shard_lt : ∀ key, shard_of key < SHARDS
  window_ms : UInt64

namespace Replica

variable (cfg : Config) (r : Replica)

def shardOf (key : Key) : Shard := r.shards (cfg.shard_of key)

def setShard (at_ : Nat) (s : Shard) : Replica :=
  { r with shards := fun i => if i = at_ then s else r.shards i }

/-! ## A rule's write -/

/-- What is put in the place of a key's entry by a write that moved nothing. -/
def keep (key : Key) (entry : Entry) : Replica :=
  r.setShard (cfg.shard_of key) ((r.shardOf cfg key).put key (some entry))

/-- A write that moved the state: the key takes its place, and the mark is raised. -/
def move (key : Key) (entry : Entry) : Replica :=
  let s := (r.shardOf cfg key).take_place key entry
  { r.setShard (cfg.shard_of key) s with
    marks := fun i => if i = cfg.shard_of key then s.last else r.marks i }

def expired (s : KeyState) (now_ms : UInt64) : Bool :=
  s.data.isSome && decide (s.expires_ms ≠ 0) && decide (s.expires_ms ≤ now_ms)

/-- One write to a key. A new key needs room, and so does what has expired in it, when that is
kept for its event. A new key whose write is refused is taken out again. -/
def write (key : Key) (w : Write) (ttl_secs default_ttl_secs : Option UInt64) (wall_ms : UInt64)
    (room : Bool) : Replica :=
  let held := (r.shardOf cfg key).map key
  let entry := held.getD { state := KeyState.empty }
  let needs := held.isNone || expired entry.state (r.clock.physical_ms wall_ms)
  if needs && !room then r
  else
    match entry.state.apply cfg.json w ttl_secs default_ttl_secs ⟨cfg.node, r.clock, wall_ms⟩ with
    | (.error _, state, clock) =>
      let r' := if held.isNone then r else r.keep cfg key { entry with state }
      { r' with
        clock
        trace := .Wrote key (held.map Entry.state)
          (if held.isNone then none else some state) :: r.trace }
    | (.ok moved, state, clock) =>
      let r' := if moved then r.move cfg key { entry with state }
        else r.keep cfg key { entry with state }
      { r' with clock, trace := .Wrote key (held.map Entry.state) (some state) :: r.trace }

/-! ## What a peer sent, and forgetting -/

/-- Whether nothing is lost by forgetting the key. -/
def forgettable (s : KeyState) (now_ms window_ms : UInt64) : Bool :=
  (s.live now_ms).isNone && decide (saturating_add s.deleted.ms window_ms ≤ now_ms)

/-- Merges the state of a key that a peer sent. `known` says that the hash kept of the key's
state is that of the bytes; `room`, that there is room where the merge needs some. -/
def merge (key : Key) (bytes : Bytes) (wall_ms : UInt64) (room known : Bool) : Replica :=
  if key.isEmpty || decide (MAX_KEY_BYTES < key.length) then r
  else
    match KeyState.decode cfg.json bytes with
    | .error _ => r
    | .ok theirs =>
      match r.clock.observe theirs.latest wall_ms with
      | .error _ => r
      | .ok clock =>
        let r := { r with clock }
        match (r.shardOf cfg key).map key with
        | none =>
          if forgettable theirs (clock.physical_ms wall_ms) cfg.window_ms then r
          else if room then r.keep cfg key { state := theirs } else r
        | some entry =>
          if known || !room then r
          else r.keep cfg key { entry with state := entry.state.merge cfg.json theirs }

def forget (key : Key) (wall_ms : UInt64) : Replica :=
  match (r.shardOf cfg key).map key with
  | none => r
  | some entry =>
    if forgettable entry.state (r.clock.physical_ms wall_ms) cfg.window_ms then
      { r.setShard (cfg.shard_of key) ((r.shardOf cfg key).detach key) with
        trace := .Forgot key :: r.trace }
    else r

/-! ## The links -/

def setLink (l : Nat) (link : Link) : Replica := { r with links := r.links.set l link }

/-- A new link takes its place at the end of its next shard. -/
def place (l : Nat) : Replica :=
  match r.links[l]? with
  | none => r
  | some link =>
    if link.made < SHARDS then
      let s := r.shards link.made
      let link' := { link with
        cursor := fun i => if i = link.made then s.last else link.cursor i
        made := link.made + 1 }
      let r' := (r.setShard link.made { s with read_to := s.last }).setLink l link'
      if link'.made = SHARDS then { r' with trace := .Linked l :: r.trace } else r'
    else r

/-- Whether something was changed that the link has not read. -/
def has_changes (link : Link) : Bool :=
  (List.range SHARDS).any (fun i => decide (link.cursor i < r.marks i))

/-- A link begins to read what changed, until it has as many bytes as the budget. -/
def begin_take (l : Nat) (budget : Nat) : Replica :=
  match r.links[l]? with
  | some link =>
    if link.made = SHARDS ∧ link.call.isNone then r.setLink l { link with call := some { budget } }
    else r
  | none => r

structure Taken where
  out : List (Key × KeyState) := []
  bytes : Nat
  held : Nat := 0
  /-- Where the hold or the frame ended. -/
  stopped : Option Nat := none

/-- The keys of one hold of a shard's lock, in the order of change. -/
def take_keys (map : Key → Option Entry) (budget : Nat) : List (Nat × Key) → Nat → Nat → Taken
  | [], bytes, held => { bytes, held }
  | (number, key) :: rest, bytes, held =>
    match map key with
    | none => take_keys map budget rest bytes held
    | some entry =>
      let bytes := bytes + key.length + (entry.state.encoded cfg.json).length
      if budget ≤ bytes ∨ HELD_KEYS ≤ held + 1 then
        { out := [(key, entry.state)], bytes, held := held + 1, stopped := some number }
      else
        let t := take_keys map budget rest bytes (held + 1)
        { t with out := (key, entry.state) :: t.out }

def after (order : BTreeMap Nat Key) (cursor : Nat) : List (Nat × Key) :=
  order.toList.filter (fun x => decide (cursor < x.1))

/-- The call goes on with the next shard, begins a new round, or is over. -/
def next_turn (link : Link) (call : Call) : Link :=
  if call.step + 1 < SHARDS then { link with call := some { call with step := call.step + 1 } }
  else if call.found then { link with call := some { call with step := 0, found := false } }
  else { link with call := none }

/-- One shard of a link's call. -/
def turn (l : Nat) : Replica :=
  match r.links[l]? with
  | none => r
  | some link =>
    match link.call with
    | none => r
    | some call =>
      let at_ := (link.from_ + call.step) % SHARDS
      if r.marks at_ ≤ link.cursor at_ then r.setLink l (next_turn link call)
      else
        let s := r.shards at_
        let t := take_keys cfg s.map call.budget (after s.changed (link.cursor at_)) call.bytes 0
        let read := t.stopped.getD s.last
        let link := { link with cursor := fun i => if i = at_ then read else link.cursor i }
        let link :=
          if call.budget ≤ t.bytes then { link with from_ := at_, call := none }
          else next_turn link { call with bytes := t.bytes, found := call.found || decide (0 < t.held) }
        { (r.setShard at_ { s with read_to := max s.read_to read }).setLink l link with
          trace := (t.out.map (fun x => .Handed l x.1 x.2)).reverse ++ r.trace }

/-! ## A run -/

inductive Step
  | Write (key : Key) (w : mqtt_rules.Write) (ttl_secs default_ttl_secs : Option UInt64)
    (wall_ms : UInt64) (room : Bool)
  | Merge (key : Key) (bytes : Bytes) (wall_ms : UInt64) (room known : Bool)
  | Forget (key : Key) (wall_ms : UInt64)
  | Open
  | Place (link : Nat)
  | Take (link : Nat) (budget : Nat)
  | Turn (link : Nat)

def step : Step → Replica
  | .Write key w ttl_secs default_ttl_secs wall_ms room =>
    r.write cfg key w ttl_secs default_ttl_secs wall_ms room
  | .Merge key bytes wall_ms room known => r.merge cfg key bytes wall_ms room known
  | .Forget key wall_ms => r.forget cfg key wall_ms
  | .Open => { r with links := r.links ++ [{}] }
  | .Place l => r.place l
  | .Take l budget => r.begin_take l budget
  | .Turn l => r.turn cfg l

def run (steps : List Step) : Replica := steps.foldl (step cfg) r

/-- A copy that holds nothing. -/
def new (clock : Hlc) : Replica := { clock }

end Replica

end mqttd.rule_state.replica
