-- The runtime of the bridge (`engine.rs`, and the run loop of `client.rs`): the supervisor of
-- each side, its handoff between the live path and the spool, and the router. The tasks run
-- interleaved; what each does under the handoff's gate is one step. A message is acknowledged
-- to its source once every destination has taken it, into its spool or onto its channel.
import MqttBroker.Bridge.Spool

namespace mqtt_bridge

open mqtt_core mqtt_codec

/-! ## Commands and sides -/

/-- A command of the engine to a running client. The number of an acknowledgement and the
origin of a publish say which routed message it is of. -/
inductive Command
  | Subscribe (pkid : UInt16) (filter : String) (qos : QoS)
  | Ack (pkid : UInt16) (message : Nat)
  | Publish (topic : String) (payload : Wire.Bytes) (qos : QoS) (retain : Bool)
      (pkid : Option UInt16) (properties : Properties) (origin : Option Origin)
  deriving DecidableEq, Repr

def qos_from_u8 (v : UInt8) : QoS := (QoS.from_u8 v).getD .AtMostOnce

def SpooledMessage.command (m : SpooledMessage) (origin : Option Origin) : Command :=
  .Publish m.topic m.payload (qos_from_u8 m.qos) m.retain none
    (m.user_properties.map (fun p => .UserProperty p.1 p.2)) origin

/-- What the supervisor of a side is at: between connections, sending the subscribes of a new
one, in the run loop (with the command that it is writing), or back from it. -/
inductive Phase
  | Down
  | Subscribing (left : List (String × UInt8)) (pkid : UInt16)
  | Running (next_pkid : UInt16) (writing : Option Command)
  | Ended
  deriving DecidableEq, Repr

/-- One side. The last five are the history of its connections: the publishes written on this
connection that the broker has not acknowledged, those that it has, those that it had not when
their connection ended, the commands that a run loop had in hand when a write failed, and the
messages whose acknowledgement was written to it. -/
structure SideState where
  connected : Bool := false
  spool : Spool
  commands : List Command := []
  phase : Phase := .Down
  arrived : List Publish := []
  outstanding : List (UInt16 × Option Origin) := []
  acked : List (Option Origin) := []
  unanswered : List (Option Origin) := []
  torn : List Command := []
  pubacked : List Nat := []

namespace SideState

/-- The connection is up: everything spooled goes onto the channel, oldest first, and then the
live path opens. -/
def openHandoff (d : SideState) (fault : Option DiskFault) (skipped : List Nat) : SideState :=
  let (found, spool) := d.spool.drain fault skipped
  let replay := match found with
    | .ok msgs => msgs.map (fun e => e.1.command e.2)
    | .error _ => []
  { d with spool, commands := d.commands ++ replay, connected := true }

def closeHandoff (d : SideState) : SideState := { d with connected := false }

/-- A forward goes onto the channel when the side is up, and else into the spool. -/
def forward (d : SideState) (fault : Option DiskFault) (live : Command)
    (spooled : SpooledMessage) (o : Option Origin) : Except SpoolError Unit × SideState :=
  if d.connected then (.ok (), { d with commands := d.commands ++ [live] })
  else
    let (accepted, spool) := d.spool.push fault spooled o
    (accepted, { d with spool })

/-- The packet identifier of a publish: one of its own, or the next of the connection. -/
def assign (qos : QoS) (pkid : Option UInt16) (next_pkid : UInt16) : Option UInt16 × UInt16 :=
  if qos = .AtMostOnce then (none, next_pkid)
  else match pkid with
    | some pkid => (some pkid, next_pkid)
    | none =>
      let next := max (next_pkid + 1) 1
      (some next, next)

/-- The run loop takes a command and begins to write it. -/
def recv (d : SideState) : Option SideState :=
  match d.phase, d.commands with
  | .Running next_pkid none, cmd :: rest =>
    match cmd with
    | .Publish topic payload qos retain pkid properties origin =>
      let (pkid, next) := assign qos pkid next_pkid
      some { d with
        commands := rest
        phase := .Running next (some (.Publish topic payload qos retain pkid properties origin)) }
    | cmd => some { d with commands := rest, phase := .Running next_pkid (some cmd) }
  | _, _ => none

/-- The write of a command ends. One that fails ends the run loop; the command is gone. -/
def written (d : SideState) (ok : Bool) : Option SideState :=
  match d.phase with
  | .Running next_pkid (some cmd) =>
    if ok then
      let d := { d with phase := .Running next_pkid none }
      match cmd with
      | .Ack _ message => some { d with pubacked := d.pubacked ++ [message] }
      | .Publish _ _ _ _ (some pkid) _ origin =>
        some { d with outstanding := d.outstanding ++ [(pkid, origin)] }
      | _ => some d
    else some { d with phase := .Ended, torn := d.torn ++ [cmd] }
  | _ => none

/-- The run loop reads a packet: a publish goes on to the router, and anything else is let go,
an acknowledgement of a publish too. -/
def read (d : SideState) (p : Packet) : Option SideState :=
  match d.phase with
  | .Running _ none =>
    match p with
    | .Publish p => some { d with arrived := d.arrived ++ [p] }
    | .PubAck a => some { d with
        acked := d.acked ++ (d.outstanding.filter (fun e => e.1 = a.pkid)).map (·.2)
        outstanding := d.outstanding.filter (fun e => decide (e.1 ≠ a.pkid)) }
    | _ => some d
  | _ => none

/-- The connection is lost, or a ping cannot be written. -/
def lost (d : SideState) : Option SideState :=
  match d.phase with
  | .Running _ none => some { d with phase := .Ended }
  | _ => none

/-- A new connection, whose subscribes are sent one by one. -/
def connect (d : SideState) (subs : List (String × UInt8)) : Option SideState :=
  match d.phase with
  | .Down => some { d with
      phase := .Subscribing subs 1
      outstanding := []
      unanswered := d.unanswered ++ d.outstanding.map (·.2) }
  | _ => none

def subscribe (d : SideState) : Option SideState :=
  match d.phase with
  | .Subscribing ((filter, qos) :: left) pkid => some { d with
      commands := d.commands ++ [.Subscribe pkid filter (qos_from_u8 qos)]
      phase := .Subscribing left (max (pkid + 1) 1) }
  | _ => none

def begin_run (d : SideState) (fault : Option DiskFault) (skipped : List Nat) :
    Option SideState :=
  match d.phase with
  | .Subscribing [] _ => some { d.openHandoff fault skipped with phase := .Running 0 none }
  | _ => none

/-- The supervisor is back from the run loop. -/
def end_run (d : SideState) : Option SideState :=
  match d.phase with
  | .Ended => some { d.closeHandoff with phase := .Down }
  | _ => none

end SideState

/-! ## The router -/

/-- The message that the router is at, and the forwards that are left of it. -/
structure Routing where
  message : Nat
  side : Side
  publish : Publish
  durably_accepted : Bool
  next : Nat
  left : List Forward

/-- The bridge. `routed` has every message that the router planned forwards for, by its
number, and `acknowledged` the numbers of those whose acknowledgement it sent. -/
structure State where
  cfg : BridgeConfig
  sides : Side → SideState
  inbound : List (Side × Publish) := []
  routing : Option Routing := none
  routed : List (Side × Publish) := []
  acknowledged : List Nat := []

/-- The acknowledgement that a message owes its source. -/
def owed_ack (p : Publish) : Option UInt16 := if p.qos = .AtLeastOnce then p.pkid else none

def planned (cfg : BridgeConfig) (side : Side) (p : Publish) : List Forward :=
  plan_forwards cfg side p.topic (read_hop_count p.properties)

/-- What a forward carries on: the user properties, with one hop more. -/
def forward_properties (p : Publish) : Properties :=
  set_hop_count p.properties (read_hop_count p.properties + 1)

def live (p : Publish) (f : Forward) (o : Option Origin) : Command :=
  .Publish f.topic p.payload (qos_from_u8 f.qos) (p.retain && f.retain_ok) none
    (forward_properties p) o

def user_property : Property → Option (String × String)
  | .UserProperty k v => some (k, v)
  | _ => none

def spooled (p : Publish) (f : Forward) : SpooledMessage :=
  { topic := f.topic
    payload := p.payload
    qos := f.qos
    retain := p.retain && f.retain_ok
    user_properties := (forward_properties p).filterMap user_property }

namespace State

def exists_side (cfg : BridgeConfig) : Side → Bool
  | .Local => true
  | .Upstream i => decide (i < cfg.upstreams.length)

def subscriptions_for (cfg : BridgeConfig) : Side → List (String × UInt8)
  | .Local => local_subscriptions cfg
  | .Upstream i => upstream_subscriptions cfg i

def onSide (s : State) (side : Side) (f : SideState → Option SideState) : Option State :=
  if exists_side s.cfg side then
    match f (s.sides side) with
    | some d => some { s with sides := Function.update s.sides side d }
    | none => none
  else none

/-- The publish that a side's connection read goes to the router with its side. -/
def tag (s : State) (side : Side) : Option State :=
  match (s.sides side).arrived with
  | p :: rest => some { s with
      sides := Function.update s.sides side { s.sides side with arrived := rest }
      inbound := s.inbound ++ [(side, p)] }
  | [] => none

/-- The router takes the next message. One of a topic that another instance owns is let go. -/
def take (s : State) : Option State :=
  match s.routing, s.inbound with
  | none, (side, p) :: rest =>
    if s.cfg.ha = .Partitioned ∧ ¬ owns p.topic s.cfg.total s.cfg.instance then
      some { s with inbound := rest }
    else
      some { s with
        inbound := rest
        routed := s.routed ++ [(side, p)]
        routing := some
          { message := s.routed.length, side, publish := p, durably_accepted := true, next := 0
            left := planned s.cfg side p } }
  | _, _ => none

/-- The router hands the next forward to its side. A side that does not accept it withholds
the acknowledgement. -/
def forward (s : State) (fault : Option DiskFault) : Option State :=
  match s.routing with
  | some r =>
    match r.left with
    | f :: left =>
      let o := some (r.message, r.next)
      let (accepted, d) := (s.sides f.dest).forward fault (live r.publish f o)
        (spooled r.publish f) o
      some { s with
        sides := Function.update s.sides f.dest d
        routing := some { r with
          left, next := r.next + 1
          durably_accepted := r.durably_accepted && accepted.toBool } }
    | [] => none
  | none => none

/-- The router is through with a message, and acknowledges it where every side took it. -/
def finish (s : State) : Option State :=
  match s.routing with
  | some r =>
    match r.left with
    | [] =>
      match owed_ack r.publish with
      | some pkid =>
        if r.durably_accepted then
          let d := s.sides r.side
          some { s with
            routing := none
            sides := Function.update s.sides r.side
              { d with commands := d.commands ++ [.Ack pkid r.message] }
            acknowledged := s.acknowledged ++ [r.message] }
        else some { s with routing := none }
      | none => some { s with routing := none }
    | _ :: _ => none
  | none => none

end State

/-! ## Runs -/

inductive Event
  | Connect (side : Side)
  | Subscribe (side : Side)
  | Open (side : Side) (fault : Option DiskFault) (skipped : List Nat)
  | Recv (side : Side)
  | Written (side : Side) (ok : Bool)
  | Read (side : Side) (p : Packet)
  | Lost (side : Side)
  | Close (side : Side)
  | Tag (side : Side)
  | Take
  | Forward (fault : Option DiskFault)
  | Finish

namespace State

def step (s : State) : Event → Option State
  | .Connect side => s.onSide side (·.connect (subscriptions_for s.cfg side))
  | .Subscribe side => s.onSide side (·.subscribe)
  | .Open side fault skipped => s.onSide side (·.begin_run fault skipped)
  | .Recv side => s.onSide side (·.recv)
  | .Written side ok => s.onSide side (·.written ok)
  | .Read side p => s.onSide side (·.read p)
  | .Lost side => s.onSide side (·.lost)
  | .Close side => s.onSide side (·.end_run)
  | .Tag side => s.tag side
  | .Take => s.take
  | .Forward fault => s.forward fault
  | .Finish => s.finish

def run (s : State) : List Event → Option State
  | [] => some s
  | e :: es => match s.step e with
    | some s' => s'.run es
    | none => none

end State

/-- The spool of a side, over the file that its directory holds where one can be opened. None
is a bridge that does not start: it needs a durable spool and has no file for it. -/
def build_spool (cfg : BridgeConfig) (file : Option (BTreeMap Nat Wire.Bytes)) : Option Spool :=
  let overflow := if cfg.requires_durable_spool then Overflow.Refuse else Overflow.DropOldest
  let finish (s : Spool) : Spool := (s.with_overflow overflow).with_max_bytes cfg.spool.max_bytes
  match cfg.spool.dir with
  | none => some (finish (Spool.in_memory cfg.spool.max_messages))
  | some _ =>
    match file with
    | some file => some (finish (Spool.on_disk file cfg.spool.max_messages))
    | none =>
      if cfg.requires_durable_spool && !cfg.spool.allow_ephemeral_spool then none
      else some (finish (Spool.in_memory cfg.spool.max_messages))

/-- The bridge as it starts: every side down, over its own spool. -/
def start (cfg : BridgeConfig) (spools : Side → Spool) : State :=
  { cfg, sides := fun side => { spool := spools side } }

end mqtt_bridge
