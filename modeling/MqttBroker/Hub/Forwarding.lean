-- The pending publishes of a node and what each owes to its peers
-- (`hub/forwarding.rs`). A forward is recorded twice, under its publish and in an
-- index of the forward numbers, and a peer's answer finds its publish by the index.
import MqttBroker.Hub.Shards

namespace mqttd.hub.forwarding

open mqtt_core
open mqttd.hub.shards (MAX_SHARDS PublishRefusal DurableOutcome PublishOutcome)

abbrev NodeId := String

abbrev ClientId := String

/-! ## Forwards and verdicts -/

/-- What a peer answers. -/
inductive ForwardVerdict
  | Stored
  | Refused (code : Nat)
  | Failed
  | Reached
  deriving DecidableEq

/-- The refusal of a peer that no longer has the named member. -/
def REFUSAL_SHARED_MEMBER_GONE : Nat := 3

def from_wire_code : Nat → Option PublishRefusal
  | 1 => some .Brownout
  | 2 => some .RetainedQuota
  | _ => none

def from_verdict : ForwardVerdict → DurableOutcome
  | .Stored => .Ok
  | .Reached => .Ok
  | .Refused code =>
    match from_wire_code code with
    | some r => .Refused r
    | none => .Failed
  | .Failed => .Failed

inductive ForwardKind
  | Ordinary (replay sent : Bool)
  | Shared (key : String × String) (client : ClientId) (qos : QoS)
      (tried : List (Option NodeId × ClientId)) (sent : Bool)
  deriving DecidableEq

def ForwardKind.shared : ForwardKind → Bool
  | .Ordinary _ _ => false
  | .Shared _ _ _ _ _ => true

/-- One outstanding answer: where the forward went, and which frame it was. -/
structure ForwardObligation where
  node : NodeId
  kind : ForwardKind
  deriving DecidableEq

def ForwardObligation.mark_sent (o : ForwardObligation) (now : Bool) : ForwardObligation :=
  { o with kind := match o.kind with
      | .Ordinary replay _ => .Ordinary replay now
      | .Shared key client qos tried _ => .Shared key client qos tried now }

/-! ## The pending table -/

/-- A gated publish. `waiting` is `done.is_some()`: the publisher was not answered. -/
structure PendingPublish where
  cost : Nat
  waiting : Bool := true
  awaiting : BTreeMap Nat ForwardObligation := ∅
  stored : Bool := false
  acked_nodes : List NodeId := []
  awaiting_retained : Bool := false
  local_done : Bool := false
  appends_outstanding : Nat := 0
  created_at : Nat
  reroute_grace : Option Nat := none
  awaiting_settle : Bool
  ack_awaits_settle : Bool
  relaxed : Bool := false
  congested : Bool := false
  shard_outstanding : BitVec MAX_SHARDS := 0

def PendingPublish.obligations_done (p : PendingPublish) : Bool :=
  p.local_done && p.shard_outstanding == 0 &&
    ((p.relaxed && !p.congested && p.awaiting.isEmpty && p.reroute_grace.getD 0 == 0) ||
      (p.appends_outstanding == 0 && !p.awaiting_retained && p.awaiting.isEmpty &&
        p.reroute_grace.getD 0 == 0))

def PENDING_PUBLISH_CAP : Nat := 65536

def PENDING_PUBLISH_MAX_BYTES : Nat := 64 * 1024 * 1024

/-- In milliseconds. -/
def PENDING_STALL_BUDGET : Nat := 1000

/-- The part of the hub that keeps the pending publishes. The last field is not in the
source: what the publishers were told. -/
structure Hub where
  pending_publishes : BTreeMap Nat PendingPublish := ∅
  bytes : Nat := 0
  publish_ids : Nat := 0
  forward_seq : Nat
  forward_index : BTreeMap Nat Nat := ∅
  drain_gated : BTreeSet Nat := ∅
  told : List (Nat × PublishOutcome) := []

namespace Hub

/-- Change the entry of a publish, where there is one. -/
def alter (h : Hub) (id : Nat) (f : PendingPublish → PendingPublish) : Hub :=
  match h.pending_publishes[id]? with
  | some p => { h with pending_publishes := h.pending_publishes.insert id (f p) }
  | none => h

/-- Take an entry out of the table. -/
def remove (h : Hub) (id : Nat) (p : PendingPublish) : Hub :=
  { h with
    pending_publishes := h.pending_publishes.erase id
    bytes := h.bytes - p.cost }

/-- Forget the forward numbers of an entry that leaves the table. -/
def forget_forwards (h : Hub) (p : PendingPublish) : Hub :=
  { h with forward_index :=
      p.awaiting.keys.foldl (fun (m : BTreeMap Nat Nat) seq => m.erase seq) h.forward_index }

def is_full_for (h : Hub) (cost : Nat) : Bool :=
  !h.pending_publishes.isEmpty &&
    (decide (PENDING_PUBLISH_CAP ≤ h.pending_publishes.size) ||
      decide (PENDING_PUBLISH_MAX_BYTES < h.bytes + cost))

def fits_bytes (h : Hub) (cost : Nat) : Bool := decide (h.bytes + cost ≤ PENDING_PUBLISH_MAX_BYTES)

def oldest_age (h : Hub) (now : Nat) : Nat :=
  match h.pending_publishes.toList with
  | [] => 0
  | e :: _ => now - e.2.created_at

/-- The oldest entries go until the newcomer fits. A turn takes an entry, so there are no
more turns than entries. -/
def evict (h : Hub) (cost now : Nat) : Nat → Hub
  | 0 => h
  | turns + 1 =>
    if !h.is_full_for cost then h
    else if h.fits_bytes cost && decide (h.oldest_age now < PENDING_STALL_BUDGET) then h
    else
      match h.pending_publishes.toList with
      | [] => h
      | e :: _ => evict ((h.remove e.1 e.2).forget_forwards e.2) cost now turns

def register_pending (h : Hub) (cost now : Nat) (unsettled : Bool) : Hub :=
  let h := h.evict cost now h.pending_publishes.size
  let id := h.publish_ids + 1
  { h with
    publish_ids := id
    bytes := h.bytes + cost
    pending_publishes := h.pending_publishes.insert id
      { cost, created_at := now, awaiting_settle := unsettled, ack_awaits_settle := unsettled } }

/-! ## The acknowledgement -/

/-- Acknowledge a publish when every obligation is resolved, and retire its entry when the
settle window has no claim on it either. -/
def try_complete_pending (h : Hub) (id : Nat) : Hub :=
  match h.pending_publishes[id]? with
  | none => h
  | some p =>
    if !p.obligations_done then h
    else
      let answered := !p.ack_awaits_settle && p.waiting
      let p := { p with waiting := p.waiting && p.ack_awaits_settle }
      let h := if answered then { h with told := (id, .Accepted) :: h.told } else h
      if !p.awaiting_settle && !p.waiting then h.remove id p
      else { h with pending_publishes := h.pending_publishes.insert id p }

def drop_pending (h : Hub) (id : Nat) : Hub :=
  match h.pending_publishes[id]? with
  | some p => (h.remove id p).forget_forwards p
  | none => h

/-- Refuse a publish: its publisher is told only when it was stored nowhere, and when it was
not answered before. -/
def refuse_pending (h : Hub) (id : Nat) (r : PublishRefusal) : Hub :=
  match h.pending_publishes[id]? with
  | none => h
  | some p =>
    let h := (h.remove id p).forget_forwards p
    if !p.waiting || p.stored || decide (0 < p.appends_outstanding) then h
    else { h with told := (id, .Refused r) :: h.told }

/-! ## Forwards -/

/-- Record a forward of a publish under a new number. `ready` says that the link of the node
is open for it, so that its frame was sent. -/
def register_forward (h : Hub) (id : Nat) (o : ForwardObligation) (ready : Bool) : Hub :=
  let seq := h.forward_seq + 1
  let h := { h with forward_seq := seq }
  match h.pending_publishes[id]? with
  | none => h
  | some p =>
    { h with
      pending_publishes := h.pending_publishes.insert id
        { p with awaiting := p.awaiting.insert seq (o.mark_sent ready) }
      forward_index := h.forward_index.insert seq id }

/-- Take an outstanding answer off a publish and out of the index. -/
def release (h : Hub) (id seq : Nat) : Hub :=
  { h.alter id (fun p => { p with awaiting := p.awaiting.erase seq }) with
    forward_index := h.forward_index.erase seq }

/-- The ordinary forwards of a publish to peers that are held dead and out of reach are
dropped, where sessions can move between nodes. -/
def discharge_unreachable (h : Hub) (id : Nat) (durable_plane : Bool) (unreachable : List NodeId) :
    Hub :=
  if !durable_plane || unreachable.isEmpty then h
  else
    match h.pending_publishes[id]? with
    | none => h
    | some p =>
      let seqs := (p.awaiting.toList.filter
        (fun e => !e.2.kind.shared && decide (e.2.node ∈ unreachable))).map Prod.fst
      seqs.foldl (fun h seq => h.release id seq) h

def send_owed_to (h : Hub) (node : NodeId) (shared : Bool) : Hub :=
  { h with pending_publishes := h.pending_publishes.map (fun _ p =>
      { p with awaiting := p.awaiting.map (fun _ o =>
          if o.node = node ∧ o.kind.shared = shared then o.mark_sent true else o) }) }

/-! ## A `$share` delivery placed again -/

inductive Reselect
  | Elsewhere (last : DurableOutcome)
  | MemberGone
  deriving DecidableEq

/-- The member that a re-selection comes to: one of this node, with the appends that were
submitted and what they came to, or one of a peer, whose link can carry an answer or not. -/
inductive Chosen
  | Here (client : ClientId) (appends : Nat) (out : DurableOutcome)
  | There (node : NodeId) (client : ClientId) (qos : QoS) (answerable ready : Bool)
  deriving DecidableEq

/-- What a re-selection finds: the members that it comes to one after another, whether the
group has others than the one that went, and whether the routing view is settled. -/
structure Group where
  chosen : List Chosen
  others : Bool
  unsettled : Bool

def shared_exhausted (h : Hub) (id : Nat) (last : DurableOutcome) : Hub :=
  if id ∈ h.drain_gated then h.try_complete_pending id
  else
    match last with
    | .Refused r => h.refuse_pending id r
    | _ => h.drop_pending id

def shared_placement_exhausted (h : Hub) (id : Nat) (g : Group) : Hub :=
  if id ∈ h.drain_gated then h.try_complete_pending id
  else if g.others then h.drop_pending id
  else if !g.unsettled then h.try_complete_pending id
  else h.alter id (fun p => { p with reroute_grace := some 1 })

/-- The members of the group are tried one after another. -/
def reselect_loop (h : Hub) (id : Nat) (g : Group) (key : String × String)
    (tried : List (Option NodeId × ClientId)) (last : Option DurableOutcome) : List Chosen → Hub
  | [] =>
    if h.pending_publishes[id]?.isNone then h
    else
      match last with
      | some last => h.shared_exhausted id last
      | none => h.shared_placement_exhausted id g
  | .Here client appends out :: rest =>
    if h.pending_publishes[id]?.isNone then h
    else
      let h := h.alter id (fun p => { p with appends_outstanding := p.appends_outstanding + appends })
      match out with
      | .Ok => h.try_complete_pending id
      | .Failed => h.drop_pending id
      | .Refused r => reselect_loop h id g key (tried ++ [(none, client)]) (some (.Refused r)) rest
  | .There node client qos answerable ready :: _ =>
    if h.pending_publishes[id]?.isNone then h
    else if answerable then
      h.register_forward id
        { node, kind := .Shared key client qos (tried ++ [(some node, client)]) false } ready
    else h.try_complete_pending id

def reselect_shared (h : Hub) (id : Nat) (o : ForwardObligation) (why : Reselect) (g : Group) :
    Hub :=
  match o.kind with
  | .Ordinary _ _ => h
  | .Shared key _ _ tried _ =>
    let last := match why with
      | .Elsewhere last => some last
      | .MemberGone => none
    h.reselect_loop id g key tried last g.chosen

/-- `$share` deliveries leave the members that they were placed with. -/
def place_again (h : Hub) (owed : List (Nat × Nat)) (why : Reselect) (group : Nat → Group) : Hub :=
  owed.foldl (fun h e =>
    match h.pending_publishes[e.1]?.bind (fun p => p.awaiting[e.2]?) with
    | none => h
    | some o => (h.release e.1 e.2).reselect_shared e.1 o why (group e.2)) h

/-! ## Answers -/

/-- A peer's answer to one outstanding forward. The number leaves the index first. -/
def forward_answered (h : Hub) (node : NodeId) (seq : Nat) (verdict : ForwardVerdict) (g : Group) :
    Hub :=
  match h.forward_index[seq]? with
  | none => h
  | some id =>
    let h := { h with forward_index := h.forward_index.erase seq }
    match h.pending_publishes[id]? with
    | none => h
    | some p =>
      match p.awaiting[seq]? with
      | none => h
      | some o =>
        if o.node ≠ node then h
        else
          let h := h.alter id (fun p => { p with awaiting := p.awaiting.erase seq })
          match from_verdict verdict with
          | .Ok =>
            let h := h.alter id (fun p =>
              { p with
                stored := true
                ack_awaits_settle :=
                  if verdict = .Reached then false else p.ack_awaits_settle
                acked_nodes :=
                  if node ∈ p.acked_nodes then p.acked_nodes else p.acked_nodes ++ [node] })
            h.try_complete_pending id
          | .Failed =>
            if o.kind.shared = true ∧ verdict = .Refused REFUSAL_SHARED_MEMBER_GONE then
              h.reselect_shared id o .MemberGone g
            else h.drop_pending id
          | .Refused r =>
            if o.kind.shared then h.reselect_shared id o (.Elsewhere (.Refused r)) g
            else if id ∈ h.drain_gated then h.try_complete_pending id
            else h.refuse_pending id r

/-- A peer's hold has ended: its ordinary forwards are discharged, after one last look for a
successor, and its `$share` deliveries are placed again. -/
def erase_peer (h : Hub) (node : NodeId) (group : Nat → Group) : Hub :=
  let owed := h.pending_publishes.toList.flatMap (fun e =>
    (e.2.awaiting.toList.filter (fun a => decide (a.2.node = node))).map (fun a => (e.1, a.1, a.2)))
  let h := owed.foldl (fun h a =>
    let h := h.release a.1 a.2.1
    if a.2.2.kind.shared then h else h.alter a.1 (fun p => { p with reroute_grace := some 1 })) h
  (owed.filter (fun a => a.2.2.kind.shared)).foldl
    (fun h a => h.reselect_shared a.1 a.2.2 .MemberGone (group a.2.1)) h

/-! ## Runs -/

/-- The fields of an entry that other parts of the hub write. -/
structure Progress where
  waiting : Bool
  stored : Bool
  awaiting_retained : Bool
  local_done : Bool
  appends_outstanding : Nat
  reroute_grace : Option Nat
  awaiting_settle : Bool
  ack_awaits_settle : Bool
  relaxed : Bool
  congested : Bool
  shard_outstanding : BitVec MAX_SHARDS

def Progress.write (w : Progress) (p : PendingPublish) : PendingPublish :=
  { p with
    waiting := w.waiting, stored := w.stored, awaiting_retained := w.awaiting_retained
    local_done := w.local_done, appends_outstanding := w.appends_outstanding
    reroute_grace := w.reroute_grace, awaiting_settle := w.awaiting_settle
    ack_awaits_settle := w.ack_awaits_settle, relaxed := w.relaxed, congested := w.congested
    shard_outstanding := w.shard_outstanding }

inductive Step
  | RegisterPending (cost now : Nat) (unsettled : Bool)
  | RegisterForward (id : Nat) (o : ForwardObligation) (ready : Bool)
  | ForwardAnswered (node : NodeId) (seq : Nat) (verdict : ForwardVerdict) (g : Group)
  | DischargeUnreachable (id : Nat) (durable_plane : Bool) (unreachable : List NodeId)
  | SendOwed (node : NodeId) (shared : Bool)
  | PlaceAgain (owed : List (Nat × Nat)) (why : Reselect) (group : Nat → Group)
  | ErasePeer (node : NodeId) (group : Nat → Group)
  | TryComplete (id : Nat)
  | DropPending (id : Nat)
  | RefusePending (id : Nat) (r : PublishRefusal)
  | Advance (id : Nat) (w : Progress)
  | DrainGate (id : Nat)

def step (h : Hub) : Step → Hub
  | .RegisterPending cost now unsettled => h.register_pending cost now unsettled
  | .RegisterForward id o ready => h.register_forward id o ready
  | .ForwardAnswered node seq verdict g => h.forward_answered node seq verdict g
  | .DischargeUnreachable id durable_plane unreachable =>
    h.discharge_unreachable id durable_plane unreachable
  | .SendOwed node shared => h.send_owed_to node shared
  | .PlaceAgain owed why group => h.place_again owed why group
  | .ErasePeer node group => h.erase_peer node group
  | .TryComplete id => h.try_complete_pending id
  | .DropPending id => h.drop_pending id
  | .RefusePending id r => h.refuse_pending id r
  | .Advance id w => h.alter id w.write
  | .DrainGate id => { h with drain_gated := h.drain_gated.insert id }

def run (h : Hub) (steps : List Step) : Hub := steps.foldl step h

/-- A hub that starts: its forward numbers start at a random point. -/
def start (forward_seq : Nat) : Hub := { forward_seq }

end Hub

end mqttd.hub.forwarding
