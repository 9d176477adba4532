-- The membership protocol of one node (`swim.rs`): claims about members come in
-- first-hand or relayed, timers suspect and declare, and a tombstone that runs
-- out starts a departure. A call is `handle` or `tick`, at a time of its own.
import MqttBroker.Lib.OrderedMap

namespace mqtt_cluster.swim

abbrev NodeId := String

/-! ## Messages -/

inductive MemberState
  | Alive
  | Suspect
  | Dead
  deriving DecidableEq, Repr

def MemberState.precedence : MemberState → Nat
  | .Alive => 0
  | .Suspect => 1
  | .Dead => 2

structure Update where
  id : NodeId
  addr : String
  peer_addr : String := ""
  incarnation : Nat
  generation : Nat
  state : MemberState
  suspecter : Option NodeId := none
  failure_domain : Option String := none
  deriving DecidableEq, Repr

inductive Kind
  | Ping (seq : Nat)
  | Ack (seq : Nat)
  | PingReq (target : NodeId) (target_addr : String)
  | IndirectAck (target : NodeId)
  | Join
  | Sync
  deriving DecidableEq, Repr

structure Message where
  sender : NodeId
  from_addr : String
  from_peer_addr : String := ""
  from_domain : Option String := none
  from_generation : Nat
  kind : Kind
  gossip : List Update
  cluster_id : Option String := none
  deriving DecidableEq, Repr

/-- What the driver carries out. -/
inductive Action
  | Send (dest : String) (msg : Message)
  | StateChange (id : NodeId) (addr peer_addr : String) (state : MemberState)
      (domain : Option String)
  | Gone (id : NodeId) (addr peer_addr : String)
  deriving DecidableEq, Repr

/-- What happened to the lives of other nodes. Not in the source. -/
inductive Mark
  /-- The tombstone of a life was pruned, with or without a greeting. -/
  | Pruned (id : NodeId) (life now : Nat) (greeted : Bool)
  /-- A datagram of a life was handled, with or without an entry of its node. -/
  | Spoke (id : NodeId) (life : Nat) (held : Bool)
  /-- A claim about a life was handled. -/
  | Heard (id : NodeId) (life : Nat)
  /-- `Gone` was raised for a life. -/
  | Gone (id : NodeId) (life now : Nat)
  deriving DecidableEq, Repr

/-! ## Members -/

/-- The parameters of the protocol. The floating-point `log10(n) * 1000`, rounded down,
is left open. -/
structure Config where
  protocol_period_ms : Nat := 1000
  ack_timeout_ms : Nat := 250
  suspicion_timeout_ms : Nat := 4000
  suspicion_min_timeout_ms : Nat := 2500
  suspicion_confirmations : Nat := 3
  dead_ttl_ms : Nat := 30000
  indirect_probes : Nat := 3
  gossip_fanout : Nat := 6
  gossip_multiplier : Nat := 3
  awareness_max : Nat := 8
  reprime_after : Nat := 3
  reprime_on_rescued_probe : Bool := true
  greet_pruned : Bool := true
  suspicion_scales_with_log_n : Bool := false
  confirm_before_dead : Bool := true
  period_from_schedule : Bool := true
  check_relayed_dead : Bool := true
  log10_permille : Nat → Nat := fun n => 1000 * (Nat.toDigits 10 n).length - 1000

/-- A last direct probe that is out, and the incarnation of the relayed `Dead` that it
checks. -/
structure LastProbe where
  seq : Nat
  deadline : Nat
  dead : Option Nat
  deriving DecidableEq, Repr

structure Member where
  id : NodeId
  addr : String
  peer_addr : String
  incarnation : Nat
  generation : Nat
  state : MemberState
  failure_domain : Option String
  state_since : Nat
  tombstone_deadline : Option Nat
  suspecters : BTreeSet NodeId
  unanswered_probes : Nat
  confirm : Option LastProbe

/-- Where a claim comes from. -/
inductive Source
  | Own
  | FirstHand
  | Relayed
  deriving DecidableEq, Repr

def Source.of (u : Update) (sender : NodeId) : Source :=
  if u.id = sender then .FirstHand else .Relayed

/-- The part of an address before its last colon. -/
def host (addr : String) : String :=
  match addr.toList.reverse.dropWhile (· ≠ ':') with
  | [] => addr
  | _ :: rest => String.ofList rest.reverse

/-- The address names no host that another machine can dial. -/
def unroutable (addr : String) : Bool :=
  let h := host addr
  h == "" || h == "0.0.0.0" || h == "[::]" || h == "::"

/-! ## A claim and an entry -/

namespace Member

/-- A first-hand refutation, which a tombstone does not hold off. -/
def pierced_by (m : Member) (u : Update) (source : Source) : Bool :=
  decide (source = .FirstHand) && decide (u.state = .Alive) &&
    decide (m.incarnation < u.incarnation)

/-- The tombstone of this life holds the claim off. -/
def fenced (m : Member) (u : Update) (source : Source) : Bool :=
  decide (u.generation ≤ m.generation) && m.tombstone_deadline.isSome &&
    decide (u.state ≠ .Dead) && !m.pierced_by u source

def superseded_by (m : Member) (u : Update) : Bool :=
  decide (m.generation < u.generation) || decide (m.incarnation < u.incarnation) ||
    (decide (u.incarnation = m.incarnation) &&
      decide (m.state.precedence < u.state.precedence))

/-- The set of one suspecter, where a suspicion names one. -/
def suspecters_of (u : Update) : BTreeSet NodeId :=
  match u.state, u.suspecter with
  | .Suspect, some sus => (∅ : BTreeSet NodeId).insert sus
  | _, _ => ∅

/-- What an entry takes from a claim before it is known to supersede: the tombstone goes,
and another suspecter of the same suspicion counts. -/
def touched (m : Member) (u : Update) (source : Source) : Member :=
  let again := u.generation ≤ m.generation ∧ u.state = .Suspect ∧ m.state = .Suspect ∧
    u.incarnation = m.incarnation
  { m with
    tombstone_deadline := if m.pierced_by u source then none else m.tombstone_deadline
    suspecters := match u.suspecter with
      | some sus => if again then m.suspecters.insert sus else m.suspecters
      | none => m.suspecters }

def tombstone (cfg : Config) (state : MemberState) (now : Nat) : Option Nat :=
  if state = .Dead then some (now + cfg.dead_ttl_ms) else none

/-- The entry after a claim that supersedes it. -/
def adopted (m : Member) (cfg : Config) (u : Update) (now : Nat) : Member :=
  let new_life := m.generation < u.generation
  let changed := m.state ≠ u.state
  { m with
    generation := u.generation
    incarnation := u.incarnation
    unanswered_probes := if new_life then 0 else m.unanswered_probes
    addr := if unroutable u.addr then m.addr else u.addr
    peer_addr := if u.peer_addr = "" then m.peer_addr else u.peer_addr
    failure_domain := if u.failure_domain.isSome then u.failure_domain else m.failure_domain
    confirm := if (changed ∧ u.state ≠ .Suspect) ∨ new_life then none else m.confirm
    suspecters := if changed ∨ new_life ∨ m.incarnation < u.incarnation then suspecters_of u
      else m.suspecters
    state := if changed ∨ new_life then u.state else m.state
    state_since := if changed ∨ new_life then now else m.state_since
    tombstone_deadline := if changed ∨ new_life then tombstone cfg u.state now
      else m.tombstone_deadline }

end Member

/-! ## The state of a node -/

structure Departed where
  generation : Nat
  addr : String
  peer_addr : String
  confirm_at : Nat
  deriving DecidableEq, Repr

structure LastProbes where
  sent : Nat := 0
  spared : Nat := 0
  silent : Nat := 0
  deriving DecidableEq, Repr

structure Probe where
  target : NodeId
  seq : Nat
  ack_deadline : Nat
  indirect_deadline : Option Nat
  deriving DecidableEq, Repr

/-- The state of a node. `out` is the vector of actions that the call under way builds,
and the history is not in the source. -/
structure Swim where
  local_id : NodeId
  local_addr : String
  local_peer_addr : String
  local_domain : Option String
  incarnation : Nat := 1
  generation : Nat
  cfg : Config
  members : BTreeMap NodeId Member := ∅
  seeds : List String
  gossip : List (Update × Nat) := []
  next_probe_at : Nat := 0
  probe : Option Probe := none
  seq : Nat := 0
  relays : BTreeMap Nat (String × NodeId) := ∅
  probe_order : List NodeId := []
  probe_idx : Nat := 0
  rng : UInt64
  bootstrapped : Bool := false
  awareness : Nat := 0
  failed_probe_rounds : Nat := 0
  new_lives : BTreeSet String := ∅
  last_probes : LastProbes := {}
  departed : BTreeMap NodeId Departed := ∅
  out : List Action := []
  history : List Mark := []

namespace Swim

def new (local_id : NodeId) (local_addr local_peer_addr : String) (local_domain : Option String)
    (generation : Nat) (cfg : Config) (seeds : List String) : Swim :=
  let rng := local_id.toUTF8.data.toList.foldl
    (fun (r : UInt64) b => (r ^^^ b.toUInt64) * 0x0100000001b3) 0xff51afd7ed558ccd
  { local_id, local_addr, local_peer_addr, local_domain, generation, cfg, seeds, rng := rng ||| 1 }

def push (s : Swim) (a : Action) : Swim := { s with out := s.out ++ [a] }

def note (s : Swim) (m : Mark) : Swim := { s with history := m :: s.history }

/-- An entry of the table, changed in place. -/
def putMember (s : Swim) (id : NodeId) (m : Member) : Swim :=
  { s with members := s.members.insert id m }

def updateMember (s : Swim) (id : NodeId) (f : Member → Member) : Swim :=
  match s.members[id]? with
  | some m => s.putMember id (f m)
  | none => s

def setProbe (s : Swim) (probe : Option Probe) : Swim := { s with probe }

def count_sent (s : Swim) : Swim :=
  { s with last_probes := { s.last_probes with sent := s.last_probes.sent + 1 } }

def count_spared (s : Swim) : Swim :=
  { s with last_probes := { s.last_probes with spared := s.last_probes.spared + 1 } }

def count_silent (s : Swim) : Swim :=
  { s with last_probes := { s.last_probes with silent := s.last_probes.silent + 1 } }

def values (s : Swim) : List Member := s.members.toList.map Prod.snd

/-! ## Timeouts and gossip -/

def xorshift (s : Swim) : UInt64 × Swim :=
  let x := s.rng
  let x := x ^^^ (x <<< 13)
  let x := x ^^^ (x >>> 7)
  let x := x ^^^ (x <<< 17)
  (x, { s with rng := x })

def health_multiplier (s : Swim) : Nat := 1 + s.awareness

def scaled_ack_timeout (s : Swim) : Nat := s.cfg.ack_timeout_ms * s.health_multiplier

def size_multiplier_permille (s : Swim) : Nat :=
  if !s.cfg.suspicion_scales_with_log_n then 1000
  else
    let size := (s.values.filter (fun m => m.state ≠ .Dead)).length + 1
    max (s.cfg.log10_permille size) 1000

def effective_suspicion_timeout (s : Swim) (m : Member) : Nat :=
  let most := s.cfg.suspicion_timeout_ms
  let least := min s.cfg.suspicion_min_timeout_ms most
  let k := max s.cfg.suspicion_confirmations 2
  let confirmations := m.suspecters.size
  let base :=
    if confirmations ≤ 1 then most
    else if k ≤ confirmations then least
    else most - (most - least) * (confirmations - 1) / (k - 1)
  base * s.size_multiplier_permille / 1000 * s.health_multiplier

def raise_awareness (s : Swim) : Swim :=
  { s with awareness := min (s.awareness + 1) s.cfg.awareness_max }

def lower_awareness (s : Swim) : Swim := { s with awareness := s.awareness - 1 }

/-- The bits of the size, scaled. -/
def transmit_limit (s : Swim) : Nat :=
  max (s.cfg.gossip_multiplier * (Nat.log2 (s.members.size + 2) + 1)) 1

def enqueue_gossip (s : Swim) (update : Update) : Swim :=
  { s with gossip :=
      s.gossip.filter (fun g => g.1.id ≠ update.id) ++ [(update, s.transmit_limit)] }

/-- The updates to piggyback, with one retransmission less for each. -/
def take_gossip (s : Swim) : List Update × Swim :=
  let taken := s.gossip.take s.cfg.gossip_fanout
  let left := taken.map (fun g => (g.1, g.2 - 1)) ++ s.gossip.drop s.cfg.gossip_fanout
  (taken.map Prod.fst, { s with gossip := left.filter (fun g => 0 < g.2) })

def plain_message (s : Swim) (kind : Kind) (gossip : List Update) : Message :=
  { sender := s.local_id, from_addr := s.local_addr, from_peer_addr := s.local_peer_addr,
    from_domain := s.local_domain, from_generation := s.generation, kind, gossip }

def send_message (s : Swim) (dest : String) (kind : Kind) : Swim :=
  let (gossip, s) := s.take_gossip
  s.push (.Send dest (s.plain_message kind gossip))

def self_update (s : Swim) : Update :=
  { id := s.local_id, addr := s.local_addr, peer_addr := s.local_peer_addr,
    incarnation := s.incarnation, generation := s.generation, state := .Alive,
    failure_domain := s.local_domain }

def greet (s : Swim) (addr : String) (more : List Update) : Action :=
  .Send addr (s.plain_message .Join (s.self_update :: more))

/-! ## Last probes -/

/-- The claim that a last probe puts to a member. -/
def claim_held (s : Swim) (m : Member) (dead : Option Nat) : Update :=
  let claim : MemberState × Nat × Option NodeId :=
    match dead with
    | some claimed =>
      if m.incarnation ≤ claimed then (.Dead, claimed, none)
      else (.Suspect, m.incarnation, some s.local_id)
    | none => (.Suspect, m.incarnation, some s.local_id)
  { id := m.id, addr := m.addr, peer_addr := m.peer_addr, incarnation := claim.2.1,
    generation := m.generation, state := claim.1, suspecter := claim.2.2,
    failure_domain := m.failure_domain }

def send_last_probe (s : Swim) (id : NodeId) (dead : Option Nat) (now : Nat) : Swim :=
  let deadline := now + s.scaled_ack_timeout
  let s := { s with seq := s.seq + 1 }
  match s.members[id]? with
  | none => s
  | some m =>
    let m := { m with confirm := some { seq := s.seq, deadline, dead } }
    let s := s.putMember id m
    let s := s.count_sent
    s.push (.Send m.addr (s.plain_message (.Ping s.seq) [s.claim_held m dead]))

/-- A relayed `Dead` is put to the member first. A probe that is out checks it too. -/
def check_relayed_dead (s : Swim) (id : NodeId) (incarnation now : Nat) : Swim :=
  match s.members[id]? with
  | none => s
  | some m =>
    match m.confirm with
    | some probe =>
      let dead := some (max incarnation (probe.dead.getD 0))
      s.putMember id { m with confirm := some { probe with dead } }
    | none => s.send_last_probe id (some incarnation) now

/-! ## Claims -/

/-- A claim about this node is refuted, unless it is about an earlier life. -/
def refute (s : Swim) (u : Update) : Swim :=
  if u.generation < s.generation then s
  else if u.state ≠ .Alive ∧ s.incarnation ≤ u.incarnation then
    let s := { s with incarnation := u.incarnation + 1 }
    let s := s.enqueue_gossip s.self_update
    let s := if s.cfg.confirm_before_dead then
        { s with gossip := s.gossip.getLast?.toList ++ s.gossip.dropLast }
      else s
    s.raise_awareness
  else s

/-- What a new life of a held node brings with it: the life held is gone. -/
def begin_life (s : Swim) (m : Member) (u : Update) (now : Nat) : Swim :=
  let s := { s with departed := s.departed.erase u.id }
  let s := (s.push (.Gone u.id m.addr m.peer_addr)).note (.Gone u.id m.generation now)
  let s := if s.probe.any (fun p => decide (p.target = u.id)) then { s with probe := none } else s
  { s with new_lives :=
      s.new_lives.insert (if unroutable u.addr then m.addr else u.addr) }

/-- A claim that supersedes the entry is adopted. -/
def adopt (s : Swim) (m : Member) (u : Update) (now : Nat) (source : Source) : Swim :=
  let new_life := m.generation < u.generation
  let changed := m.state ≠ u.state
  let s := if new_life then s.begin_life m u now else s
  let s := if changed ∧ u.state = .Alive ∧ source = .FirstHand ∧ ¬ new_life ∧ m.confirm.isSome then
      s.count_spared
    else s
  let held := m.adopted s.cfg u now
  let s := s.putMember u.id held
  if changed ∨ (u.failure_domain.isSome ∧ u.failure_domain ≠ m.failure_domain) ∨
      (u.peer_addr ≠ "" ∧ u.peer_addr ≠ m.peer_addr) then
    s.push (.StateChange u.id u.addr held.peer_addr held.state held.failure_domain)
  else s

/-- A pruned node is heard of again: a later life confirms it gone, and the same life
alive is not gone. -/
def heard_again (s : Swim) (u : Update) (now : Nat) : Swim :=
  match s.departed[u.id]? with
  | none => s
  | some d =>
    if d.generation < u.generation then
      ({ s with departed := s.departed.erase u.id }.push (.Gone u.id d.addr d.peer_addr)).note
        (.Gone u.id d.generation now)
    else if u.generation = d.generation ∧ u.state = .Alive then
      { s with departed := s.departed.erase u.id }
    else s

/-- A node that is not held is learned from the claim. -/
def learn (s : Swim) (u : Update) (now : Nat) : Swim :=
  let m : Member :=
    { id := u.id, addr := u.addr, peer_addr := u.peer_addr, incarnation := u.incarnation,
      generation := u.generation, state := u.state, failure_domain := u.failure_domain,
      state_since := now, tombstone_deadline := Member.tombstone s.cfg u.state now,
      suspecters := Member.suspecters_of u, unanswered_probes := 0, confirm := none }
  (s.putMember u.id m).push (.StateChange u.id u.addr u.peer_addr u.state u.failure_domain)

/-- A claim goes on with the best address held. -/
def relay (s : Swim) (u : Update) : Swim :=
  if unroutable u.addr then
    match s.members[u.id]? with
    | some m =>
      if unroutable m.addr then s.enqueue_gossip u else s.enqueue_gossip { u with addr := m.addr }
    | none => s.enqueue_gossip u
  else s.enqueue_gossip u

def apply_update_from (s : Swim) (u : Update) (now : Nat) (source : Source) : Swim :=
  if u.id = s.local_id then s.refute u
  else
    let s := s.note (.Heard u.id u.generation)
    match s.members[u.id]? with
    | some m =>
      if u.generation < m.generation then s
      else if m.fenced u source then s
      else
        let m := m.touched u source
        let s := s.putMember u.id m
        if !m.superseded_by u then s
        else if s.cfg.check_relayed_dead = true ∧ source = .Relayed ∧
            u.generation ≤ m.generation ∧ u.state = .Dead ∧ m.state ≠ .Dead then
          s.check_relayed_dead u.id u.incarnation now
        else (s.adopt m u now source).relay u
    | none => ((s.heard_again u now).learn u now).relay u

def declare (s : Swim) (id : NodeId) (state : MemberState) (now : Nat) : Swim :=
  match s.members[id]? with
  | none => s
  | some m =>
    s.apply_update_from
      { id, addr := m.addr, peer_addr := m.peer_addr, incarnation := m.incarnation,
        generation := m.generation, state,
        suspecter := if state = .Suspect then some s.local_id else none,
        failure_domain := m.failure_domain } now .Own

/-! ## Ticks -/

/-- The wait before a pruned member is confirmed gone. -/
def parting_wait (s : Swim) (m : Member) : Nat :=
  if s.cfg.greet_pruned && !unroutable m.addr then s.cfg.ack_timeout_ms else 0

/-- The departure of one pruned member begins. -/
def depart (s : Swim) (now : Nat) (id : NodeId) (m : Member) : Swim :=
  let d : Departed :=
    { generation := m.generation, addr := m.addr, peer_addr := m.peer_addr,
      confirm_at := now + s.parting_wait m }
  let s := { s with departed := s.departed.insert id d }
  s.note (.Pruned id m.generation now (s.cfg.greet_pruned && !unroutable m.addr))

/-- One departure whose greeting went unanswered is confirmed. -/
def confirm_gone (s : Swim) (now : Nat) (id : NodeId) : Swim :=
  match s.departed[id]? with
  | some d =>
    ({ s with departed := s.departed.erase id }.push (.Gone id d.addr d.peer_addr)).note
      (.Gone id d.generation now)
  | none => s

def confirm_departed (s : Swim) (now : Nat) : Swim :=
  let due := (s.departed.toList.filter (fun e => e.2.confirm_at ≤ now)).map Prod.fst
  due.foldl (fun s id => s.confirm_gone now id) s

def expired (now : Nat) (m : Member) : Bool := m.tombstone_deadline.any (fun d => decide (d ≤ now))

def prune_tombstones (s : Swim) (now : Nat) : Swim :=
  let gone := s.members.toList.filter (fun e => expired now e.2)
  let s := { s with members := s.members.filter (fun _ m => !expired now m) }
  let s := gone.foldl (fun s e => s.depart now e.1 e.2) s
  let s := if s.cfg.greet_pruned then
      (gone.filter (fun e => !unroutable e.2.addr)).foldl
        (fun s e => s.push (s.greet e.2.addr [])) s
    else s
  s.confirm_departed now

/-- A Fisher-Yates shuffle, from the last place down. -/
def shuffle {α : Type} (s : Swim) (l : List α) : List α × Swim :=
  (List.range (l.length - 1)).foldl (fun (acc : List α × Swim) k =>
    let i := l.length - 1 - k
    let (x, s) := acc.2.xorshift
    let j := x.toNat % (i + 1)
    let l := acc.1
    match l[i]?, l[j]? with
    | some a, some b => ((l.set i b).set j a, s)
    | _, _ => (l, s)) (l, s)

def random_alive_helpers (s : Swim) (exclude : NodeId) : List String × Swim :=
  let candidates := (s.values.filter (fun m => m.state = .Alive ∧ m.id ≠ exclude)).map Member.addr
  let (l, s) := s.shuffle candidates
  (l.take s.cfg.indirect_probes, s)

def next_probe_target (s : Swim) : Option NodeId × Swim :=
  let s := if s.probe_order.length ≤ s.probe_idx then
      let (order, s) := s.shuffle ((s.values.filter (fun m => m.state ≠ .Dead)).map Member.id)
      { s with probe_order := order, probe_idx := 0 }
    else s
  (s.probe_order[s.probe_idx]?, { s with probe_idx := s.probe_idx + 1 })

def missed (m : Member) : Member := { m with unanswered_probes := m.unanswered_probes + 1 }

/-- No direct ack: helpers are asked to probe the target. -/
def ask_helpers (s : Swim) (p : Probe) (now : Nat) : Swim :=
  let target_addr := (s.members[p.target]?.map Member.addr).getD ""
  let helpers := s.random_alive_helpers p.target
  let s := helpers.1.foldl (fun s addr => s.send_message addr (.PingReq p.target target_addr))
    helpers.2
  let s := s.setProbe (some { p with indirect_deadline := some (now + s.scaled_ack_timeout) })
  if s.cfg.reprime_on_rescued_probe then s.updateMember p.target missed else s

/-- The helpers did not reach the target either: it is suspected. -/
def suspect_target (s : Swim) (p : Probe) (now : Nat) : Swim :=
  let s := { s with failed_probe_rounds := s.failed_probe_rounds + 1 }
  let s := if s.cfg.reprime_on_rescued_probe then s else s.updateMember p.target missed
  (s.setProbe none).declare p.target .Suspect now

def advance_probe (s : Swim) (now : Nat) : Swim :=
  match s.probe with
  | none => s
  | some p =>
    match p.indirect_deadline with
    | none => if p.ack_deadline ≤ now then s.ask_helpers p now else s
    | some idl => if idl ≤ now then s.suspect_target p now else s

/-- A last probe has run out: the member is `Dead`, unless the claim that it checked was
overtaken. -/
def conclude_last_probe (s : Swim) (id : NodeId) (probe : LastProbe) (now : Nat) : Swim :=
  match s.members[id]? with
  | none => s
  | some m =>
    let m := { m with confirm := none }
    if probe.dead.any (fun claimed => decide (claimed < m.incarnation)) then s.putMember id m
    else
      let s := s.putMember id { m with incarnation := probe.dead.getD m.incarnation }
      s.count_silent.declare id .Dead now

def lapsed (s : Swim) (m : Member) (now : Nat) : Bool :=
  decide (s.effective_suspicion_timeout m ≤ now - m.state_since)

/-- The window of a suspect has lapsed: it is asked once, and declared when it is silent. -/
def time_out (s : Swim) (now : Nat) (id : NodeId) : Swim :=
  if s.cfg.confirm_before_dead then
    match s.members[id]?.bind Member.confirm with
    | none => s.send_last_probe id none now
    | some p => if now < p.deadline then s else s.conclude_last_probe id p now
  else s.declare id .Dead now

def expire_suspects (s : Swim) (now : Nat) : Swim :=
  let checked := s.members.toList.filterMap (fun e => e.2.confirm.bind (fun p =>
    if p.dead.isSome ∧ p.deadline ≤ now then some (e.2.id, p) else none))
  let s := checked.foldl (fun s e => s.conclude_last_probe e.1 e.2 now) s
  let overtaken := (s.values.filter (fun m => m.state = .Suspect ∧
    m.confirm.any (fun p => decide (p.deadline ≤ now)) ∧ s.lapsed m now = false)).map Member.id
  let s := overtaken.foldl (fun s id => s.updateMember id (fun m => { m with confirm := none })) s
  let timed_out := (s.values.filter (fun m => m.state = .Suspect ∧ s.lapsed m now = true)).map
    Member.id
  timed_out.foldl (fun s id => s.time_out now id) s

/-- The probe of a member, with a greeting when it has been deaf. -/
def probe_member (s : Swim) (target : NodeId) (m : Member) (now : Nat) : Swim :=
  let s := { s with seq := s.seq + 1 }
  let seq := s.seq
  let s := s.send_message m.addr (.Ping seq)
  let s := if max s.cfg.reprime_after 1 ≤ m.unanswered_probes then s.send_message m.addr .Join
    else s
  s.setProbe (some
    { target, seq, ack_deadline := now + s.scaled_ack_timeout, indirect_deadline := none })

def start_probe (s : Swim) (now : Nat) : Swim :=
  let next := s.next_probe_target
  match next.1 with
  | none => next.2
  | some target =>
    match next.2.members[target]? with
    | none => next.2
    | some m => next.2.probe_member target m now

def greet_seeds (s : Swim) (skip : Swim → String → Bool) : Swim :=
  s.seeds.foldl (fun s' addr =>
    if addr = s'.local_addr ∨ skip s' addr = true then s' else s'.send_message addr .Join) s

def acquainted (s : Swim) (addr : String) : Bool :=
  s.values.any (fun m => decide (m.addr = addr) && decide (m.state = .Alive))

def greet_unacquainted_seeds (s : Swim) : Swim := s.greet_seeds acquainted

def bootstrap (s : Swim) (now : Nat) : Swim :=
  let s := { s with bootstrapped := true, next_probe_at := now + s.cfg.protocol_period_ms }
  (s.enqueue_gossip s.self_update).greet_seeds (fun _ _ => false)

def tick (s : Swim) (now : Nat) : Swim :=
  let s := { s with out := [] }
  let s := s.prune_tombstones now
  let s := if s.bootstrapped then s else s.bootstrap now
  let s := (s.advance_probe now).expire_suspects now
  if s.next_probe_at ≤ now ∧ s.probe.isNone then
    let s := (s.start_probe now).greet_unacquainted_seeds
    let period := s.cfg.protocol_period_ms
    { s with next_probe_at :=
        if s.cfg.period_from_schedule = true ∧ now - s.next_probe_at < period then
          s.next_probe_at + period
        else now + period }
  else s

/-! ## Datagrams -/

def outbound_works (s : Swim) : Swim := { s with failed_probe_rounds := 0 }

def answered (m : Member) : Member := { m with unanswered_probes := 0 }

def spare (s : Swim) (id : NodeId) (probe : LastProbe) (now : Nat) : Swim :=
  match s.members[id]? with
  | none => s
  | some m =>
    let dead := probe.dead.filter (fun claimed => decide (m.incarnation ≤ claimed))
    let m := if m.state = .Suspect then
        { answered m with state_since := now, suspecters := ∅ }
      else answered m
    let s := s.outbound_works.putMember id m
    -- held `Alive`, and the relayed `Dead` was refuted: nothing to ask
    if m.state ≠ .Suspect ∧ dead.isNone then s
    else s.push (s.greet m.addr [s.claim_held m dead])

/-- Whether an `Ack` answers the last probe of its sender. -/
def answers_last_probe (s : Swim) (sender : NodeId) (generation seq : Nat) : Option LastProbe :=
  match s.members[sender]? with
  | none => none
  | some m => m.confirm.filter (fun probe =>
      decide (m.state ≠ .Dead) && decide (probe.seq = seq) && decide (generation = m.generation))

def on_ack (s : Swim) (sender : NodeId) (generation seq now : Nat) : Swim :=
  match s.answers_last_probe sender generation seq with
  | some probe =>
    let s := s.updateMember sender (fun m => { m with confirm := none })
    s.count_spared.spare sender probe now
  | none =>
    match s.probe.filter (fun p => decide (p.seq = seq)) with
    | some p =>
      ((s.setProbe none).lower_awareness.outbound_works).updateMember p.target answered
    | none =>
      match s.relays[seq]? with
      | some (requester, target) =>
        { s with relays := s.relays.erase seq }.send_message requester (.IndirectAck target)
      | none => s

def gossip_full_state (s : Swim) : Swim :=
  let updates : List Update := s.self_update :: s.values.map (fun m =>
    { id := m.id, addr := m.addr, peer_addr := m.peer_addr, incarnation := m.incarnation,
      generation := m.generation, state := m.state, failure_domain := m.failure_domain })
  updates.foldl enqueue_gossip s

/-- The claim that a datagram makes by its header alone. -/
def header_claim (msg : Message) : Update :=
  { id := msg.sender, addr := msg.from_addr, peer_addr := msg.from_peer_addr, incarnation := 0,
    generation := msg.from_generation, state := .Alive, failure_domain := msg.from_domain }

/-- The sender is learned, or its address is, or its new life. -/
def meet_sender (s : Swim) (msg : Message) (now : Nat) : Swim :=
  match s.members[msg.sender]? with
  | some m =>
    let s := if m.addr ≠ msg.from_addr ∧ unroutable msg.from_addr = false then
        s.putMember msg.sender { m with addr := msg.from_addr }
      else s
    if m.generation < msg.from_generation then
      s.apply_update_from (header_claim msg) now .FirstHand
    else s
  | none => s.apply_update_from (header_claim msg) now .FirstHand

def answer (s : Swim) (msg : Message) (now : Nat) : Swim :=
  match msg.kind with
  | .Ping seq => s.send_message msg.from_addr (.Ack seq)
  | .Ack seq => s.on_ack msg.sender msg.from_generation seq now
  | .PingReq target target_addr =>
    let dial := if unroutable target_addr then
        match s.members[target]? with
        | some m => if unroutable m.addr then target_addr else m.addr
        | none => target_addr
      else target_addr
    let s := { s with seq := s.seq + 1 }
    let s := { s with relays := s.relays.insert s.seq (msg.from_addr, target) }
    s.send_message dial (.Ping s.seq)
  | .IndirectAck target =>
    if s.probe.any (fun p => decide (p.target = target)) then
      let s := (s.setProbe none).lower_awareness.outbound_works
      if s.cfg.reprime_on_rescued_probe then s else s.updateMember target answered
    else s
  | .Join => s.gossip_full_state.send_message msg.from_addr .Sync
  | .Sync => s

def merge_gossip (s : Swim) (msg : Message) (now : Nat) : Swim :=
  msg.gossip.foldl (fun s u => s.apply_update_from u now (Source.of u msg.sender)) s

def handle (s : Swim) (msg : Message) (now : Nat) : Swim :=
  let s := { s with out := [] }
  if msg.sender = s.local_id then s
  else
    let s := s.note (.Spoke msg.sender msg.from_generation s.members[msg.sender]?.isSome)
    ((s.meet_sender msg now).merge_gossip msg now).answer msg now

/-! ## Runs -/

inductive Call
  | Handle (msg : Message)
  | Tick

def call (s : Swim) (now : Nat) : Call → Swim
  | .Handle msg => s.handle msg now
  | .Tick => s.tick now

def run (s : Swim) (calls : List (Nat × Call)) : Swim :=
  calls.foldl (fun s c => s.call c.1 c.2) s

end Swim

end mqtt_cluster.swim
