-- Outbound packet ids (`hub/delivery.rs`, `hub/lanes.rs`, `logged.rs`): a session takes
-- them from blocks of 1024 that are reserved in its durable record, one write for each
-- block. A new owner of the session starts with nothing but the record.
import Mathlib.Data.List.Basic

namespace mqttd.hub.delivery

/-! ## The durable record -/

def PKID_BLOCK : Nat := 1024

def PKID_RESERVE_AHEAD : Nat := PKID_BLOCK / 2

/-- Addition of `u16` values. -/
def wrapping_add (a b : Nat) : Nat := (a + b) % 65536

/-- A reservation that the store made: how many it made before, and its base. -/
structure Block where
  index : Nat
  base : Nat
  deriving DecidableEq

/-- The store's part of one durable session. `reserved` is not in the source. -/
structure SessionMeta where
  last_packet_id : Nat
  reserved : Nat := 0

/-- Reserve a block, and give its base: the high-water before it. -/
def SessionMeta.reserve_packet_ids (m : SessionMeta) (count : Nat) : Nat × SessionMeta :=
  (m.last_packet_id, { last_packet_id := wrapping_add m.last_packet_id count,
                       reserved := m.reserved + 1 })

/-! ## The allocator -/

/-- The outbound bookkeeping of an owner, as far as packet ids are concerned: the ids of
`pending` and `orphaned_qos2` are in use. The last two fields are not in the source: the
reservation that ids are taken from now, and the one that is banked. -/
structure Inflight where
  next_pkid : Nat := 0
  block_remaining : Nat := 0
  pending : List Nat := []
  orphaned_qos2 : List Nat := []
  banked_base : Option Nat := none
  reserve_outstanding : Bool := false
  block : Option Block := none
  banked_block : Option Block := none

namespace Inflight

/-- The banked block is taken into use. Base 0 leaves the cursor alone. -/
def adopted (inf : Inflight) (base : Nat) : Inflight :=
  { inf with
    banked_base := none
    next_pkid := if base ≠ 0 then base else inf.next_pkid
    block_remaining := PKID_BLOCK
    block := inf.banked_block
    banked_block := none }

/-- A spent block gives way to the banked one, if there is one. -/
def adopt (inf : Inflight) : Option Inflight :=
  if inf.block_remaining = 0 then inf.banked_base.map inf.adopted else some inf

/-- The cursor moves on. Packet id 0 is invalid. -/
def advance (inf : Inflight) : Inflight :=
  let next := wrapping_add inf.next_pkid 1
  { inf with
    next_pkid := if next = 0 then 1 else next
    block_remaining := inf.block_remaining - 1 }

def in_use (inf : Inflight) (id : Nat) : Bool :=
  inf.pending.contains id || inf.orphaned_qos2.contains id

/-- Half the block is left and nothing is banked. -/
def reserve_ahead (inf : Inflight) : Bool :=
  decide (inf.block_remaining ≤ PKID_RESERVE_AHEAD) && inf.banked_base.isNone &&
    !inf.reserve_outstanding

/-- The loop of `alloc_pkid`: draw ids until one is not in use. -/
def alloc_loop : Nat → Inflight → Option (Nat × Bool) × Inflight
  | 0, inf => (none, inf)
  | fuel + 1, inf =>
    match inf.adopt with
    | none => (none, inf)
    | some inf =>
      let inf := inf.advance
      if inf.in_use inf.next_pkid then alloc_loop fuel inf
      else (some (inf.next_pkid, inf.reserve_ahead), inf)

/-- The ids that can be drawn before a new reservation is needed. -/
def left (inf : Inflight) : Nat :=
  inf.block_remaining + if inf.banked_base.isSome then PKID_BLOCK else 0

/-- Reserve the next block, unless one is banked or under way. The answer is whether a task
goes to the store. -/
def reserve_pkid_block (inf : Inflight) : Bool × Inflight :=
  if inf.reserve_outstanding || inf.banked_base.isSome then (false, inf)
  else (true, { inf with reserve_outstanding := true })

/-- The id for a delivery, if there is one, and whether to reserve ahead. -/
def alloc_pkid (inf : Inflight) : Option (Nat × Bool) × Inflight :=
  alloc_loop (inf.left + 1) inf

/-- The reservation answered. A failure banks a bare refill. -/
def pkid_block_reserved (inf : Inflight) (result : Option Block) : Inflight :=
  { inf with
    reserve_outstanding := false
    banked_base := some (match result with | some b => b.base | none => 0)
    banked_block := result }

end Inflight

/-! ## Owners of a session -/

/-- A reservation under way: not yet served by the store, or answered and not yet delivered. -/
inductive Task
  | Running
  | Answered (result : Option Block)

structure Owner where
  inflight : Inflight := {}
  task : Option Task := none

/-- An id that was put on the wire, with the owner and the reservation it was taken from. -/
structure Handed where
  owner : Nat
  block : Option Block
  id : Nat
  deriving DecidableEq

/-- A durable session and all who own it or once did. `handed` is not in the source. -/
structure Session where
  record : SessionMeta
  owners : List Owner := []
  handed : List Handed := []

/-- What can happen: a takeover; the client attaches to an owner; an owner sends a delivery;
the store serves a reservation, or fails it; the answer arrives; ids go out of use, or are kept
in use for an orphan. -/
inductive Step
  | Takeover
  | Attach (owner : Nat)
  | Send (owner : Nat)
  | Serve (owner : Nat) (ok : Bool)
  | Answer (owner : Nat)
  | Release (owner id : Nat)
  | Orphan (owner id : Nat)

namespace Owner

def reserve (o : Owner) : Owner :=
  let (spawn, inf) := o.inflight.reserve_pkid_block
  { o with inflight := inf, task := if spawn then some .Running else o.task }

def attach (o : Owner) : Owner :=
  if o.inflight.block_remaining ≤ PKID_RESERVE_AHEAD then o.reserve else o

/-- The part of `send_qos_publish` that takes an id. Without one the delivery is deferred and
a block reserved. -/
def send (o : Owner) : Option Nat × Owner :=
  match o.inflight.alloc_pkid with
  | (none, inf) => (none, { o with inflight := inf }.reserve)
  | (some (id, ahead), inf) =>
    let o := { o with inflight := inf }
    let o := if ahead then o.reserve else o
    (some id, { o with inflight := { o.inflight with pending := id :: o.inflight.pending } })

def answer (o : Owner) : Owner :=
  match o.task with
  | some (.Answered result) =>
    { inflight := o.inflight.pkid_block_reserved result, task := none }
  | _ => o

def release (o : Owner) (id : Nat) : Owner :=
  { o with inflight := { o.inflight with
      pending := o.inflight.pending.filter (· ≠ id)
      orphaned_qos2 := o.inflight.orphaned_qos2.filter (· ≠ id) } }

def orphan (o : Owner) (id : Nat) : Owner :=
  { o with inflight := { o.inflight with orphaned_qos2 := id :: o.inflight.orphaned_qos2 } }

end Owner

namespace Session

/-- A session whose record holds a high-water, with no owner yet. -/
def start (last : UInt16) : Session := { record := { last_packet_id := last.toNat } }

def send (s : Session) (i : Nat) (o : Owner) : Session :=
  let (id, o) := o.send
  { s with
    owners := s.owners.set i o
    handed := match id with
      | some id => { owner := i, block := o.inflight.block, id } :: s.handed
      | none => s.handed }

/-- The store serves the reservation of an owner. -/
def serve (s : Session) (i : Nat) (o : Owner) (ok : Bool) : Session :=
  match o.task with
  | some .Running =>
    if ok then
      let (base, record) := s.record.reserve_packet_ids PKID_BLOCK
      { s with
        record
        owners := s.owners.set i
          { o with task := some (.Answered (some { index := s.record.reserved, base })) } }
    else { s with owners := s.owners.set i { o with task := some (.Answered none) } }
  | _ => s

/-- A step of an owner that is there. -/
def act (s : Session) (i : Nat) (f : Owner → Session) : Session :=
  match s.owners[i]? with
  | some o => f o
  | none => s

def step (s : Session) : Step → Session
  | .Takeover => { s with owners := s.owners ++ [{}] }
  | .Attach i => s.act i (fun o => { s with owners := s.owners.set i o.attach })
  | .Send i => s.act i (s.send i)
  | .Serve i ok => s.act i (fun o => s.serve i o ok)
  | .Answer i => s.act i (fun o => { s with owners := s.owners.set i o.answer })
  | .Release i id => s.act i (fun o => { s with owners := s.owners.set i (o.release id) })
  | .Orphan i id => s.act i (fun o => { s with owners := s.owners.set i (o.orphan id) })

def run (s : Session) (steps : List Step) : Session := steps.foldl step s

end Session

end mqttd.hub.delivery
