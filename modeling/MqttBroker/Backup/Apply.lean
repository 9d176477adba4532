-- A restore plan is written to the store of a node (`backup.rs`): each session by the
-- calls of an ordinary client, tried again as a whole after a failure that may pass, and
-- again in rounds while another node seems to own it.
import MqttBroker.Backup.Load
import MqttBroker.Storage.MemoryStore

namespace mqttd.backup

open mqtt_core mqtt_storage

def SETTLE_ROUNDS : Nat := 3

/-- The times that a session is tried again after a failure. -/
def RETRIES : Nat := 30

/-! ## The messages of a record -/

def b64_value (c : UInt8) : Option Nat :=
  if 65 ≤ c ∧ c ≤ 90 then some (c.toNat - 65)
  else if 97 ≤ c ∧ c ≤ 122 then some (c.toNat - 97 + 26)
  else if 48 ≤ c ∧ c ≤ 57 then some (c.toNat - 48 + 52)
  else if c = 43 then some 62
  else if c = 47 then some 63
  else none

/-- The six bits of a character; the padding stands for none. -/
def b64_bits (c : UInt8) : Except String Nat :=
  if c = 61 then .ok 0
  else
    match b64_value c with
    | some v => .ok v
    | none =>
      .error ("base64: invalid byte 0x" ++
        String.ofList [hex_digit (c.toNat / 16), hex_digit (c.toNat % 16)])

def b64_chunks : Bytes → Except String Bytes
  | a :: b :: c :: d :: rest => do
    let n := (← b64_bits a) * 2 ^ 18 + (← b64_bits b) * 2 ^ 12 + (← b64_bits c) * 2 ^ 6 +
      (← b64_bits d)
    let pad := ([a, b, c, d].filter fun x => x = 61).length
    let out := [UInt8.ofNat (n / 2 ^ 16)] ++ (if pad < 2 then [UInt8.ofNat (n / 2 ^ 8)] else []) ++
      (if pad < 1 then [UInt8.ofNat n] else [])
    return out ++ (← b64_chunks rest)
  | _ => .ok []

def b64_decode (s : String) : Except String Bytes :=
  let raw := (ByteCodec.stringBytes s).filter fun b => !is_ascii_whitespace b
  if raw.length % 4 ≠ 0 then
    .error ("base64: length " ++ toString raw.length ++ " is not a multiple of 4")
  else b64_chunks raw

def qos_from_u8 (v : UInt8) : QoS :=
  if v = 0 then .AtMostOnce else if v = 1 then .AtLeastOnce else .ExactlyOnce

def app_props (p : PropsRecord) : Except String AppProperties := do
  let correlation_data ← match p.correlation_data_b64 with
    | some v => some <$> b64_decode v
    | none => pure none
  return {
    payload_format := p.payload_format
    content_type := p.content_type
    response_topic := p.response_topic
    correlation_data
    user_properties := p.user_properties
    origin := none }

def queued_message (q : QueuedRecord) : Except String Message := do
  let payload ← b64_decode q.payload_b64
  let app ← app_props q.props
  return {
    topic := q.topic
    payload
    qos := qos_from_u8 q.qos
    retain := false
    app
    expires_at := q.expiry_at }

def subscription_of (s : SubscriptionRecord) : Subscription where
  filter := s.filter
  max_qos := qos_from_u8 s.max_qos
  no_local := s.no_local
  sub_id := none

/-! ## The calls to the store -/

/-- A call that was made, whether the store held the client before it, and how it failed: with
which error, and whether it took effect all the same. -/
structure Made where
  client : String
  held : Bool
  failed : Option (StorageError × Bool)
  deriving DecidableEq

/-- The store, and the calls made to it, the latest first. -/
structure World where
  store : MemorySessionStore := {}
  made : List Made := []

/-- A piece of the import: it ends with the first call that fails. -/
def Import (α : Type) := World → Except StorageError α × World

namespace Import

def pure {α : Type} (a : α) : Import α := fun w => (.ok a, w)

def throw {α : Type} (e : StorageError) : Import α := fun w => (.error e, w)

def bind {α β : Type} (m : Import α) (f : α → Import β) : Import β := fun w =>
  match m w with
  | (.ok a, w') => f a w'
  | (.error e, w') => (.error e, w')

instance : Monad Import where
  pure := pure
  bind := bind

end Import

section
variable (answers : Nat → Option (StorageError × Bool))

def call {α : Type} (client : String) (f : MemorySessionStore → α × MemorySessionStore) :
    Import α := fun w =>
  let held := w.store.sessions[client]?.isSome
  let answer := answers w.made.length
  let made := ⟨client, held, answer⟩ :: w.made
  match answer with
  | none => (.ok (f w.store).1, ⟨(f w.store).2, made⟩)
  | some (e, applied) => (.error e, ⟨if applied then (f w.store).2 else w.store, made⟩)

def call_ (client : String) (f : MemorySessionStore → MemorySessionStore) : Import Unit :=
  call answers client fun s => ((), f s)

/-! ## One session -/

inductive SessionOutcome
  | Imported (queued : Nat)
  | NotOwner
  | AlreadyPresent
  deriving DecidableEq

/-- One queued message; the offset it had is put with the offset it gets. -/
def import_queued (client : String) (acc : BTreeMap Nat Nat × Nat) (q : QueuedRecord) :
    Import (BTreeMap Nat Nat × Nat) := do
  match queued_message q with
  | .error message => Import.throw (.Backend message)
  | .ok message =>
    match ← call answers client fun s => s.enqueue_with_expiry client message q.expiry_at with
    | .Stored offset _ => return (acc.1.insert q.offset offset, acc.2 + 1)
    | .Rejected => return acc

def import_received (client : String) (_ : Unit) (entry : InboundRecord) : Import Unit := do
  let _ ← call answers client fun s => s.record_received client entry.packet_id
  if entry.acked then call_ answers client fun s => s.ack_received client entry.packet_id

/-- One delivery in flight, at the offset that its message got. -/
def import_outbound (client : String) (offsets : BTreeMap Nat Nat) (_ : Unit)
    (entry : OutboundRecord) : Import Unit := do
  let offset := offsets[entry.offset]?.getD entry.offset
  call_ answers client fun s => s.record_outbound client entry.packet_id offset
  if entry.pubrec_seen then call_ answers client fun s => s.advance_outbound client entry.packet_id

def import_rest (record : SessionRecord) : Import SessionOutcome := do
  let client := record.client
  call_ answers client fun s =>
    s.set_subscriptions client (record.subscriptions.map subscription_of)
  call_ answers client fun s => s.set_session_expiry client record.session_expiry_at
  let (offsets, queued) ← record.queue.foldlM (import_queued answers client) (∅, 0)
  record.received_qos2.foldlM (import_received answers client) ()
  record.outbound_qos2.foldlM (import_outbound answers client offsets) ()
  if 0 < record.last_packet_id then
    let _ ← call answers client fun s => s.reserve_packet_ids client record.last_packet_id
  return .Imported queued

/-- The session is claimed; whether it was there already. -/
def import_claim (record : SessionRecord) : Import Bool :=
  match record.owner with
  | some owner => do
    match ← call answers record.client fun s => s.claim_session record.client owner with
    | .Granted present => return present
    | .Denied owner =>
      Import.throw (.Backend ("the target already binds this client id to " ++ owner.quote))
  | none => call answers record.client fun s => s.ensure_session record.client

def import_session_once (record : SessionRecord) : Import SessionOutcome := do
  if ← import_claim answers record then return .AlreadyPresent
  else import_rest answers record

inductive ApplyError
  | CannotWrite (client : String) (error : StorageError)
  | Retained (message : String)
  deriving DecidableEq

/-- One session, tried again as often as `left` says. -/
def apply_session (record : SessionRecord) : Nat → World → Except ApplyError SessionOutcome × World
  | left, w =>
    match import_session_once answers record w with
    | (.ok outcome, w) => (.ok outcome, w)
    | (.error .NotOwner, w) => (.ok .NotOwner, w)
    | (.error e, w) =>
      match left with
      | 0 => (.error (.CannotWrite record.client e), w)
      | left + 1 =>
        if e.is_transient then apply_session record left w
        else (.error (.CannotWrite record.client e), w)

/-! ## The rounds -/

structure RestoreReport where
  sessions : Nat := 0
  queued : Nat := 0
  skipped_not_owner : Nat := 0
  retained : Nat := 0
  retained_expired : Nat := 0
  already_present : Nat := 0
  imported_clients : List String := []
  skipped_clients : List String := []
  deriving DecidableEq

/-- The names of a report are the first of them. -/
def note (names : List String) (name : String) : List String :=
  if names.length < 32 then names ++ [name] else names

structure Round where
  still : List SessionRecord := []
  progressed : Bool := false
  report : RestoreReport

def Round.outcome (r : Round) (record : SessionRecord) : SessionOutcome → Round
  | .Imported queued => { r with
      progressed := true
      report := { r.report with
        sessions := r.report.sessions + 1
        queued := r.report.queued + queued
        imported_clients := note r.report.imported_clients record.client } }
  | .AlreadyPresent => { r with
      progressed := true
      report := { r.report with already_present := r.report.already_present + 1 } }
  | .NotOwner => { r with still := r.still ++ [record] }

def round : List SessionRecord → Round → World → Except ApplyError Round × World
  | [], r, w => (.ok r, w)
  | record :: rest, r, w =>
    match apply_session answers record RETRIES w with
    | (.error e, w) => (.error e, w)
    | (.ok outcome, w) => round rest (r.outcome record outcome) w

/-- The rounds, until nothing is left or nothing moved for a while; at most as many as `fuel`. -/
def rounds : Nat → List SessionRecord → Nat → RestoreReport → World →
    Option (Except ApplyError (List SessionRecord × RestoreReport) × World)
  | 0, _, _, _, _ => none
  | fuel + 1, pending, quiet, report, w =>
    if pending = [] then some (.ok ([], report), w)
    else
      match round answers pending { report } w with
      | (.error e, w) => some (.error e, w)
      | (.ok r, w) =>
        let quiet := if r.progressed then 0 else quiet + 1
        if r.still = [] ∨ SETTLE_ROUNDS ≤ quiet then some (.ok (r.still, r.report), w)
        else rounds fuel r.still quiet r.report w

/-- The sessions that another node owns. -/
def skip (report : RestoreReport) (record : SessionRecord) : RestoreReport :=
  { report with
    skipped_not_owner := report.skipped_not_owner + 1
    skipped_clients := note report.skipped_clients record.client }

/-- The retained values; one whose deadline has passed is left out. -/
def apply_retained (publish : RetainedRecord → Option Nat → Except String Unit) (now : Nat) :
    List RetainedRecord → RestoreReport → Except ApplyError RestoreReport
  | [], report => .ok report
  | record :: rest, report =>
    match record.expires_at with
    | some deadline =>
      if now < deadline.val then
        match publish record (some (min (deadline.val - now) (2 ^ 32 - 1))) with
        | .error message => .error (.Retained message)
        | .ok () => apply_retained publish now rest { report with retained := report.retained + 1 }
      else
        apply_retained publish now rest
          { report with retained_expired := report.retained_expired + 1 }
    | none =>
      match publish record none with
      | .error message => .error (.Retained message)
      | .ok () => apply_retained publish now rest { report with retained := report.retained + 1 }

def most_rounds (plan : RestorePlan) : Nat := SETTLE_ROUNDS * (plan.sessions.length + 1) + 1

def apply (publish : RetainedRecord → Option Nat → Except String Unit) (now : Nat)
    (plan : RestorePlan) (w : World) : Option (Except ApplyError RestoreReport × World) :=
  (rounds answers (most_rounds plan) plan.sessions 0 {} w).map fun
    | (.error e, w) => (.error e, w)
    | (.ok (pending, report), w) =>
      (apply_retained publish now plan.retained (pending.foldl skip report), w)

end

end mqttd.backup
