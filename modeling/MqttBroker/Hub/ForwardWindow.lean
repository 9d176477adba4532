-- The forwards that a node receives from one origin (`hub/forwarding.rs`,
-- `hub/lanes.rs`): a bounded window of those it recorded, and one gate for each
-- forward whose appends are under way. A repeat is answered again or dropped.
import MqttBroker.Hub.Forwarding

namespace mqttd.hub.forwarding

open mqttd.hub.shards (PublishRefusal DurableOutcome)

/-! ## The window -/

def FORWARD_WINDOW : Nat := 16384

structure SeenForward where
  fingerprint : Nat
  verdict : Option ForwardVerdict
  deriving DecidableEq

/-- The recent forwards of one origin, oldest first. -/
structure ForwardWindow where
  seen : BTreeMap Nat SeenForward := ∅
  order : List Nat := []

namespace ForwardWindow

def record (w : ForwardWindow) (seq fingerprint : Nat) : ForwardWindow :=
  let known := w.seen[seq]?.isSome
  let w := { w with seen := w.seen.insert seq ⟨fingerprint, none⟩ }
  if known then w
  else
    let order := w.order ++ [seq]
    if FORWARD_WINDOW < order.length then
      match order with
      | oldest :: rest => { seen := w.seen.erase oldest, order := rest }
      | [] => { w with order }
    else { w with order }

def answered (w : ForwardWindow) (seq : Nat) (verdict : ForwardVerdict) : ForwardWindow :=
  match w.seen[seq]? with
  | some s => { w with seen := w.seen.insert seq { s with verdict := some verdict } }
  | none => w

end ForwardWindow

/-! ## The gates -/

/-- What the appends of a forward came to so far. The last field is not in the source: the
fingerprints of the forwards whose application the gate stands for. -/
structure RemoteAppendGate where
  awaiting : Nat := 0
  worst : DurableOutcome := .Ok
  congested : Bool := false
  answered : Bool := false
  reached : Bool := false
  held : Bool := false
  applying : List Nat := []

def wire_code : PublishRefusal → Nat
  | .Brownout => 1
  | .RetainedQuota => 2

def to_verdict_reached (out : DurableOutcome) (reached : Bool) : ForwardVerdict :=
  match out with
  | .Ok => if reached then .Reached else .Stored
  | .Refused r => .Refused (wire_code r)
  | .Failed => .Failed

inductive Frame
  | PublishVerdict (seq : Nat) (verdict : ForwardVerdict)
  | PublishAck (seq : Nat) (ok : Bool)
  deriving DecidableEq

def PROTO_FORWARD_VERDICT : Nat := 7

def PROTO_FORWARD_REACHED : Nat := 11

def PROTO_SHARED_MEMBER_GONE : Nat := 13

/-- An answer in the words that the protocol of the link has. -/
def frame_of (proto seq : Nat) (verdict : ForwardVerdict) : Frame :=
  let verdict :=
    if verdict = .Reached ∧ proto < PROTO_FORWARD_REACHED then .Stored
    else if verdict = .Refused REFUSAL_SHARED_MEMBER_GONE ∧ proto < PROTO_SHARED_MEMBER_GONE then
      .Refused (wire_code .Brownout)
    else verdict
  if PROTO_FORWARD_VERDICT ≤ proto then .PublishVerdict seq verdict
  else .PublishAck seq (verdict = .Stored)

/-- What was done about the forwards of the origin. -/
inductive Mark
  | Applied (seq fingerprint : Nat)
  | Answered (seq : Nat) (verdict : ForwardVerdict)
  deriving DecidableEq

/-- The part of a hub that concerns one origin: its window, the gates of its forwards and the
forwards held for a takeover. `link` is the protocol of its link, where it has one, and `sent`
the frames that went out on it. The last field is not in the source. -/
structure Receiver where
  window : Option ForwardWindow := none
  remote_append_pending : BTreeMap Nat RemoteAppendGate := ∅
  held_forwards : List Nat := []
  link : Option Nat := none
  sent : List Frame := []
  history : List Mark := []

namespace Receiver

def seen (r : Receiver) (seq : Nat) : Option SeenForward := r.window.bind (fun w => w.seen[seq]?)

def forward_in_flight (r : Receiver) (seq : Nat) : Bool := r.remote_append_pending[seq]?.isSome

/-- The answer is recorded before the link is consulted. -/
def answer_forward (r : Receiver) (seq : Nat) (verdict : ForwardVerdict) : Receiver :=
  { r with
    window := r.window.map (fun w => w.answered seq verdict)
    sent := match r.link with
      | some proto => r.sent ++ [frame_of proto seq verdict]
      | none => r.sent
    history := .Answered seq verdict :: r.history }

def record (r : Receiver) (seq fingerprint : Nat) : Receiver :=
  { r with
    window := some ((r.window.getD {}).record seq fingerprint)
    history := .Applied seq fingerprint :: r.history }

/-- Whether a forward repeats one that was dealt with here. One that does not is recorded. -/
def forward_is_repeat (r : Receiver) (seq fingerprint : Nat) : Bool × Receiver :=
  match r.seen seq with
  | some s =>
    if s.fingerprint = fingerprint then
      match s.verdict with
      | some verdict => (true, r.answer_forward seq verdict)
      | none =>
        if r.forward_in_flight seq then (true, r) else (false, r.record seq fingerprint)
    else (false, r.record seq fingerprint)
  | none => if r.forward_in_flight seq then (true, r) else (false, r.record seq fingerprint)

/-! ## The application of a forward -/

/-- Count appends that were submitted for a forward. -/
def submit (r : Receiver) (seq fingerprint appends : Nat) (congested : Bool) : Receiver :=
  if appends = 0 then r
  else
    let g := (r.remote_append_pending[seq]?).getD {}
    { r with
      remote_append_pending := r.remote_append_pending.insert seq
        { g with
          awaiting := g.awaiting + appends
          congested := g.congested || congested
          applying := fingerprint :: g.applying } }

/-- Answer now when nothing is under way, else fold the outcome into the gate. A relaxed
forward below congestion is answered at once. -/
def finish_peer_verdict (r : Receiver) (seq : Nat) (sync : DurableOutcome)
    (relaxed reached : Bool) : Receiver :=
  match r.remote_append_pending[seq]? with
  | none => r.answer_forward seq (to_verdict_reached sync reached)
  | some g =>
    let g := { g with worst := g.worst.and sync, reached := g.reached || reached }
    let early := relaxed && !g.congested && !g.answered && decide (g.worst = .Ok)
    let r := { r with
      remote_append_pending :=
        r.remote_append_pending.insert seq { g with answered := g.answered || early } }
    if early then r.answer_forward seq (to_verdict_reached .Ok g.reached) else r

/-- Mark a forward as held for an open takeover. -/
def hold_forward (r : Receiver) (seq fingerprint : Nat) : Receiver :=
  let g := (r.remote_append_pending[seq]?).getD { reached := true }
  { r with
    remote_append_pending := r.remote_append_pending.insert seq
      { g with reached := true, held := true, applying := fingerprint :: g.applying }
    held_forwards := r.held_forwards ++ [seq] }

/-- What becomes of a forward that is applied: its `$share` member is not here; it is fanned
out, with some appends submitted; or it is fanned out and its answer held for a takeover. -/
inductive Applied
  | Absent (verdict : ForwardVerdict)
  | Fanned (appends : Nat) (congested : Bool) (sync : DurableOutcome) (relaxed reached : Bool)
  | Held (appends : Nat) (congested : Bool)

def apply (r : Receiver) (seq fingerprint : Nat) : Applied → Receiver
  | .Absent verdict => r.answer_forward seq verdict
  | .Fanned appends congested sync relaxed reached =>
    (r.submit seq fingerprint appends congested).finish_peer_verdict seq sync relaxed reached
  | .Held appends congested =>
    (r.submit seq fingerprint appends congested).hold_forward seq fingerprint

def arrive (r : Receiver) (seq fingerprint : Nat) (a : Applied) : Receiver :=
  let (known, r) := r.forward_is_repeat seq fingerprint
  if known then r else r.apply seq fingerprint a

/-! ## Completions -/

/-- The last append of a forward landed: its gate goes, and it is answered unless it was. -/
def complete (r : Receiver) (seq : Nat) (g : RemoteAppendGate) : Receiver :=
  let r := { r with remote_append_pending := r.remote_append_pending.erase seq }
  if g.answered then r else r.answer_forward seq (to_verdict_reached g.worst g.reached)

/-- One append of a forward landed, in a lane or by the subscriber's acknowledgement. A failure
in a lane ends a hold. -/
def landed (r : Receiver) (seq : Nat) (out : DurableOutcome) (lane reached : Bool) : Receiver :=
  match r.remote_append_pending[seq]? with
  | none => r
  | some g =>
    let g := { g with
      awaiting := g.awaiting - 1, worst := g.worst.and out, reached := g.reached || reached }
    let ends := lane && g.held && decide (g.worst ≠ .Ok)
    let g := { g with held := g.held && !ends }
    let r := { r with
      remote_append_pending := r.remote_append_pending.insert seq g
      held_forwards := if ends then r.held_forwards.filter (fun s => s ≠ seq) else r.held_forwards }
    if g.awaiting = 0 ∧ g.held = false then r.complete seq g else r

/-- The hold of a forward ends: it is handed to the sessions that came since, with some appends
submitted, and answered when nothing is left under way. -/
def settle_held (r : Receiver) (seq appends : Nat) (congested : Bool) (out : DurableOutcome) :
    Receiver :=
  if seq ∉ r.held_forwards then r
  else
    let r := { r with held_forwards := r.held_forwards.erase seq }
    let reapplied := if appends = 0 then r.remote_append_pending
      else
        let g := (r.remote_append_pending[seq]?).getD {}
        r.remote_append_pending.insert seq
          { g with awaiting := g.awaiting + appends, congested := g.congested || congested }
    let r := { r with remote_append_pending := reapplied }
    match r.remote_append_pending[seq]? with
    | none => r.answer_forward seq (to_verdict_reached out true)
    | some g =>
      let g := { g with held := false, worst := g.worst.and out }
      if g.awaiting = 0 then
        { r with remote_append_pending := r.remote_append_pending.erase seq }.answer_forward seq
          (to_verdict_reached g.worst true)
      else { r with remote_append_pending := r.remote_append_pending.insert seq g }

/-! ## Runs -/

inductive Step
  | Arrive (seq fingerprint : Nat) (a : Applied)
  | Landed (seq : Nat) (out : DurableOutcome) (lane reached : Bool)
  | SettleHeld (seq appends : Nat) (congested : Bool) (out : DurableOutcome)
  | Link (link : Option Nat)

def step (r : Receiver) : Step → Receiver
  | .Arrive seq fingerprint a => r.arrive seq fingerprint a
  | .Landed seq out lane reached => r.landed seq out lane reached
  | .SettleHeld seq appends congested out => r.settle_held seq appends congested out
  | .Link link => { r with link }

def run (r : Receiver) (steps : List Step) : Receiver := steps.foldl step r

end Receiver

end mqttd.hub.forwarding
