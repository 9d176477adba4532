-- The connection that an acknowledgement is written on (`spawn_router` and `spawn_supervisor` of
-- `engine.rs`, and the run loop of `client.rs`). The acknowledgement of a message goes onto the
-- command channel of its side, which outlives the connection that the message arrived on.
import MqttBroker.Bridge.AckContract

namespace mqtt_bridge

open mqtt_core mqtt_codec

/-! ## Connections and what arrived on them -/

/-- A message and the connection of its side that it arrived on. -/
structure Arrival where
  conn : Nat
  side : Side
  publish : Publish
  deriving DecidableEq

/-- An acknowledgement that was written on a connection. -/
structure Written where
  conn : Nat
  side : Side
  pkid : UInt16
  message : Nat
  deriving DecidableEq

/-- The history of a run: the connection that each side is at, the messages in the bridge with
their connections, whether each forward was accepted, and what was acknowledged where. -/
structure Trace where
  conn : Side → Nat := fun _ => 0
  arrived : Side → List Arrival := fun _ => []
  inbound : List Arrival := []
  routed : List Arrival := []
  received : List Arrival := []
  forwarded : List (Nat × Bool) := []
  pubacks : List Written := []

/-- The outcomes of the forwards of a message, in order. -/
def Trace.accepts (t : Trace) (n : Nat) : List Bool :=
  (t.forwarded.filter (fun x => decide (x.1 = n))).map Prod.snd

namespace State

variable (s : State)

/-- The history after a step. -/
def trace (t : Trace) : Event → Trace
  | .Connect side => { t with conn := Function.update t.conn side (t.conn side + 1) }
  | .Read side (.Publish p) =>
    let x : Arrival := { conn := t.conn side, side, publish := p }
    { t with
      arrived := Function.update t.arrived side (t.arrived side ++ [x])
      received := t.received ++ [x] }
  | .Written side true =>
    match (s.sides side).phase with
    | .Running _ (some (.Ack pkid message)) =>
      { t with pubacks := t.pubacks ++ [{ conn := t.conn side, side, pkid, message }] }
    | _ => t
  | .Tag side =>
    match t.arrived side with
    | x :: rest => { t with
        arrived := Function.update t.arrived side rest
        inbound := t.inbound ++ [x] }
    | [] => t
  | .Take =>
    match t.inbound with
    | x :: rest =>
      if s.cfg.ha = .Partitioned ∧ ¬ owns x.publish.topic s.cfg.total s.cfg.instance then
        { t with inbound := rest }
      else { t with inbound := rest, routed := t.routed ++ [x] }
    | [] => t
  | .Forward fault =>
    match s.routing with
    | some r =>
      match r.left with
      | f :: _ =>
        let o := some (r.message, r.next)
        let accepted :=
          ((s.sides f.dest).forward fault (live r.publish f o) (spooled r.publish f) o).1
        { t with forwarded := t.forwarded ++ [(r.message, accepted.toBool)] }
      | [] => t
    | none => t
  | _ => t

def runTraced (s : State) (t : Trace) : List Event → Option (State × Trace)
  | [] => some (s, t)
  | e :: es => match s.step e with
    | some s' => s'.runTraced (s.trace t e) es
    | none => none

end State

/-! ## Acknowledgements on their way -/

def Command.ack : Command → Option (UInt16 × Nat)
  | .Ack pkid message => some (pkid, message)
  | _ => none

def Phase.writing : Phase → List Command
  | .Running _ (some cmd) => [cmd]
  | _ => []

/-- The acknowledgements that are being written or on the channel of a side. -/
def SideState.acks (d : SideState) : List (UInt16 × Nat) :=
  (d.phase.writing ++ d.commands).filterMap Command.ack

namespace State

/-- Nothing that a side received still owes an acknowledgement. -/
def Settled (s : State) (side : Side) : Prop :=
  (∀ p ∈ (s.sides side).arrived, owed_ack p = none) ∧
    (∀ x ∈ s.inbound, x.1 = side → owed_ack x.2 = none) ∧
    (∀ r ∈ s.routing, r.side = side → owed_ack r.publish = none) ∧ (s.sides side).acks = []

/-- A side that connects has settled what it received before. -/
def Clean (s : State) : Event → Prop
  | .Connect side => s.Settled side
  | _ => True

def RunClean (s : State) : List Event → Prop
  | [] => True
  | e :: es => s.Clean e ∧ ∀ s' ∈ s.step e, s'.RunClean es

instance (s : State) (side : Side) : Decidable (s.Settled side) :=
  inferInstanceAs (Decidable (_ ∧ _ ∧ _ ∧ _))

instance (s : State) (e : Event) : Decidable (s.Clean e) :=
  match e with
  | .Connect side => inferInstanceAs (Decidable (s.Settled side))
  | .Subscribe .. | .Open .. | .Recv .. | .Written .. | .Read .. | .Lost .. | .Close .. | .Tag ..
  | .Take | .Forward .. | .Finish => inferInstanceAs (Decidable True)

instance runCleanDecidable : (s : State) → (es : List Event) → Decidable (s.RunClean es)
  | _, [] => inferInstanceAs (Decidable True)
  | s, e :: es =>
    have : DecidablePred (fun s' : State => s'.RunClean es) := fun s' => runCleanDecidable s' es
    inferInstanceAs (Decidable (s.Clean e ∧ ∀ s' ∈ s.step e, s'.RunClean es))

/-- An acknowledgement is that of a message of this connection at QoS 1, with its identifier, all
of whose forwards were accepted. -/
def Answers (s : State) (t : Trace) (conn : Nat) (side : Side) (pkid : UInt16) (n : Nat) : Prop :=
  ∃ x, t.routed[n]? = some x ∧ x.side = side ∧ x.conn = conn ∧ owed_ack x.publish = some pkid ∧
    t.accepts n = List.replicate (planned s.cfg side x.publish).length true

/-- The history is that of the state. -/
structure Traced (s : State) (t : Trace) : Prop where
  arrived : ∀ side, (t.arrived side).map Arrival.publish = (s.sides side).arrived
  sides : ∀ side, ∀ x ∈ t.arrived side, x.side = side
  inbound : t.inbound.map (fun x => (x.side, x.publish)) = s.inbound
  received : (∀ side, ∀ x ∈ t.arrived side, x ∈ t.received) ∧ (∀ x ∈ t.inbound, x ∈ t.received) ∧
    ∀ x ∈ t.routed, x ∈ t.received
  length : t.routed.length = s.routed.length
  numbered : ∀ x ∈ t.forwarded, x.1 < t.routed.length
  routing : ∀ r, s.routing = some r → ∃ x, t.routed[r.message]? = some x ∧ x.side = r.side ∧
    x.publish = r.publish ∧ r.message + 1 = t.routed.length ∧
    r.left = (planned s.cfg r.side r.publish).drop r.next ∧
    r.next ≤ (planned s.cfg r.side r.publish).length ∧ (t.accepts r.message).length = r.next ∧
    (r.durably_accepted = true → ∀ b ∈ t.accepts r.message, b = true)

/-- What owes an acknowledgement, and the acknowledgements on their way, are of the connection
that their side is at. -/
structure Current (s : State) (t : Trace) : Prop where
  arrived : ∀ side, ∀ x ∈ t.arrived side, owed_ack x.publish ≠ none → x.conn = t.conn x.side
  inbound : ∀ x ∈ t.inbound, owed_ack x.publish ≠ none → x.conn = t.conn x.side
  routing : ∀ r x, s.routing = some r → t.routed[r.message]? = some x →
    owed_ack x.publish ≠ none → x.conn = t.conn x.side
  acks : ∀ side pkid n, (pkid, n) ∈ (s.sides side).acks →
    s.Answers t (t.conn side) side pkid n ∧ ∀ r, s.routing = some r → r.message ≠ n
  pubacks : ∀ a ∈ t.pubacks, s.Answers t a.conn a.side a.pkid a.message ∧
    ∀ r, s.routing = some r → r.message ≠ a.message

end State

/-! ## A step of one side -/

namespace SideState

/-- A side that has no more acknowledgements on their way, and nothing more that arrived. -/
structure Quieter (d d' : SideState) : Prop where
  acks : ∀ a ∈ d'.acks, a ∈ d.acks
  arrived : d'.arrived = d.arrived

variable {d d' : SideState}

theorem quieter_subscribe (h : d.subscribe = some d') : d.Quieter d' := by
  unfold subscribe at h
  split at h
  · next hphase =>
    cases h
    refine ⟨fun a ha => ?_, rfl⟩
    simpa [acks, hphase, Phase.writing, Command.ack] using ha
  · cases h

theorem acks_replay (msgs : List (SpooledMessage × Option Origin)) :
    (msgs.map (fun e => e.1.command e.2)).filterMap Command.ack = [] := by
  rw [List.filterMap_map, List.filterMap_eq_nil_iff]
  intro e _
  rfl

theorem quieter_begin_run {fault : Option DiskFault} {skipped : List Nat}
    (h : d.begin_run fault skipped = some d') : d.Quieter d' := by
  unfold begin_run at h
  split at h
  · next hphase =>
    cases h
    refine ⟨fun a ha => ?_, by simp [openHandoff]⟩
    simp only [acks, openHandoff, Phase.writing, List.nil_append, List.filterMap_append] at ha
    simp only [acks, hphase, Phase.writing, List.nil_append]
    rcases List.mem_append.mp ha with ha | ha
    · exact ha
    · split at ha
      · rw [acks_replay] at ha
        cases ha
      · cases ha
  · cases h

theorem quieter_recv (h : d.recv = some d') : d.Quieter d' := by
  unfold recv at h
  split at h
  · next next cmd rest hphase hcmds =>
    split at h
    · cases h
      refine ⟨fun a ha => ?_, rfl⟩
      simpa [acks, hphase, hcmds, Phase.writing, Command.ack] using ha
    · cases h
      refine ⟨fun a ha => ?_, rfl⟩
      simpa [acks, hphase, hcmds, Phase.writing] using ha
  · cases h

/-- A write that ends leaves the channel as it is. -/
theorem written_shape {ok : Bool} (h : d.written ok = some d') :
    d'.commands = d.commands ∧ d'.arrived = d.arrived ∧ d'.phase.writing = [] := by
  unfold written at h
  split at h
  · split at h
    · split at h <;> cases h <;> exact ⟨rfl, rfl, rfl⟩
    · cases h
      exact ⟨rfl, rfl, rfl⟩
  · cases h

theorem quieter_written {ok : Bool} (h : d.written ok = some d') : d.Quieter d' := by
  obtain ⟨hcmds, harrived, hphase⟩ := written_shape h
  refine ⟨fun a ha => ?_, harrived⟩
  rw [acks, hcmds, hphase, List.nil_append] at ha
  rw [acks, List.filterMap_append]
  exact List.mem_append_right _ ha

theorem quieter_lost (h : d.lost = some d') : d.Quieter d' := by
  unfold lost at h
  split at h
  · next hphase =>
    cases h
    refine ⟨fun a ha => ?_, rfl⟩
    simpa [acks, hphase, Phase.writing] using ha
  · cases h

theorem quieter_end_run (h : d.end_run = some d') : d.Quieter d' := by
  unfold end_run at h
  split at h
  · next hphase =>
    cases h
    refine ⟨fun a ha => ?_, rfl⟩
    simpa [acks, closeHandoff, hphase, Phase.writing] using ha
  · cases h

theorem quieter_connect {subs : List (String × UInt8)} (h : d.connect subs = some d') :
    d.Quieter d' := by
  unfold connect at h
  split at h
  · next hphase =>
    cases h
    refine ⟨fun a ha => ?_, rfl⟩
    simpa [acks, hphase, Phase.writing] using ha
  · cases h

theorem read_shape {p : Packet} (h : d.read p = some d') :
    d'.acks = d.acks ∧
      ((∃ q, p = .Publish q ∧ d'.arrived = d.arrived ++ [q]) ∨
        (∀ q, p ≠ .Publish q) ∧ d'.arrived = d.arrived) := by
  unfold read at h
  split at h
  · split at h
    · next q =>
      cases h
      exact ⟨rfl, .inl ⟨q, rfl, rfl⟩⟩
    · cases h
      exact ⟨rfl, .inr ⟨nofun, rfl⟩⟩
    · next hne _ =>
      cases h
      exact ⟨rfl, .inr ⟨fun q hq => hne q hq, rfl⟩⟩
  · cases h

theorem quieter_forward (fault : Option DiskFault) (p : Publish) (f : Forward) (m : SpooledMessage)
    (o : Option Origin) : d.Quieter (d.forward fault (live p f o) m o).2 := by
  unfold forward
  split
  · refine ⟨fun a ha => ?_, rfl⟩
    simpa [acks, live, Command.ack] using ha
  · exact ⟨fun a ha => ha, rfl⟩

end SideState

namespace State

variable {s : State} {t : Trace}

variable {side : Side} {d : SideState}

theorem sides_of_quieter (h : (s.sides side).Quieter d) (x : Side) :
    (∀ a ∈ (Function.update s.sides side d x).acks, a ∈ (s.sides x).acks) ∧
      (Function.update s.sides side d x).arrived = (s.sides x).arrived := by
  by_cases hx : x = side
  · subst hx
    rw [Function.update_self]
    exact ⟨h.acks, h.arrived⟩
  · rw [Function.update_of_ne hx]
    exact ⟨fun a ha => ha, rfl⟩

theorem traced_quieter (ht : s.Traced t) (h : (s.sides side).Quieter d) :
    Traced { s with sides := Function.update s.sides side d } t := by
  refine ⟨fun x => ?_, ht.sides, ht.inbound, ht.received, ht.length, ht.numbered, ht.routing⟩
  exact (ht.arrived x).trans (sides_of_quieter h x).2.symm

theorem current_quieter (hc : s.Current t) (h : (s.sides side).Quieter d) :
    Current { s with sides := Function.update s.sides side d } t := by
  refine ⟨hc.arrived, hc.inbound, hc.routing, fun x pkid n ha => ?_, hc.pubacks⟩
  exact hc.acks x pkid n ((sides_of_quieter h x).1 _ ha)

variable {s' : State} {f : SideState → Option SideState}

theorem onSide_cases (h : s.onSide side f = some s') :
    ∃ d, f (s.sides side) = some d ∧ s' = { s with sides := Function.update s.sides side d } := by
  unfold onSide at h
  split at h
  · split at h
    · next d hd =>
      cases h
      exact ⟨d, hd, rfl⟩
    · cases h
  · cases h

/-! ## The steps -/

/-- The history is that of the state, and the acknowledgements are of their connections. -/
def Follows (s : State) (t : Trace) : Prop := s.Traced t ∧ s.Current t

theorem follows_quieter (h : s.Follows t) (hq : (s.sides side).Quieter d) :
    Follows { s with sides := Function.update s.sides side d } t :=
  ⟨traced_quieter h.1 hq, current_quieter h.2 hq⟩

theorem follows_connect (h : s.Follows t) (hq : (s.sides side).Quieter d) (hs : s.Settled side) :
    Follows { s with sides := Function.update s.sides side d } (s.trace t (.Connect side)) := by
  obtain ⟨harrived, hinbound, hrouting, hacks⟩ := hs
  have hconn : ∀ x : Side, x ≠ side →
      (s.trace t (.Connect side)).conn x = t.conn x := fun x hx => Function.update_of_ne hx _ _
  obtain ⟨htraced, hcurrent⟩ := follows_quieter h hq
  refine ⟨⟨htraced.arrived, htraced.sides, htraced.inbound, htraced.received, htraced.length,
    htraced.numbered, htraced.routing⟩, ?_, ?_, ?_, ?_, hcurrent.pubacks⟩
  · intro y x hx howed
    have hside := h.1.sides y x hx
    rw [hconn x.side ?_]
    · exact h.2.arrived y x hx howed
    · rintro heq
      have hy : y = side := hside.symm.trans heq
      subst hy
      refine howed (harrived x.publish ?_)
      rw [← h.1.arrived]
      exact List.mem_map_of_mem hx
  · intro x hx howed
    rw [hconn x.side ?_]
    · exact h.2.inbound x hx howed
    · intro heq
      refine howed (hinbound (x.side, x.publish) ?_ heq)
      rw [← h.1.inbound]
      exact List.mem_map.mpr ⟨x, hx, rfl⟩
  · intro r x hr hx howed
    obtain ⟨y, hy, hyside, hypub, -⟩ := h.1.routing r hr
    have hxy : x = y := Option.some.inj (hx.symm.trans hy)
    rw [hconn x.side ?_]
    · exact h.2.routing r x hr hx howed
    · intro heq
      rw [hxy] at heq howed
      exact howed (hypub ▸ hrouting r hr (hyside.symm.trans heq))
  · intro y pkid n ha
    have hmem := (sides_of_quieter hq y).1 _ ha
    rw [hconn y ?_]
    · exact h.2.acks y pkid n hmem
    · rintro rfl
      rw [hacks] at hmem
      cases hmem

theorem follows_written (h : s.Follows t) {ok : Bool} (hw : (s.sides side).written ok = some d) :
    Follows { s with sides := Function.update s.sides side d }
      (s.trace t (.Written side ok)) := by
  obtain ⟨htraced, hcurrent⟩ := follows_quieter h (SideState.quieter_written hw)
  cases ok with
  | false => exact ⟨htraced, hcurrent⟩
  | true =>
    rcases hphase : (s.sides side).phase with _ | _ | ⟨next, _ | cmd⟩ | _
    all_goals
      simp only [SideState.written, hphase, reduceCtorEq] at hw
    -- the loop is writing a command
    cases cmd with
    | Ack pkid message =>
      have hmem : (pkid, message) ∈ (s.sides side).acks := by
        simp [SideState.acks, hphase, Phase.writing, Command.ack]
      have hans := h.2.acks side pkid message hmem
      simp only [trace, hphase]
      refine ⟨⟨htraced.arrived, htraced.sides, htraced.inbound, htraced.received, htraced.length,
        htraced.numbered, htraced.routing⟩, hcurrent.arrived, hcurrent.inbound, hcurrent.routing,
        hcurrent.acks, ?_⟩
      intro a ha
      rcases List.mem_append.mp ha with ha | ha
      · exact h.2.pubacks a ha
      · rw [List.mem_singleton] at ha
        subst ha
        exact hans
    | Subscribe pkid filter qos =>
      simp only [trace, hphase]
      exact ⟨htraced, hcurrent⟩
    | Publish topic payload qos retain pkid properties origin =>
      simp only [trace, hphase]
      exact ⟨htraced, hcurrent⟩

theorem follows_read (h : s.Follows t) {p : Packet} (hr : (s.sides side).read p = some d) :
    Follows { s with sides := Function.update s.sides side d } (s.trace t (.Read side p)) := by
  obtain ⟨hacks, ⟨q, rfl, harrived⟩ | ⟨hne, harrived⟩⟩ := SideState.read_shape hr
  · have hsides : ∀ x, (Function.update s.sides side d x).acks = (s.sides x).acks := by
      intro x
      by_cases hx : x = side
      · subst hx
        rw [Function.update_self, hacks]
      · rw [Function.update_of_ne hx]
    -- what arrived before, and the publish
    have hmem : ∀ x, ∀ y ∈ Function.update t.arrived side
        (t.arrived side ++ [{ conn := t.conn side, side, publish := q }]) x,
        y ∈ t.arrived x ∨ y = { conn := t.conn side, side, publish := q } ∧ x = side := by
      intro x y hy
      by_cases hx : x = side
      · subst hx
        rw [Function.update_self] at hy
        rcases List.mem_append.mp hy with hy | hy
        · exact .inl hy
        · exact .inr ⟨List.mem_singleton.mp hy, rfl⟩
      · rw [Function.update_of_ne hx] at hy
        exact .inl hy
    obtain ⟨hrec, hrec', hrec''⟩ := h.1.received
    refine ⟨⟨fun x => ?_, fun x y hy => ?_, h.1.inbound, ⟨fun x y hy => ?_, ?_, ?_⟩, h.1.length,
      h.1.numbered, h.1.routing⟩, fun x y hy howed => ?_, h.2.inbound, h.2.routing, ?_, h.2.pubacks⟩
    · by_cases hx : x = side
      · subst hx
        simp only [trace, Function.update_self, List.map_append, h.1.arrived, harrived]
        rfl
      · simp only [trace, Function.update_of_ne hx, h.1.arrived]
    · rcases hmem x y hy with hy | ⟨rfl, rfl⟩
      · exact h.1.sides x y hy
      · rfl
    · rcases hmem x y hy with hy | ⟨rfl, rfl⟩
      · exact List.mem_append_left _ (hrec x y hy)
      · exact List.mem_append_right _ (List.mem_singleton_self _)
    · exact fun y hy => List.mem_append_left _ (hrec' y hy)
    · exact fun y hy => List.mem_append_left _ (hrec'' y hy)
    · rcases hmem x y hy with hy | ⟨rfl, rfl⟩
      · exact h.2.arrived x y hy howed
      · rfl
    · intro x pkid n ha
      exact h.2.acks x pkid n (hsides x ▸ ha)
  · have hsame : s.trace t (.Read side p) = t := by
      cases p with
      | Publish q => exact absurd rfl (hne q)
      | _ => rfl
    rw [hsame]
    exact follows_quieter h ⟨fun a ha => hacks ▸ ha, harrived⟩

theorem follows_tag (h : s.Follows t) (hs : s.tag side = some s') :
    s'.Follows (s.trace t (.Tag side)) := by
  unfold tag at hs
  split at hs
  · next p rest harr =>
    cases hs
    rcases ht : t.arrived side with _ | ⟨x, xs⟩
    · have hmap := h.1.arrived side
      rw [ht, harr] at hmap
      cases hmap
    · have hmap := h.1.arrived side
      rw [ht, harr, List.map_cons, List.cons.injEq] at hmap
      have hx : x ∈ t.arrived side := by
        rw [ht]
        exact List.mem_cons_self
      have hxside := h.1.sides side x hx
      have hmem : ∀ y, ∀ z ∈ Function.update t.arrived side xs y, z ∈ t.arrived y := by
        intro y z hz
        by_cases hy : y = side
        · subst hy
          rw [Function.update_self] at hz
          rw [ht]
          exact List.mem_cons_of_mem _ hz
        · rw [Function.update_of_ne hy] at hz
          exact hz
      have hsides : ∀ y, (Function.update s.sides side
          { s.sides side with arrived := rest } y).acks = (s.sides y).acks := by
        intro y
        by_cases hy : y = side
        · subst hy
          rw [Function.update_self]
          rfl
        · rw [Function.update_of_ne hy]
      obtain ⟨hrec, hrec', hrec''⟩ := h.1.received
      simp only [trace, ht]
      refine ⟨⟨fun y => ?_, fun y z hz => h.1.sides y z (hmem y z hz), ?_, ⟨?_, ?_, hrec''⟩,
        h.1.length, h.1.numbered, h.1.routing⟩, ?_, ?_, h.2.routing, ?_, h.2.pubacks⟩
      · by_cases hy : y = side
        · subst hy
          simp only [Function.update_self, hmap.2]
        · simp only [Function.update_of_ne hy, h.1.arrived]
      · simp only [List.map_append, h.1.inbound, List.map_cons, List.map_nil, hxside, hmap.1]
      · exact fun y z hz => hrec y z (hmem y z hz)
      · intro z hz
        rcases List.mem_append.mp hz with hz | hz
        · exact hrec' z hz
        · rw [List.mem_singleton.mp hz]
          exact hrec side x hx
      · exact fun y z hz => h.2.arrived y z (hmem y z hz)
      · intro z hz
        rcases List.mem_append.mp hz with hz | hz
        · exact h.2.inbound z hz
        · rw [List.mem_singleton.mp hz]
          exact h.2.arrived side x hx
      · intro y pkid n ha
        exact h.2.acks y pkid n (hsides y ▸ ha)
  · cases hs

variable {conn n : Nat} {pkid : UInt16}

theorem Answers.more {x : Arrival} (h : s.Answers t conn side pkid n) :
    s.Answers { t with routed := t.routed ++ [x] } conn side pkid n := by
  obtain ⟨y, hy, hrest⟩ := h
  refine ⟨y, ?_, hrest⟩
  rw [List.getElem?_append_left (List.getElem?_eq_some_iff.mp hy).1]
  exact hy

theorem Answers.lt (h : s.Answers t conn side pkid n) : n < t.routed.length := by
  obtain ⟨y, hy, -⟩ := h
  exact (List.getElem?_eq_some_iff.mp hy).1

theorem follows_take (h : s.Follows t) (hs : s.take = some s') : s'.Follows (s.trace t .Take) := by
  unfold take at hs
  split at hs
  · next side p rest hrouting hin =>
    rcases ht : t.inbound with _ | ⟨x, xs⟩
    · have hmap := h.1.inbound
      rw [ht, hin] at hmap
      cases hmap
    have hmap := h.1.inbound
    rw [ht, hin, List.map_cons, List.cons.injEq, Prod.mk.injEq] at hmap
    obtain ⟨⟨hside, hpub⟩, hrest⟩ := hmap
    have hx : x ∈ t.inbound := by
      rw [ht]
      exact List.mem_cons_self
    have hmem : ∀ y ∈ xs, y ∈ t.inbound := by
      intro y hy
      rw [ht]
      exact List.mem_cons_of_mem _ hy
    obtain ⟨hrec, hrec', hrec''⟩ := h.1.received
    split at hs
    · next hown =>
      cases hs
      simp only [trace, ht, hpub, if_pos hown]
      exact ⟨⟨h.1.arrived, h.1.sides, hrest, ⟨hrec, fun y hy => hrec' y (hmem y hy), hrec''⟩,
        h.1.length, h.1.numbered, h.1.routing⟩, h.2.arrived, fun y hy => h.2.inbound y (hmem y hy),
        h.2.routing, h.2.acks, h.2.pubacks⟩
    · next hown =>
      cases hs
      simp only [trace, ht, hpub, if_neg hown]
      have hlast : (t.routed ++ [x])[s.routed.length]? = some x := by
        rw [← h.1.length, List.getElem?_concat_length]
      have hnone : t.accepts s.routed.length = [] := by
        simp only [Trace.accepts, List.map_eq_nil_iff, List.filter_eq_nil_iff, decide_eq_true_eq]
        intro y hy heq
        have hlt := h.1.numbered y hy
        rw [heq, h.1.length] at hlt
        exact absurd hlt (Nat.lt_irrefl _)
      refine ⟨⟨h.1.arrived, h.1.sides, hrest, ⟨hrec, fun y hy => hrec' y (hmem y hy), ?_⟩, ?_, ?_,
        ?_⟩, h.2.arrived, fun y hy => h.2.inbound y (hmem y hy), ?_, ?_, ?_⟩
      · intro y hy
        rcases List.mem_append.mp hy with hy | hy
        · exact hrec'' y hy
        · rw [List.mem_singleton.mp hy]
          exact hrec' x hx
      · simp [h.1.length]
      · intro y hy
        exact Nat.lt_of_lt_of_le (h.1.numbered y hy) (by simp)
      · rintro r ⟨⟩
        refine ⟨x, hlast, hside, hpub, by simp [h.1.length], by simp, Nat.zero_le _,
          congrArg List.length hnone, fun _ b hb => ?_⟩
        have hb' : b ∈ t.accepts s.routed.length := hb
        rw [hnone] at hb'
        cases hb'
      · rintro r y ⟨⟩ hy howed
        rw [hlast] at hy
        cases hy
        exact h.2.inbound x hx howed
      · intro y pkid n ha
        have hans := (h.2.acks y pkid n ha).1
        refine ⟨hans.more, ?_⟩
        rintro r ⟨⟩ heq
        exact absurd hans.lt (by rw [h.1.length, ← heq]; exact Nat.lt_irrefl _)
      · intro a ha
        have hans := (h.2.pubacks a ha).1
        refine ⟨hans.more, ?_⟩
        rintro r ⟨⟩ heq
        exact absurd hans.lt (by rw [h.1.length, ← heq]; exact Nat.lt_irrefl _)
  · cases hs

theorem accepts_snoc (m n : Nat) (b : Bool) :
    Trace.accepts { t with forwarded := t.forwarded ++ [(m, b)] } n =
      t.accepts n ++ if m = n then [b] else [] := by
  by_cases h : m = n <;> simp [Trace.accepts, List.filter_append, h]

theorem Answers.other {m : Nat} {b : Bool} (h : s.Answers t conn side pkid n) (hne : m ≠ n) :
    s.Answers { t with forwarded := t.forwarded ++ [(m, b)] } conn side pkid n := by
  obtain ⟨y, hy, hside, hconn, howed, hacc⟩ := h
  refine ⟨y, hy, hside, hconn, howed, ?_⟩
  rw [accepts_snoc, if_neg hne, List.append_nil]
  exact hacc

theorem follows_forward (h : s.Follows t) {fault : Option DiskFault}
    (hs : s.forward fault = some s') : s'.Follows (s.trace t (.Forward fault)) := by
  unfold forward at hs
  split at hs
  · next r hr =>
    split at hs
    · next f left hleft =>
      have hq := SideState.quieter_forward (d := s.sides f.dest) fault r.publish f
        (spooled r.publish f) (some (r.message, r.next))
      rcases hd : (s.sides f.dest).forward fault (live r.publish f (some (r.message, r.next)))
        (spooled r.publish f) (some (r.message, r.next)) with ⟨accepted, d⟩
      rw [hd] at hq
      simp only [hd, Option.some.injEq] at hs
      subst hs
      simp only [trace, hr, hleft, hd]
      obtain ⟨htraced, hcurrent⟩ := follows_quieter h hq
      obtain ⟨x, hx, hside, hpub, hlast, hdrop, hle, hlen, hall⟩ := h.1.routing r hr
      have hlt : r.next < (planned s.cfg r.side r.publish).length := by
        by_contra hge
        rw [List.drop_eq_nil_of_le (Nat.not_lt.mp hge), hleft] at hdrop
        cases hdrop
      refine ⟨⟨htraced.arrived, htraced.sides, htraced.inbound, htraced.received, htraced.length,
        ?_, ?_⟩, hcurrent.arrived, hcurrent.inbound, ?_, ?_, ?_⟩
      · intro y hy
        rcases List.mem_append.mp hy with hy | hy
        · exact h.1.numbered y hy
        · rw [List.mem_singleton.mp hy]
          exact (List.getElem?_eq_some_iff.mp hx).1
      · rintro r' ⟨⟩
        refine ⟨x, hx, hside, hpub, hlast, ?_, hlt, ?_, ?_⟩
        · have htail := congrArg List.tail hdrop
          rw [hleft, List.tail_cons, List.tail_drop] at htail
          exact htail
        · rw [accepts_snoc, if_pos rfl, List.length_append, hlen]
          rfl
        · intro hacc b hb
          rw [Bool.and_eq_true] at hacc
          rw [accepts_snoc, if_pos rfl] at hb
          rcases List.mem_append.mp hb with hb | hb
          · exact hall hacc.1 b hb
          · rw [List.mem_singleton.mp hb]
            exact hacc.2
      · rintro r' y ⟨⟩ hy howed
        exact h.2.routing r y hr hy howed
      · intro y pkid n ha
        obtain ⟨hans, hne⟩ := hcurrent.acks y pkid n ha
        refine ⟨hans.other (hne r hr), ?_⟩
        rintro r' ⟨⟩
        exact hne r hr
      · intro a ha
        obtain ⟨hans, hne⟩ := hcurrent.pubacks a ha
        refine ⟨hans.other (hne r hr), ?_⟩
        rintro r' ⟨⟩
        exact hne r hr
    · cases hs
  · cases hs

/-- The router is through with a message: it sends no acknowledgement, or that of the message. -/
theorem follows_finish (h : s.Follows t) (hs : s.finish = some s') :
    s'.Follows (s.trace t .Finish) := by
  -- without an acknowledgement only the router changes
  have hdone : Follows { s with routing := none } t :=
    ⟨⟨h.1.arrived, h.1.sides, h.1.inbound, h.1.received, h.1.length, h.1.numbered,
      fun _ hr => by cases hr⟩, h.2.arrived, h.2.inbound, fun _ _ hr => (by cases hr),
      fun y pkid n ha => ⟨(h.2.acks y pkid n ha).1, fun _ hr => (by cases hr)⟩,
      fun a ha => ⟨(h.2.pubacks a ha).1, fun _ hr => (by cases hr)⟩⟩
  unfold finish at hs
  split at hs
  · next r hr =>
    split at hs
    · next hleft =>
      split at hs
      · next pkid howed =>
        split at hs
        · next hacc =>
          cases hs
          obtain ⟨x, hx, hside, hpub, -, hdrop, hle, hlen, hall⟩ := h.1.routing r hr
          have hans : s.Answers t (t.conn r.side) r.side pkid r.message := by
            refine ⟨x, hx, hside, ?_, hpub ▸ howed, ?_⟩
            · rw [← hside]
              exact h.2.routing r x hr hx (by rw [hpub, howed]; simp)
            · rw [List.eq_replicate_iff]
              refine ⟨?_, hall hacc⟩
              rw [hlen, hpub]
              rw [hleft, eq_comm, List.drop_eq_nil_iff] at hdrop
              exact Nat.le_antisymm hle hdrop
          refine ⟨⟨fun y => ?_, hdone.1.sides, hdone.1.inbound, hdone.1.received, hdone.1.length,
            hdone.1.numbered, hdone.1.routing⟩, hdone.2.arrived, hdone.2.inbound, hdone.2.routing,
            fun y q n ha => ⟨?_, fun _ hr => (by cases hr)⟩, hdone.2.pubacks⟩
          · by_cases hy : y = r.side
            · subst hy
              simp only [trace, Function.update_self, h.1.arrived]
            · simp only [trace, Function.update_of_ne hy, h.1.arrived]
          · by_cases hy : y = r.side
            · subst hy
              simp only [Function.update_self, SideState.acks, ← List.append_assoc] at ha
              rw [List.filterMap_append] at ha
              rcases List.mem_append.mp ha with ha | ha
              · exact (h.2.acks r.side q n ha).1
              · simp only [List.filterMap_cons, Command.ack, List.filterMap_nil, List.mem_singleton,
                  Prod.mk.injEq] at ha
                obtain ⟨rfl, rfl⟩ := ha
                exact hans
            · simp only [Function.update_of_ne hy] at ha
              exact (h.2.acks y q n ha).1
        · cases hs
          exact hdone
      · cases hs
        exact hdone
    · cases hs
  · cases hs

theorem follows_onSide (hq : ∀ d, f (s.sides side) = some d → (s.sides side).Quieter d)
    (h : s.Follows t) (hs : s.onSide side f = some s') : s'.Follows t := by
  obtain ⟨d, hd, rfl⟩ := onSide_cases hs
  exact follows_quieter h (hq d hd)

theorem follows_step {e : Event} (h : s.Follows t) (hc : s.Clean e) (hs : s.step e = some s') :
    s'.Follows (s.trace t e) := by
  cases e with
  | Connect side =>
    rw [step] at hs
    obtain ⟨d, hd, rfl⟩ := onSide_cases hs
    exact follows_connect h (SideState.quieter_connect hd) hc
  | Subscribe side => exact follows_onSide (fun _ => SideState.quieter_subscribe) h hs
  | Open side fault skipped =>
    rw [step] at hs
    exact follows_onSide (fun _ hd => SideState.quieter_begin_run hd) h hs
  | Recv side => exact follows_onSide (fun _ => SideState.quieter_recv) h hs
  | Written side ok =>
    rw [step] at hs
    obtain ⟨d, hd, rfl⟩ := onSide_cases hs
    exact follows_written h hd
  | Read side p =>
    rw [step] at hs
    obtain ⟨d, hd, rfl⟩ := onSide_cases hs
    exact follows_read h hd
  | Lost side => exact follows_onSide (fun _ => SideState.quieter_lost) h hs
  | Close side => exact follows_onSide (fun _ => SideState.quieter_end_run) h hs
  | Tag side => exact follows_tag h hs
  | Take => exact follows_take h hs
  | Forward fault => exact follows_forward h hs
  | Finish => exact follows_finish h hs

theorem follows_run {s : State} {t t' : Trace} (es : List Event) (h : s.Follows t)
    (hc : s.RunClean es) (hs : s.runTraced t es = some (s', t')) : s'.Follows t' := by
  induction es generalizing s t with
  | nil =>
    cases hs
    exact h
  | cons e es ih =>
    unfold runTraced at hs
    split at hs
    · next u hu => exact ih (follows_step h hc.1 hu) (hc.2 u hu) hs
    · cases hs

theorem follows_start (cfg : BridgeConfig) (spools : Side → Spool) :
    (start cfg spools).Follows {} := by
  refine ⟨⟨fun _ => rfl, ?_, rfl, ?_, rfl, ?_, ?_⟩, ?_, ?_, ?_, ?_, ?_⟩
  all_goals simp [start, SideState.acks, Phase.writing]

theorem runTraced_run {s : State} {t t' : Trace} {es : List Event}
    (h : s.runTraced t es = some (s', t')) : s.run es = some s' := by
  induction es generalizing s t with
  | nil =>
    cases h
    rfl
  | cons e es ih =>
    unfold runTraced at h
    split at h
    · next u hu =>
      have hrun : s.run (e :: es) = u.run es := by simp only [run, hu]
      exact hrun.trans (ih h)
    · cases h

/-! ## The contract -/

/-- An acknowledgement answers a message at QoS 1 with its identifier, which arrived on the same
connection of the same side, and all of whose forwards were accepted. -/
def OfItsConnection (cfg : BridgeConfig) (t : Trace) (a : Written) : Prop :=
  ∃ x ∈ t.received, x.conn = a.conn ∧ x.side = a.side ∧ x.publish.qos = .AtLeastOnce ∧
    x.publish.pkid = some a.pkid ∧ t.routed[a.message]? = some x ∧
    t.accepts a.message = List.replicate (planned cfg x.side x.publish).length true

theorem ofItsConnection_of_answers (ht : s.Traced t) {a : Written}
    (h : s.Answers t a.conn a.side a.pkid a.message) : OfItsConnection s.cfg t a := by
  obtain ⟨x, hx, hside, hconn, howed, hacc⟩ := h
  unfold owed_ack at howed
  split at howed
  · next hqos =>
    refine ⟨x, ht.received.2.2 x (List.mem_of_getElem? hx), hconn, hside, hqos, howed, hx, ?_⟩
    rw [hside]
    exact hacc
  · cases howed

/-- In every run in which a side that connects owes no acknowledgement for what it received
before, every acknowledgement that is written is of the connection it is written on. -/
theorem every_ack_is_of_its_connection (cfg : BridgeConfig) (spools : Side → Spool)
    (es : List Event) (hc : (start cfg spools).RunClean es) (s : State) (t : Trace)
    (h : (start cfg spools).runTraced {} es = some (s, t)) :
    ∀ a ∈ t.pubacks, OfItsConnection cfg t a := by
  intro a ha
  have hf := follows_run es (follows_start cfg spools) hc h
  have hcfg : s.cfg = cfg := (run_history es (runTraced_run h)).1
  rw [← hcfg]
  exact ofItsConnection_of_answers hf.1 (hf.2.pubacks a ha).1

/-- The acknowledgement of a live run is written on the connection of its message. -/
theorem an_ack_is_written_on_the_connection_of_its_message :
    ∃ s t, (start oneWay emptySpools).runTraced {} liveRun = some (s, t) ∧
      t.pubacks = [{ conn := 1, side := .Local, pkid := 7, message := 0 }] ∧
      ∀ a ∈ t.pubacks, OfItsConnection oneWay t a := by
  have hrun : ((start oneWay emptySpools).runTraced {} liveRun).map (fun x => x.2.pubacks) =
      some [{ conn := 1, side := .Local, pkid := 7, message := 0 }] := by decide +kernel
  obtain ⟨⟨s, t⟩, hst, hacks⟩ := Option.map_eq_some_iff.mp hrun
  exact ⟨s, t, hst, hacks, every_ack_is_of_its_connection oneWay emptySpools liveRun
    (by decide +kernel) s t hst⟩

def inward : BridgeConfig :=
  { oneWay with upstreams :=
      [{ name := "up", rules := [{ direction := .In, filter := "t", qos := 1 }] }] }

/-- A message arrives from the upstream, whose session is clean; its connection is lost, and it
is routed before the side connects again. -/
def lateRun : List Event :=
  let up := Side.Upstream 0
  [.Connect up, .Subscribe up, .Open up none [], .Read up (.Publish hello),
    .Lost up, .Close up, .Tag up, .Take, .Forward none, .Finish,
    .Connect up, .Subscribe up, .Open up none [],
    .Recv up, .Written up true, .Recv up, .Written up true]

/-- Its acknowledgement is written on the next connection, on which nothing arrived. -/
theorem an_ack_is_written_on_the_next_connection :
    ∃ s t, (start inward emptySpools).runTraced {} lateRun = some (s, t) ∧
      ¬ ∀ a ∈ t.pubacks, OfItsConnection inward t a := by
  have hrun : ((start inward emptySpools).runTraced {} lateRun).map
      (fun x => (x.2.pubacks, x.2.received)) =
      some ([{ conn := 2, side := .Upstream 0, pkid := 7, message := 0 }],
        [{ conn := 1, side := .Upstream 0, publish := hello }]) := by decide +kernel
  obtain ⟨⟨s, t⟩, hst, hboth⟩ := Option.map_eq_some_iff.mp hrun
  obtain ⟨hacks, hreceived⟩ := Prod.mk.inj hboth
  refine ⟨s, t, hst, fun hall => ?_⟩
  obtain ⟨x, hx, hconn, -⟩ := hall { conn := 2, side := .Upstream 0, pkid := 7, message := 0 }
    (by rw [hacks]; exact List.mem_singleton_self _)
  rw [hreceived, List.mem_singleton] at hx
  rw [hx] at hconn
  cases hconn

end State

end mqtt_bridge
