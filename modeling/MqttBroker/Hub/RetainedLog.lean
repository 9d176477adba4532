-- The durable keyspace of retained values (`retained_log.rs`) over a keyed log
-- with leases (`repl.rs`). A write reads the epoch of its route, then appends;
-- the lease may move in between, and a reap starts the offsets of a key again.
import MqttBroker.Hub.Retained
import MqttBroker.Cluster.ReplicaOps

namespace mqtt_storage.retained_log

open mqttd.hub mqtt_cluster.placement

abbrev Offset := Nat
abbrev GroupId := Nat

/-! ## The log -/

/-- What `encode_retained` puts into one record. -/
structure Record where
  payload : Bytes
  qos : UInt8
  props : AppProperties
  tombstone : Bool
  epoch : Nat
  expires_at : Option Nat
  deriving DecidableEq, Repr

structure LogEntry where
  offset : Offset
  record : Record
  deriving DecidableEq, Repr

structure LogState where
  entries : List LogEntry := []
  next_offset : Offset := 0
  deriving DecidableEq, Repr

structure Lease where
  holder : NodeId
  epoch : Nat
  deriving DecidableEq, Repr

/-- A log of the contract of `ReplicatedLog`, with the lease of each group. -/
structure Log where
  leases : GroupId → Lease
  logs : BTreeMap String LogState := ∅

namespace Log

def lease (log : Log) (key : String) : Lease := log.leases (group_of_key key)

/-- The epoch of the route at a node: nothing off the owner. -/
def epoch_for (log : Log) (node : NodeId) (key : String) : Option Nat :=
  if (log.lease key).holder = node then some (log.lease key).epoch else none

def next_offset (log : Log) (key : String) : Offset := (log.logs.getD key {}).next_offset

/-- A durable append at a node: the offset is above all that the key has had since it was
created. Nothing off the owner. -/
def append (log : Log) (node : NodeId) (key : String) (record : Record) (offset : Offset) :
    Option Log :=
  if (log.lease key).holder = node ∧ log.next_offset key < offset then
    some { log with
      logs := log.logs.insert key
        { entries := (log.logs.getD key {}).entries ++ [{ offset, record }],
          next_offset := offset } }
  else none

def truncate (log : Log) (key : String) (up_to : Offset) : Log :=
  { log with
    logs := log.logs.alter key (fun s => s.map (fun s =>
      { s with entries := s.entries.filter (fun e => decide (up_to < e.offset)) })) }

/-- The key with its offset counter is dropped. Nothing off the owner. -/
def remove (log : Log) (node : NodeId) (key : String) : Option Log :=
  if (log.lease key).holder = node then some { log with logs := log.logs.erase key } else none

/-- The lease of a group goes to a node, under a higher epoch. -/
def grant (log : Log) (group : GroupId) (holder : NodeId) (raise : Nat) : Log :=
  { log with
    leases := fun g => if g = group then
      { holder, epoch := (log.leases group).epoch + 1 + raise } else log.leases g }

end Log

def retained_key (topic : String) : String := "r/" ++ topic

theorem retained_key_inj {s t : String} (h : retained_key s = retained_key t) : s = t := by
  have hl : "r/".toList ++ s.toList = "r/".toList ++ t.toList := by
    simpa [retained_key] using congrArg String.toList h
  exact String.toList_inj.mp (List.append_cancel_left hl)

/-- The committed state of a topic: its last record. -/
def get (log : Log) (topic : String) : Option RetainedEntry :=
  ((log.logs.getD (retained_key topic) {}).entries.getLast?).map (fun e =>
    { payload := e.record.payload, qos := e.record.qos, tombstone := e.record.tombstone,
      props := e.record.props, epoch := e.record.epoch, offset := e.offset,
      expires_at := e.record.expires_at })

/-! ## Calls in flight -/

inductive Phase
  | Routed
  | Appended (offset : Offset)
  deriving DecidableEq, Repr

/-- A `write` that is not done: its epoch is read. `seen` is not in the source: it counts
the writes that were committed when the epoch was read. -/
structure Write where
  node : NodeId
  topic : String
  payload : Bytes
  qos : UInt8
  props : AppProperties
  tombstone : Bool
  expires_at : Option Nat
  epoch : Nat
  phase : Phase
  seen : Nat
  deriving DecidableEq, Repr

def Write.record (w : Write) : Record :=
  { payload := w.payload, qos := w.qos, props := w.props, tombstone := w.tombstone,
    epoch := w.epoch, expires_at := w.expires_at }

/-- A committed write, as its token names it. -/
structure Commit where
  topic : String
  epoch : Nat
  offset : Offset
  deriving DecidableEq, Repr

def Commit.token (c : Commit) : Token := mqttd.hub.token c.epoch c.offset

/-- The log, the writes in flight at all nodes, and what is not in the source: the writes
committed so far, oldest first, and how many there were when a topic was last reaped. -/
structure World where
  log : Log
  writes : List Write := []
  committed : List Commit := []
  reaped : String → Nat := fun _ => 0

namespace World

/-- The first step of `write`: the epoch of the route. -/
def write (w : World) (node : NodeId) (topic : String) (payload : Bytes) (qos : UInt8)
    (props : AppProperties) (tombstone : Bool) (expires_at : Option Nat) : World :=
  match w.log.epoch_for node (retained_key topic) with
  | none => w
  | some epoch =>
    let call : Write :=
      { node, topic, payload, qos, props, tombstone, expires_at, epoch, phase := .Routed,
        seen := w.committed.length }
    { w with writes := w.writes ++ [call] }

def set (w : World) (node : NodeId) (topic : String) (payload : Bytes) (qos : UInt8)
    (props : AppProperties) (expires_at : Option Nat) : World :=
  w.write node topic payload qos props false expires_at

def clear (w : World) (node : NodeId) (topic : String) : World :=
  w.write node topic [] 0 {} true none

/-- The append of a write in flight: the write ends where the log refuses it or `durable`
is false. -/
def append (w : World) (i : Nat) (offset : Offset) (durable : Bool) : World :=
  match w.writes[i]? with
  | none => w
  | some c => match c.phase with
    | .Appended _ => w
    | .Routed => match w.log.append c.node (retained_key c.topic) c.record offset with
      | none => { w with writes := w.writes.eraseIdx i }
      | some log =>
        if durable then
          { w with log := log, writes := w.writes.set i { c with phase := .Appended offset },
                   committed := w.committed ++ [{ topic := c.topic, epoch := c.epoch, offset }] }
        else { w with writes := w.writes.eraseIdx i }

/-- The compaction that ends a write. -/
def truncate (w : World) (i : Nat) (ok : Bool) : World :=
  match w.writes[i]? with
  | none => w
  | some c => match c.phase with
    | .Routed => w
    | .Appended offset =>
      { w with
        writes := w.writes.eraseIdx i
        log := if 1 < offset && ok then w.log.truncate (retained_key c.topic) (offset - 1)
          else w.log }

def reap (w : World) (node : NodeId) (topic : String) (ok : Bool) : World :=
  match w.log.remove node (retained_key topic) with
  | none => w
  | some log =>
    if ok then
      { w with log := log,
               reaped := fun t => if t = topic then w.committed.length else w.reaped t }
    else w

end World

inductive Move
  | Grant (group : GroupId) (holder : NodeId) (raise : Nat)
  | Set (node : NodeId) (topic : String) (payload : Bytes) (qos : UInt8)
      (props : AppProperties) (expires_at : Option Nat)
  | Clear (node : NodeId) (topic : String)
  | Append (i : Nat) (offset : Offset) (durable : Bool)
  | Truncate (i : Nat) (ok : Bool)
  | Reap (node : NodeId) (topic : String) (ok : Bool)
  deriving DecidableEq, Repr

def World.move (w : World) : Move → World
  | .Grant group holder raise => { w with log := w.log.grant group holder raise }
  | .Set node topic payload qos props expires_at => w.set node topic payload qos props expires_at
  | .Clear node topic => w.clear node topic
  | .Append i offset durable => w.append i offset durable
  | .Truncate i ok => w.truncate i ok
  | .Reap node topic ok => w.reap node topic ok

def World.moves (w : World) (moves : List Move) : World := moves.foldl World.move w

/-- Nothing is written yet. -/
def Blank (leases : GroupId → Lease) : World := { log := { leases } }

/-! ## What is known of the committed writes -/

/-- The epochs of the committed writes and of the writes in flight are those of past
leases, and the offsets since the last reap are below the counter of the key. -/
structure Sound (w : World) : Prop where
  lease : ∀ c ∈ w.committed, c.epoch ≤ (w.log.lease (retained_key c.topic)).epoch
  seen : ∀ x ∈ w.writes, x.seen ≤ w.committed.length
  read : ∀ x ∈ w.writes, ∀ c ∈ w.committed.take x.seen, c.topic = x.topic → c.epoch ≤ x.epoch
  routed : ∀ x ∈ w.writes, x.epoch ≤ (w.log.lease (retained_key x.topic)).epoch
  reaped : ∀ topic, w.reaped topic ≤ w.committed.length
  offsets : ∀ topic, ∀ c ∈ w.committed.drop (w.reaped topic), c.topic = topic →
    c.offset ≤ w.log.next_offset (retained_key topic)

theorem sound_blank (leases : GroupId → Lease) : Sound (Blank leases) :=
  ⟨by simp [Blank], by simp [Blank], by simp [Blank], by simp [Blank], by simp [Blank],
    by simp [Blank]⟩

namespace Sound

variable {w : World}

/-- Calls that are gone change nothing for the others. -/
theorem fewer (h : Sound w) {writes : List Write} (hsub : ∀ x ∈ writes, x ∈ w.writes) :
    Sound { w with writes := writes } :=
  ⟨h.lease, fun x hx => h.seen x (hsub x hx), fun x hx => h.read x (hsub x hx),
    fun x hx => h.routed x (hsub x hx), h.reaped, h.offsets⟩

theorem grant (h : Sound w) (group : GroupId) (holder : NodeId) (raise : Nat) :
    Sound { w with log := w.log.grant group holder raise } := by
  have hup : ∀ key, (w.log.lease key).epoch ≤ ((w.log.grant group holder raise).lease key).epoch := by
    intro key
    simp only [Log.lease, Log.grant]
    split
    · rename_i hg
      rw [hg]
      show (w.log.leases group).epoch ≤ (w.log.leases group).epoch + 1 + raise
      omega
    · exact le_refl _
  exact ⟨fun c hc => (h.lease c hc).trans (hup _), h.seen, h.read,
    fun x hx => (h.routed x hx).trans (hup _), h.reaped, h.offsets⟩

theorem write (h : Sound w) (node : NodeId) (topic : String) (payload : Bytes) (qos : UInt8)
    (props : AppProperties) (tombstone : Bool) (expires_at : Option Nat) :
    Sound (w.write node topic payload qos props tombstone expires_at) := by
  unfold World.write
  split
  · exact h
  · rename_i epoch hepoch
    have hlease : epoch = (w.log.lease (retained_key topic)).epoch := by
      simp only [Log.epoch_for] at hepoch
      split at hepoch
      · exact (Option.some.inj hepoch).symm
      · cases hepoch
    refine ⟨h.lease, ?_, ?_, ?_, h.reaped, h.offsets⟩
    · intro x hx
      rcases List.mem_append.mp hx with hx | hx
      · exact h.seen x hx
      · obtain rfl := List.mem_singleton.mp hx
        exact le_refl _
    · intro x hx c hc htopic
      rcases List.mem_append.mp hx with hx | hx
      · exact h.read x hx c hc htopic
      · obtain rfl := List.mem_singleton.mp hx
        have hle := h.lease c (List.mem_of_mem_take hc)
        rw [htopic] at hle
        exact hle.trans hlease.ge
    · intro x hx
      rcases List.mem_append.mp hx with hx | hx
      · exact h.routed x hx
      · obtain rfl := List.mem_singleton.mp hx
        exact hlease.le

end Sound

theorem lease_of_leases {log log' : Log} (h : log'.leases = log.leases) (key : String) :
    log'.lease key = log.lease key := by
  unfold Log.lease
  rw [h]

theorem append_spec {log log' : Log} {node : NodeId} {key : String} {record : Record}
    {offset : Offset} (h : log.append node key record offset = some log') :
    (log.lease key).holder = node ∧ log'.leases = log.leases ∧ log.next_offset key < offset ∧
      log'.next_offset key = offset ∧
      ∀ key', key' ≠ key → log'.next_offset key' = log.next_offset key' := by
  unfold Log.append at h
  split at h
  · rename_i hguard
    cases h
    refine ⟨hguard.1, rfl, hguard.2, ?_, fun key' hne => ?_⟩
    · simp [Log.next_offset]
    · simp [Log.next_offset, Std.ExtTreeMap.getD_eq_getD_getElem?, BTreeMap.get_insert,
        Ne.symm hne]
  · cases h

theorem next_offset_truncate (log : Log) (key : String) (up_to : Offset) (key' : String) :
    (log.truncate key up_to).next_offset key' = log.next_offset key' := by
  simp only [Log.next_offset, Log.truncate, Std.ExtTreeMap.getD_eq_getD_getElem?,
    BTreeMap.get_alter]
  split
  · rename_i hk
    subst hk
    cases log.logs[key]? <;> rfl
  · rfl

theorem remove_spec {log log' : Log} {node : NodeId} {key : String}
    (h : log.remove node key = some log') :
    log'.leases = log.leases ∧ ∀ key', key' ≠ key → log'.next_offset key' = log.next_offset key' := by
  unfold Log.remove at h
  split at h
  · cases h
    refine ⟨rfl, fun key' hne => ?_⟩
    simp [Log.next_offset, Std.ExtTreeMap.getD_eq_getD_getElem?, BTreeMap.get_erase, Ne.symm hne]
  · cases h

namespace Sound

variable {w : World}

/-- A write that commits: the others have seen as much as before, and the counter of its
key covers it. -/
theorem committed (h : Sound w) {i : Nat} {x : Write} (hx : w.writes[i]? = some x) {log : Log}
    {offset : Offset}
    (hlog : w.log.append x.node (retained_key x.topic) x.record offset = some log) :
    Sound { w with
      log := log
      writes := w.writes.set i { x with phase := .Appended offset }
      committed := w.committed ++ [{ topic := x.topic, epoch := x.epoch, offset }] } := by
  obtain ⟨-, hleases, hlt, hself, hother⟩ := append_spec hlog
  have hmem : x ∈ w.writes := List.mem_of_getElem? hx
  have hlease := lease_of_leases hleases
  -- a call after the move is one from before, up to its phase
  have hsame : ∀ y ∈ w.writes.set i { x with phase := .Appended offset },
      ∃ y' ∈ w.writes, y'.topic = y.topic ∧ y'.epoch = y.epoch ∧ y'.seen = y.seen := by
    intro y hy
    rcases List.mem_or_eq_of_mem_set hy with hy | rfl
    · exact ⟨y, hy, rfl, rfl, rfl⟩
    · exact ⟨x, hmem, rfl, rfl, rfl⟩
  refine ⟨?_, ?_, ?_, ?_, ?_, ?_⟩
  · intro c hc
    rw [hlease]
    rcases List.mem_append.mp hc with hc | hc
    · exact h.lease c hc
    · obtain rfl := List.mem_singleton.mp hc
      exact h.routed x hmem
  · intro y hy
    obtain ⟨y', hy', -, -, hseen⟩ := hsame y hy
    have := h.seen y' hy'
    simp only [List.length_append, List.length_singleton]
    omega
  · intro y hy c hc htopic
    obtain ⟨y', hy', htopic', hepoch, hseen⟩ := hsame y hy
    have hle := h.seen y' hy'
    rw [← hseen, List.take_append_of_le_length hle] at hc
    exact (h.read y' hy' c hc (htopic.trans htopic'.symm)).trans hepoch.le
  · intro y hy
    obtain ⟨y', hy', htopic, hepoch, -⟩ := hsame y hy
    rw [hlease, ← htopic, ← hepoch]
    exact h.routed y' hy'
  · intro topic
    have := h.reaped topic
    simp only [List.length_append, List.length_singleton]
    omega
  · intro topic c hc htopic
    rw [List.drop_append_of_le_length (h.reaped topic)] at hc
    by_cases ht : topic = x.topic
    · subst ht
      rw [hself]
      rcases List.mem_append.mp hc with hc | hc
      · exact (h.offsets _ c hc htopic).trans hlt.le
      · obtain rfl := List.mem_singleton.mp hc
        exact le_refl _
    · rw [hother _ (fun hk => ht (retained_key_inj hk))]
      rcases List.mem_append.mp hc with hc | hc
      · exact h.offsets topic c hc htopic
      · obtain rfl := List.mem_singleton.mp hc
        exact absurd htopic.symm ht

theorem append (h : Sound w) (i : Nat) (offset : Offset) (durable : Bool) :
    Sound (w.append i offset durable) := by
  have hgone : Sound { w with writes := w.writes.eraseIdx i } :=
    h.fewer (fun x hx => List.mem_of_mem_eraseIdx hx)
  unfold World.append
  split
  · exact h
  · rename_i x hx
    split
    · exact h
    · split
      · exact hgone
      · split
        · exact h.committed hx ‹_›
        · exact hgone

theorem truncate (h : Sound w) (i : Nat) (ok : Bool) : Sound (w.truncate i ok) := by
  unfold World.truncate
  split
  · exact h
  · split
    · exact h
    · rename_i x _ offset _
      have hgone : Sound { w with writes := w.writes.eraseIdx i } :=
        h.fewer (fun x hx => List.mem_of_mem_eraseIdx hx)
      split
      · refine ⟨hgone.lease, hgone.seen, hgone.read, hgone.routed, hgone.reaped, ?_⟩
        intro topic c hc htopic
        rw [next_offset_truncate]
        exact h.offsets topic c hc htopic
      · exact hgone

theorem reap (h : Sound w) (node : NodeId) (topic : String) (ok : Bool) :
    Sound (w.reap node topic ok) := by
  unfold World.reap
  split
  · exact h
  · rename_i log hlog
    obtain ⟨hleases, hother⟩ := remove_spec hlog
    have hlease := lease_of_leases hleases
    split
    · refine ⟨fun c hc => (hlease _) ▸ h.lease c hc, h.seen, h.read,
        fun x hx => (hlease _) ▸ h.routed x hx, ?_, ?_⟩
      · intro t
        dsimp only
        split
        · exact le_refl _
        · exact h.reaped t
      · intro t c hc htopic
        dsimp only at hc ⊢
        split at hc
        · simp at hc
        · rename_i ht
          rw [hother _ (fun hk => ht (retained_key_inj hk))]
          exact h.offsets t c hc htopic
    · exact h

theorem move (h : Sound w) (m : Move) : Sound (w.move m) := by
  cases m with
  | Grant group holder raise => exact h.grant group holder raise
  | Set node topic payload qos props expires_at => exact h.write ..
  | Clear node topic => exact h.write ..
  | Append i offset durable => exact h.append i offset durable
  | Truncate i ok => exact h.truncate i ok
  | Reap node topic ok => exact h.reap node topic ok

end Sound

/-! ## The order of the tokens -/

/-- A write may be appended: no write of its topic was committed under a later lease since
its epoch was read, and none that a reap removed carries that epoch. -/
def World.InOrder (w : World) (x : Write) : Prop :=
  (∀ c ∈ w.committed.drop x.seen, c.topic = x.topic → c.epoch ≤ x.epoch) ∧
    ∀ c ∈ w.committed.take (w.reaped x.topic), c.topic = x.topic → c.epoch ≠ x.epoch

instance (w : World) (x : Write) : Decidable (w.InOrder x) := inferInstanceAs (Decidable (_ ∧ _))

/-- The append of a write commits: its node holds the lease, and the log takes it at this
offset, durably. -/
def World.Commits (w : World) (x : Write) (offset : Offset) (durable : Bool) : Prop :=
  x.phase = .Routed ∧ (w.log.lease (retained_key x.topic)).holder = x.node ∧
    w.log.next_offset (retained_key x.topic) < offset ∧ durable = true

instance (w : World) (x : Write) (offset : Offset) (durable : Bool) :
    Decidable (w.Commits x offset durable) :=
  inferInstanceAs (Decidable (_ ∧ _))

def World.MoveInOrder (w : World) : Move → Prop
  | .Append i offset durable => ∀ x ∈ w.writes[i]?, w.Commits x offset durable → w.InOrder x
  | _ => True

instance (w : World) : (m : Move) → Decidable (w.MoveInOrder m)
  | .Append i offset durable =>
    inferInstanceAs (Decidable (∀ x ∈ w.writes[i]?, w.Commits x offset durable → w.InOrder x))
  | .Grant .. => .isTrue trivial
  | .Set .. => .isTrue trivial
  | .Clear .. => .isTrue trivial
  | .Truncate .. => .isTrue trivial
  | .Reap .. => .isTrue trivial

def World.RunInOrder (w : World) : List Move → Prop
  | [] => True
  | m :: rest => w.MoveInOrder m ∧ (w.move m).RunInOrder rest

instance instDecidableRunInOrder (w : World) : (moves : List Move) → Decidable (w.RunInOrder moves)
  | [] => .isTrue trivial
  | m :: rest =>
    have := instDecidableRunInOrder (w.move m) rest
    inferInstanceAs (Decidable (_ ∧ _))

/-- The tokens of each topic strictly increase in the order of the commits. -/
def Increasing (committed : List Commit) : Prop :=
  committed.Pairwise (fun earlier later => earlier.topic = later.topic →
    earlier.token < later.token)

theorem token_lt {e o e' o' : Nat} (he : e ≤ e') (ho : e = e' → o < o') :
    mqttd.hub.token e o < mqttd.hub.token e' o' := by
  rcases he.lt_or_eq with hlt | heq
  · exact Prod.Lex.lt_iff.mpr (.inl hlt)
  · exact Prod.Lex.lt_iff.mpr (.inr ⟨heq, ho heq⟩)

/-- A write in order is above every committed write of its topic: those that it had seen
and those that it had not, the reaped ones and the ones below the counter. -/
theorem token_lt_of_in_order {w : World} (h : Sound w) {x : Write} (hx : x ∈ w.writes)
    (hin : w.InOrder x) {offset : Offset}
    (hoffset : w.log.next_offset (retained_key x.topic) < offset) {c : Commit}
    (hc : c ∈ w.committed) (htopic : c.topic = x.topic) :
    c.token < mqttd.hub.token x.epoch offset := by
  refine token_lt ?_ (fun hepoch => ?_)
  · rw [← List.take_append_drop x.seen w.committed] at hc
    rcases List.mem_append.mp hc with hc | hc
    · exact h.read x hx c hc htopic
    · exact hin.1 c hc htopic
  · rw [← List.take_append_drop (w.reaped x.topic) w.committed] at hc
    rcases List.mem_append.mp hc with hc | hc
    · exact absurd hepoch (hin.2 c hc htopic)
    · exact (h.offsets _ c hc htopic).trans_lt hoffset

theorem move_commits (w : World) (m : Move) :
    (w.move m).committed = w.committed ∨
      ∃ i offset durable x, m = .Append i offset durable ∧ w.writes[i]? = some x ∧
        w.Commits x offset durable ∧
        (w.move m).committed =
          w.committed ++ [{ topic := x.topic, epoch := x.epoch, offset }] := by
  have hwrite : ∀ node topic payload qos props tombstone expires_at,
      (w.write node topic payload qos props tombstone expires_at).committed = w.committed := by
    intro node topic payload qos props tombstone expires_at
    unfold World.write
    split <;> rfl
  cases m with
  | Grant group holder raise => exact .inl rfl
  | Set node topic payload qos props expires_at => exact .inl (hwrite ..)
  | Clear node topic => exact .inl (hwrite ..)
  | Append i offset durable =>
    simp only [World.move, World.append]
    split
    · exact .inl rfl
    · rename_i x hx
      split
      · exact .inl rfl
      · next hphase =>
        split
        · exact .inl rfl
        · rename_i log hlog
          split
          · next hdurable =>
            have hcommits : w.Commits x offset durable :=
              ⟨hphase, (append_spec hlog).1, (append_spec hlog).2.2.1, hdurable⟩
            exact .inr ⟨i, offset, durable, x, rfl, hx, hcommits, rfl⟩
          · exact .inl rfl
  | Truncate i ok =>
    simp only [World.move, World.truncate]
    split
    · exact .inl rfl
    · split <;> exact .inl rfl
  | Reap node topic ok =>
    simp only [World.move, World.reap]
    split
    · exact .inl rfl
    · split <;> exact .inl rfl

theorem increasing_move {w : World} (h : Sound w) (hinc : Increasing w.committed) {m : Move}
    (hin : w.MoveInOrder m) : Increasing (w.move m).committed := by
  rcases move_commits w m with hsame | ⟨i, offset, durable, x, rfl, hx, hcommits, heq⟩
  · rw [hsame]
    exact hinc
  · rw [heq]
    refine List.pairwise_append.mpr ⟨hinc, List.pairwise_singleton _ _, ?_⟩
    intro c hc c' hc' htopic
    obtain rfl := List.mem_singleton.mp hc'
    exact token_lt_of_in_order h (List.mem_of_getElem? hx) (hin x hx hcommits) hcommits.2.2.1 hc
      htopic

theorem increasing_moves {w : World} (h : Sound w) (hinc : Increasing w.committed)
    {moves : List Move} (hin : w.RunInOrder moves) : Increasing (w.moves moves).committed := by
  induction moves generalizing w with
  | nil => exact hinc
  | cons m rest ih => exact ih (h.move m) (increasing_move h hinc hin.1) hin.2

/-- In every run whose committing appends are in order, each committed write of a topic has a token
above those committed before it, and a cache that applied one of these takes it in. -/
theorem tokens_order_commits (leases : GroupId → Lease) {moves : List Move}
    (hin : (Blank leases).RunInOrder moves) :
    ((Blank leases).moves moves).committed.Pairwise (fun earlier later =>
      earlier.topic = later.topic → earlier.token < later.token ∧
        ∀ (hub : Hub) (answer : Option RetainedEntry),
          hub.retained_tokens[later.topic]? = some earlier.token →
            hub.retained_is_stale later.topic later.token answer = false) := by
  refine (increasing_moves (sound_blank leases) .nil hin).imp ?_
  intro earlier later hlt htopic
  refine ⟨hlt htopic, fun hub answer hheld => ?_⟩
  rw [Hub.retained_is_stale, hheld]
  simpa using hlt htopic

/-- A set, a clear, a reap, and a set after the lease has moved away and back. A write that the
move of the lease overtook is refused. -/
theorem tokens_order_commits_over_a_reap :
    let moves : List Move :=
      [.Set "a" "t" [1] 1 {} none, .Append 0 1 true, .Truncate 0 true,
        .Clear "a" "t", .Append 0 2 true, .Truncate 0 true, .Reap "a" "t" true,
        .Set "a" "t" [9] 1 {} none, .Grant (group_of_key "r/t") "b" 0, .Append 0 1 true,
        .Grant (group_of_key "r/t") "a" 0,
        .Set "a" "t" [2] 1 {} none, .Append 0 1 true]
    let w := (Blank (fun _ => { holder := "a", epoch := 1 })).moves moves
    w.committed = [⟨"t", 1, 1⟩, ⟨"t", 1, 2⟩, ⟨"t", 3, 1⟩] ∧
      w.committed.Pairwise (fun earlier later =>
        earlier.topic = later.topic → earlier.token < later.token ∧
          ∀ (hub : Hub) (answer : Option RetainedEntry),
            hub.retained_tokens[later.topic]? = some earlier.token →
              hub.retained_is_stale later.topic later.token answer = false) := by
  intro moves w
  exact ⟨by decide +kernel,
    tokens_order_commits (fun _ => { holder := "a", epoch := 1 }) (by decide +kernel)⟩

/-- The lease goes from "a" to "b" and back while a write of "a" is between its epoch and
its append, and "b" writes the topic meanwhile: the later commit has the smaller token, and
a cache that applied the earlier one refuses it. So does a reap without a new lease. -/
theorem a_lease_move_and_a_reap_turn_the_tokens_round :
    let group := group_of_key "r/t"
    let moves : List Move :=
      [.Set "a" "t" [1] 1 {} none, .Grant group "b" 0, .Set "b" "t" [2] 1 {} none,
        .Append 1 1 true, .Truncate 1 true, .Grant group "a" 0, .Append 0 2 true]
    let w := (Blank (fun _ => { holder := "a", epoch := 1 })).moves moves
    let reaping : List Move :=
      [.Set "a" "t" [1] 1 {} none, .Append 0 1 true, .Truncate 0 true, .Reap "a" "t" true,
        .Set "a" "t" [2] 1 {} none, .Append 0 1 true]
    let w' := (Blank (fun _ => { holder := "a", epoch := 1 })).moves reaping
    let hub : Hub := { node_id := "c", durable := true, retained_tokens := ∅ }
    (w.committed = [⟨"t", 2, 1⟩, ⟨"t", 1, 2⟩] ∧ ¬ Increasing w.committed ∧
      ({ hub with retained_tokens := hub.retained_tokens.insert "t" (token 2 1) }).retained_is_stale
        "t" (token 1 2) none = true) ∧
    (w'.committed = [⟨"t", 1, 1⟩, ⟨"t", 1, 1⟩] ∧ ¬ Increasing w'.committed) := by
  unfold Increasing
  decide +kernel

end mqtt_storage.retained_log
