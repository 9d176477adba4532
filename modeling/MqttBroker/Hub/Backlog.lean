-- The flow-control backlog of a subscriber (`mqttd/src/backpressure.rs`): a queue bounded
-- in messages and in bytes that drops its oldest entries, with a running total of the
-- bytes it holds.
import MqttBroker.Lib.BoundedQueue
import MqttBroker.Storage.Records

namespace mqttd.backpressure

open mqtt_storage BoundedQueue

/-! ## What an entry weighs -/

def ENTRY_OVERHEAD : Nat := 256

/-- The bytes of the properties that a publisher chooses. -/
def AppProperties.accounted_bytes (app : AppProperties) : Nat :=
  (if app.payload_format.isSome then 1 else 0) + (app.content_type.map String.utf8ByteSize).getD 0 +
    (app.response_topic.map String.utf8ByteSize).getD 0 +
    (app.correlation_data.map List.length).getD 0 +
    (app.user_properties.map fun (k, v) => k.utf8ByteSize + v.utf8ByteSize).sum

def message_parts_bytes (topic : String) (payload_len : Nat) (app : AppProperties) : Nat :=
  ENTRY_OVERHEAD + topic.utf8ByteSize + payload_len + AppProperties.accounted_bytes app

def message_bytes (m : Message) : Nat := message_parts_bytes m.topic m.payload.length m.app

structure BacklogEntry where
  message : Message
  retain : Bool
  message_expiry : Option U32
  offset : Option Offset
  deriving DecidableEq

def BacklogEntry.accounted_bytes (e : BacklogEntry) : Nat := message_bytes e.message

/-! ## The queue -/

def DEFAULT_MAX_BACKLOG_MESSAGES : Nat := 10000

structure SubscriberLimits where
  max_backlog_messages : Nat := DEFAULT_MAX_BACKLOG_MESSAGES
  max_backlog_bytes : Option Nat := none
  deriving DecidableEq

inductive BacklogBound
  | Messages
  | Bytes
  deriving DecidableEq, Repr

structure BacklogQueue where
  q : List BacklogEntry := []
  bytes : Nat := 0
  deriving DecidableEq

/-- The bound that a queue of this length and total is over, the messages first. -/
def SubscriberLimits.exceeded (limits : SubscriberLimits) (len bytes : Nat) : Option BacklogBound :=
  if len > limits.max_backlog_messages then some .Messages
  else if limits.max_backlog_bytes.any (fun c => bytes > c) then some .Bytes
  else none

/-- The loop of `push_back_capped`, which stops at the last entry: the front goes with its
bytes, under the bound that was exceeded. -/
def evict (limits : SubscriberLimits) :
    List BacklogEntry → Nat → BacklogQueue × List (BacklogEntry × BacklogBound)
  | e :: f :: q, bytes =>
    match limits.exceeded (e :: f :: q).length bytes with
    | some bound =>
      let (left, evicted) := evict limits (f :: q) (bytes - e.accounted_bytes)
      (left, (e, bound) :: evicted)
    | none => ({ q := e :: f :: q, bytes }, [])
  | q, bytes => ({ q, bytes }, [])

namespace BacklogQueue

def push_back_capped (b : BacklogQueue) (entry : BacklogEntry) (limits : SubscriberLimits) :
    BacklogQueue × List (BacklogEntry × BacklogBound) :=
  evict limits (b.q ++ [entry]) (b.bytes + entry.accounted_bytes)

def push_front_admitted (b : BacklogQueue) (entry : BacklogEntry) : BacklogQueue :=
  { q := entry :: b.q, bytes := b.bytes + entry.accounted_bytes }

def pop_front (b : BacklogQueue) : Option BacklogEntry × BacklogQueue :=
  match b.q with
  | [] => (none, b)
  | entry :: q => (some entry, { q, bytes := b.bytes - entry.accounted_bytes })

def drain_all (b : BacklogQueue) : List BacklogEntry × BacklogQueue := (b.q, { q := [], bytes := 0 })

/-- The total is what the entries weigh. -/
def Exact (b : BacklogQueue) : Prop := b.bytes = load BacklogEntry.accounted_bytes b.q

end BacklogQueue

/-! ## One push at the back -/

def SubscriberLimits.bounds (limits : SubscriberLimits) : Bounds :=
  { cap := limits.max_backlog_messages, budget := limits.max_backlog_bytes }

/-- The entries are within both bounds. -/
def SubscriberLimits.Met (limits : SubscriberLimits) (q : List BacklogEntry) : Prop :=
  limits.bounds.Holds BacklogEntry.accounted_bytes q

theorem exceeded_eq_none {limits : SubscriberLimits} {q : List BacklogEntry} :
    limits.exceeded q.length (load BacklogEntry.accounted_bytes q) = none ↔ limits.Met q := by
  unfold SubscriberLimits.exceeded SubscriberLimits.Met Bounds.Holds SubscriberLimits.bounds
  by_cases hlen : q.length > limits.max_backlog_messages
  · rw [if_pos hlen]
    simp only [reduceCtorEq, false_iff]
    intro h
    exact absurd h.1 (by omega)
  · rw [if_neg hlen]
    cases hbytes : limits.max_backlog_bytes with
    | none => simpa using hlen
    | some c => simp_all

/-- What `evict` leaves and takes of a queue with an exact total. -/
structure Evicts (limits : SubscriberLimits) (q : List BacklogEntry)
    (r : BacklogQueue × List (BacklogEntry × BacklogBound)) : Prop where
  whole : r.2.map Prod.fst ++ r.1.q = q
  exact : r.1.Exact
  left : r.1.q ≠ []
  met : limits.Met r.1.q ∨ r.1.q.length = 1
  needed : ∀ n < r.2.length, ¬ limits.Met (q.drop n)

theorem evict_spec (limits : SubscriberLimits) {q : List BacklogEntry} (hne : q ≠ []) {bytes : Nat}
    (h : bytes = load BacklogEntry.accounted_bytes q) : Evicts limits q (evict limits q bytes) := by
  induction q generalizing bytes with
  | nil => exact absurd rfl hne
  | cons e q ih =>
    cases q with
    | nil => exact ⟨rfl, h, by simp [evict], .inr rfl, by simp [evict]⟩
    | cons f q =>
      unfold evict
      split
      · next bound hbound =>
        -- the front goes, and the total is exact without it
        have hrest : bytes - e.accounted_bytes =
            load BacklogEntry.accounted_bytes (f :: q) := by
          rw [h, load_cons]
          omega
        obtain ⟨hwhole, hexact, hleft, hmet, hneeded⟩ := ih (by simp) hrest
        refine ⟨by simpa using hwhole, hexact, hleft, hmet, ?_⟩
        intro n hn
        cases n with
        | zero =>
          intro hmet
          rw [List.drop_zero] at hmet
          rw [h, exceeded_eq_none.mpr hmet] at hbound
          cases hbound
        | succ n => exact hneeded n (by simpa using hn)
      · next hnone => exact ⟨rfl, h, by simp, .inl (exceeded_eq_none.mp (h ▸ hnone)), by simp⟩

theorem push_back_capped_spec {b : BacklogQueue} (h : b.Exact) (entry : BacklogEntry)
    (limits : SubscriberLimits) :
    Evicts limits (b.q ++ [entry]) (b.push_back_capped entry limits) := by
  refine evict_spec limits (by simp) ?_
  rw [h, load_append, load_cons, load_nil, Nat.add_zero]

theorem Evicts.newcomer {limits : SubscriberLimits} {q : List BacklogEntry} {entry : BacklogEntry}
    {r : BacklogQueue × List (BacklogEntry × BacklogBound)} (h : Evicts limits (q ++ [entry]) r) :
    ∃ kept, q = r.2.map Prod.fst ++ kept ∧ r.1.q = kept ++ [entry] := by
  rcases List.eq_nil_or_concat r.1.q with hnil | ⟨kept, last, hlast⟩
  · exact absurd hnil h.left
  · have hwhole := h.whole
    rw [hlast, List.concat_eq_append, ← List.append_assoc] at hwhole
    obtain ⟨hq, hentry⟩ := List.append_inj' hwhole rfl
    refine ⟨kept, hq.symm, ?_⟩
    rw [hlast, List.concat_eq_append, hentry]

theorem pop_front_spec (b : BacklogQueue) :
    b.pop_front.1 = b.q.head? ∧ b.pop_front.2.q = b.q.tail := by
  unfold BacklogQueue.pop_front
  cases hq : b.q with
  | nil => exact ⟨rfl, hq⟩
  | cons entry q => exact ⟨rfl, rfl⟩

/-! ## Runs -/

/-- A call of the queue. -/
inductive Op
  | push_back_capped (entry : BacklogEntry) (limits : SubscriberLimits)
  | push_front_admitted (entry : BacklogEntry)
  | pop_front
  | drain_all

/-- The queue and the entries that have left it, in the order they left. -/
structure Ledger where
  left : List BacklogEntry := []
  queue : BacklogQueue := {}

/-- Those that have left and behind them those that wait. -/
def Ledger.line (s : Ledger) : List BacklogEntry := s.left ++ s.queue.q

def step (s : Ledger) : Op → Ledger
  | .push_back_capped entry limits =>
    let (queue, evicted) := s.queue.push_back_capped entry limits
    { left := s.left ++ evicted.map Prod.fst, queue }
  | .push_front_admitted entry => { s with queue := s.queue.push_front_admitted entry }
  | .pop_front =>
    let (entry, queue) := s.queue.pop_front
    { left := s.left ++ entry.toList, queue }
  | .drain_all =>
    let (entries, queue) := s.queue.drain_all
    { left := s.left ++ entries, queue }

def run (s : Ledger) (ops : List Op) : Ledger := ops.foldl step s

/-- The line after a call: a newcomer at the back stands behind everyone, one at the front
ahead of everyone who waits, and leaving moves nobody. -/
def Op.line (s : Ledger) : Op → List BacklogEntry
  | .push_back_capped entry _ => s.line ++ [entry]
  | .push_front_admitted entry => s.left ++ entry :: s.queue.q
  | .pop_front => s.line
  | .drain_all => s.line

/-- What a call keeps: the total stays exact, the line is the one above, and those that leave
do so behind those that left before. -/
theorem step_spec {s : Ledger} (h : s.queue.Exact) (op : Op) :
    (step s op).queue.Exact ∧ (step s op).line = op.line s ∧ s.left <+: (step s op).left := by
  cases op with
  | push_back_capped entry limits =>
    obtain ⟨hwhole, hexact, -, -, -⟩ := push_back_capped_spec h entry limits
    refine ⟨hexact, ?_, List.prefix_append _ _⟩
    simp only [step, Ledger.line, Op.line, List.append_assoc, hwhole]
  | push_front_admitted entry =>
    refine ⟨?_, rfl, List.prefix_refl _⟩
    simp only [step, BacklogQueue.push_front_admitted, BacklogQueue.Exact, load_cons]
    rw [h, Nat.add_comm]
  | pop_front =>
    rcases hq : s.queue.q with _ | ⟨entry, q⟩
    · simp [step, BacklogQueue.pop_front, hq, h, Op.line, Ledger.line]
    · have hbytes : s.queue.bytes = entry.accounted_bytes + load BacklogEntry.accounted_bytes q := by
        rw [h, hq, load_cons]
      simp [step, BacklogQueue.pop_front, BacklogQueue.Exact, hq, hbytes, Op.line, Ledger.line]
  | drain_all =>
    simp [step, BacklogQueue.drain_all, BacklogQueue.Exact, Op.line, Ledger.line]

theorem line_sublist (s : Ledger) (op : Op) : s.line.Sublist (op.line s) := by
  cases op with
  | push_back_capped entry limits => exact List.sublist_append_left _ _
  | push_front_admitted entry => exact (List.sublist_cons_self _ _).append_left _
  | pop_front => exact List.Sublist.refl _
  | drain_all => exact List.Sublist.refl _

theorem run_spec (ops : List Op) {s : Ledger} (h : s.queue.Exact) :
    (run s ops).queue.Exact ∧ s.line.Sublist (run s ops).line ∧ s.left <+: (run s ops).left := by
  induction ops generalizing s with
  | nil => exact ⟨h, List.Sublist.refl _, List.prefix_refl _⟩
  | cons op ops ih =>
    obtain ⟨hexact, hline, hleft⟩ := step_spec h op
    obtain ⟨hexact', hline', hleft'⟩ := ih hexact
    rw [hline] at hline'
    exact ⟨hexact', (line_sublist s op).trans hline', hleft.trans hleft'⟩

/-- After any calls the total is what the entries held weigh. A push at the back keeps the
newcomer and evicts the oldest, in order and until both bounds are met or the newcomer is
alone; with fewer gone they are not met. A pop gives the oldest that waits and a drain all of
them, in order. A newcomer stands behind everyone, or at the front ahead of everyone who waits;
those that leave are the head of this line, and further calls only add to it. -/
theorem backlog_is_exact (ops : List Op) :
    (run {} ops).queue.bytes = load BacklogEntry.accounted_bytes (run {} ops).queue.q ∧
    (∀ entry limits, ∃ kept,
      let q := (run {} ops).queue.q
      let r := (run {} ops).queue.push_back_capped entry limits
      q = r.2.map Prod.fst ++ kept ∧ r.1.q = kept ++ [entry] ∧
        (limits.Met r.1.q ∨ kept = []) ∧
        ∀ n < r.2.length, ¬ limits.Met (q.drop n ++ [entry])) ∧
    (let b := (run {} ops).queue
     b.pop_front.1 = b.q.head? ∧ b.pop_front.2.q = b.q.tail ∧
       b.drain_all.1 = b.q ∧ b.drain_all.2.q = []) ∧
    ∀ op more, (run {} (ops ++ [op])).line = op.line (run {} ops) ∧
      (run {} ops).line.Sublist (run {} (ops ++ more)).line ∧
      (run {} ops).left <+: (run {} (ops ++ more)).left := by
  have hempty : ({} : Ledger).queue.Exact := rfl
  have hexact : (run {} ops).queue.Exact := (run_spec ops hempty).1
  refine ⟨hexact, ?_, ?_, ?_⟩
  · intro entry limits
    have hspec := push_back_capped_spec hexact entry limits
    obtain ⟨kept, hq, hkept⟩ := hspec.newcomer
    refine ⟨kept, hq, hkept, ?_, ?_⟩
    · refine hspec.met.imp_right ?_
      intro hone
      simpa [hkept] using hone
    · intro n hn
      have hlen : n ≤ (run {} ops).queue.q.length := by
        rw [hq, List.length_append, List.length_map]
        omega
      rw [← List.drop_append_of_le_length hlen]
      exact hspec.needed n hn
  · obtain ⟨hentry, hrest⟩ := pop_front_spec (run {} ops).queue
    exact ⟨hentry, hrest, rfl, rfl⟩
  · intro op more
    refine ⟨?_, ?_⟩
    · rw [run, List.foldl_append]
      exact (step_spec hexact op).2.1
    · rw [show run {} (ops ++ more) = run (run {} ops) more from List.foldl_append]
      exact (run_spec more hexact).2

end mqttd.backpressure
