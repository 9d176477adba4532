-- The queue of one session over the log of the cluster (`mqtt-storage/src/logged.rs`):
-- a message is submitted after the cap was applied to what is committed, and the append
-- resolves later. The cap holds as long as a message is submitted with nothing in flight,
-- or with room for everything that is.
import MqttBroker.Cluster.PipelineRuns
import MqttBroker.Storage.MemoryStore

namespace mqtt_storage.repl

/-- The tier that a user property names. -/
def DurabilityTier.parse (value : String) : Option DurabilityTier :=
  if value = "quorum" then some .Quorum
  else if value = "local" then some .Local
  else if value = "relaxed" then some .Relaxed
  else none

def DURABILITY_PROPERTY : String := "mqttd-durability"

end mqtt_storage.repl

namespace mqtt_storage.logged

open mqtt_storage.repl
open mqtt_cluster.cluster_log (ClusterLog KeyState Pipeline Append Phase)

/-! ## The calls -/

/-- The committed range that is not truncated, from the watermarks. -/
def live_range (log : Pipeline) : Option (Nat × Nat) :=
  match log.key with
  | none => none
  | some ks =>
    if ks.committed > ks.truncated then some (ks.truncated + 1, ks.committed) else none

/-- A store of sessions: its limits, and whether a message may choose its tier. -/
structure LoggedStore where
  limits : QueueLimits := {}
  tier_selection : Bool := false
  log : ClusterLog

/-- The tier of the append of a message: the last property with the key counts. -/
def LoggedStore.tier (store : LoggedStore) (message : Message) : DurabilityTier :=
  if store.tier_selection then
    ((message.app.user_properties.reverse.find? (fun p => p.1 = DURABILITY_PROPERTY)).bind
      (fun p => DurabilityTier.parse p.2)).getD .Quorum
  else .Quorum

/-- A message with what is stored beside it. `awaits` is `enqueue_tagged`, which returns after
its append resolved; `submit_enqueue_tagged` returns before. -/
structure Enqueue where
  message : Message
  expiry_at : Option U64 := none
  origin : Option PublishOrigin := none
  awaits : Bool := false

/-- Where a call is. -/
inductive Stage
  /-- The oldest messages are to be truncated. -/
  | Evict (up_to evicted : Nat)
  /-- The message is to be submitted. -/
  | Append (evicted : Nat)
  /-- The append has to resolve. -/
  | Await (append evicted : Nat)

/-- What a call returned. -/
inductive Answer
  | Ready (result : Except ReplError Enqueued)
  /-- The append with its place in the pipeline. -/
  | Pending (append evicted : Nat)

/-- What the cap decided for a message, and how many messages the queue held then, those in
flight with them. The number is not in the source. -/
structure Decision where
  rejected : Bool
  held : Nat

/-- The queue of a session, with the call that is going on. The last two fields are not in the
source: what the cap decided, and the offsets that it evicted. -/
structure Queue where
  log : Pipeline := {}
  call : Option (Enqueue × Stage) := none
  answers : List Answer := []
  decisions : List Decision := []
  evicted : List Nat := []

namespace Queue

variable (store : LoggedStore) (q : Queue)

/-- The committed messages that are not truncated. -/
def live : Nat := q.log.ks.committed - q.log.ks.truncated

/-- The messages that were submitted, and neither committed nor failed yet. -/
def inFlight : Nat := q.log.appends.countP Append.unresolved

/-- A call applies the cap before it appends. -/
def apply_cap (call : Enqueue) : Queue :=
  let cap := store.limits.cap
  let start (stage : Stage) : Queue :=
    { q with
      call := some (call, stage)
      decisions := q.decisions ++ [⟨false, q.live + q.inFlight⟩] }
  match live_range q.log with
  | none => start (.Append 0)
  | some (low, high) =>
    let count := high - low + 1
    if count ≥ cap then
      match store.limits.overflow with
      | .RejectNewest =>
        { q with
          answers := q.answers ++ [.Ready (.ok .Rejected)]
          decisions := q.decisions ++ [⟨true, q.live + q.inFlight⟩] }
      | .DropOldest =>
        let evict_count := count - cap + 1
        start (.Evict (low + evict_count - 1) evict_count)
    else start (.Append 0)

def go : Queue :=
  match q.call with
  | none => q
  | some (call, .Evict up_to evicted) =>
    { q with
      log := Pipeline.step store.log q.log (.Truncate up_to)
      call := some (call, .Append evicted)
      evicted := q.evicted ++
        q.log.ks.entries.keys.filter (fun o => o ≤ min up_to q.log.ks.committed) }
  | some (call, .Append evicted) =>
    let log := q.log.submit_tiered (encode_queued call.message call.expiry_at call.origin)
      (store.tier call.message)
    if call.awaits then
      { q with log, call := some (call, .Await q.log.appends.length evicted) }
    else
      { q with
        log, call := none, answers := q.answers ++ [.Pending q.log.appends.length evicted] }
  | some (_, .Await i evicted) =>
    match q.log.appends[i]?.map Append.phase with
    | some (.Done (.ok offset)) =>
      { q with call := none, answers := q.answers ++ [.Ready (.ok (.Stored offset evicted))] }
    | some (.Done (.error e)) =>
      { q with call := none, answers := q.answers ++ [.Ready (.error e)] }
    | _ => q

end Queue

/-- What can happen next on a session: a call starts when none is going on, and everything else
comes at any time. -/
inductive Step
  | Submit (message : Message) (expiry_at : Option U64) (origin : Option PublishOrigin)
  | Enqueue (message : Message) (expiry_at : Option U64) (origin : Option PublishOrigin)
  | Go
  | Own (i : Nat) (ok : Bool)
  | Follower (i f : Nat) (ok : Bool)
  | Resolve (i : Nat)
  | Ack (up_to : Nat)
  | AckDurable (up_to : Nat)
  | AckDurableAcked (k : Nat) (own : Bool) (acked : List Nat)

namespace Queue

variable (store : LoggedStore) (q : Queue)

def submit_enqueue_tagged (message : Message) (expiry_at : Option U64)
    (origin : Option PublishOrigin) : Queue :=
  if q.call.isSome then q else q.apply_cap store { message, expiry_at, origin }

def enqueue_tagged (message : Message) (expiry_at : Option U64) (origin : Option PublishOrigin) :
    Queue :=
  if q.call.isSome then q else q.apply_cap store { message, expiry_at, origin, awaits := true }

def below (step : mqtt_cluster.cluster_log.Step) : Queue :=
  { q with log := Pipeline.step store.log q.log step }

def step : Step → Queue
  | .Submit message expiry_at origin => q.submit_enqueue_tagged store message expiry_at origin
  | .Enqueue message expiry_at origin => q.enqueue_tagged store message expiry_at origin
  | .Go => q.go store
  | .Own i ok => q.below store (.Own i ok)
  | .Follower i f ok => q.below store (.Follower i f ok)
  | .Resolve i => q.below store (.Resolve i)
  | .Ack up_to => q.below store (.Truncate up_to)
  | .AckDurable up_to => q.below store (.TruncateDurable up_to)
  | .AckDurableAcked k own acked => q.below store (.TruncateAcked k own acked)

def run (steps : List Step) : Queue := steps.foldl (step store) q

end Queue

/-! ## What the log below does to the count -/

/-- Messages only move from the flight to the queue, or out: no step but a submit brings one. -/
structure Eases (ks ks' : KeyState) : Prop where
  truncated : ks.truncated ≤ ks'.truncated
  committed : ks.committed ≤ ks'.committed
  low : ks.truncated ≤ ks.committed → ks'.truncated ≤ ks'.committed
  sum : ks'.committed + ks'.pending ≤ ks.committed + ks.pending
  entries : ∀ (o : Nat) r, ks'.entries[o]? = some r →
    ks.entries[o]? = some r ∧ (ks.truncated < o → ks'.truncated < o)

theorem eases_refl (ks : KeyState) : Eases ks ks :=
  ⟨Nat.le_refl _, Nat.le_refl _, fun h => h, Nat.le_refl _, fun _ _ hr => ⟨hr, fun h => h⟩⟩

theorem eases_drop {ks : KeyState} {up_to : Nat} (hup : up_to ≤ ks.committed) :
    Eases ks (ks.drop_to up_to) := by
  refine ⟨Nat.le_max_left _ _, Nat.le_refl _, fun hlow => Nat.max_le.mpr ⟨hlow, hup⟩,
    Nat.le_refl _, ?_⟩
  intro o r hr
  have hent : (ks.drop_to up_to).entries[o]? = if o ≤ up_to then none else ks.entries[o]? :=
    BTreeMap.get_dropThrough _ _ _
  rw [hent] at hr
  split at hr
  · cases hr
  · rename_i hlt
    exact ⟨hr, fun h => Nat.max_lt.mpr ⟨h, Nat.lt_of_not_le hlt⟩⟩

@[simp] theorem pipeline_resolved_truncated (ks : KeyState) :
    ks.pipeline_resolved.truncated = ks.truncated := by
  unfold KeyState.pipeline_resolved
  dsimp only
  split <;> rfl

theorem eases_resolve {ks ks' : KeyState} {offset : Nat} {met : Bool}
    {r : Option (Except ReplError Nat)} (h : ks.resolve offset met = (r, ks'))
    (hpending : 0 < ks.pending) : Eases ks ks' := by
  rcases KeyState.resolve_cases h with
    ⟨-, -, rfl⟩ | ⟨-, -, -, rfl⟩ | ⟨-, -, hnext, -, rfl⟩ | ⟨-, -, -, rfl⟩
  · refine ⟨by simp [KeyState.tail_fail], by simp [KeyState.tail_fail],
      by simp [KeyState.tail_fail], by simp [KeyState.tail_fail], ?_⟩
    intro o r hr
    rw [KeyState.pipeline_resolved_entries, KeyState.get_tail_fail] at hr
    split at hr
    · cases hr
    · exact ⟨hr, by simp [KeyState.tail_fail]⟩
  · refine ⟨by simp [KeyState.abort_from], by simp [KeyState.abort_from],
      by simp [KeyState.abort_from], by simp [KeyState.abort_from], ?_⟩
    intro o r hr
    rw [KeyState.pipeline_resolved_entries, KeyState.get_abort_from] at hr
    split at hr
    · cases hr
    · exact ⟨hr, by simp [KeyState.abort_from]⟩
  · refine ⟨by simp, ?_, ?_, ?_, ?_⟩
    · rw [KeyState.pipeline_resolved_committed, ← hnext]
      exact Nat.le_succ _
    · intro hlow
      rw [KeyState.pipeline_resolved_committed, pipeline_resolved_truncated, ← hnext]
      exact Nat.le_succ_of_le hlow
    · rw [KeyState.pipeline_resolved_committed, KeyState.pipeline_resolved_pending, ← hnext]
      dsimp only
      unfold mqtt_cluster.Offset at *
      omega
    · intro o r hr
      rw [KeyState.pipeline_resolved_entries] at hr
      exact ⟨hr, by simp⟩
  · exact eases_refl _

theorem pending_pos {log : Pipeline} (h : log.Counts) {i : Nat} {a : Append}
    (hi : log.appends[i]? = some a) (ha : a.unresolved = true) : 0 < log.ks.pending := by
  rw [h.pending, List.countP_pos_iff]
  exact ⟨a, List.mem_of_getElem? hi, ha⟩

theorem eases_pipeline_resolve {log : Pipeline} (h : log.Counts) (i : Nat) :
    Eases log.ks (log.resolve i).ks := by
  unfold Pipeline.resolve
  split
  · exact eases_refl _
  · rename_i a hi
    split
    · rename_i hphase hkey
      rw [Pipeline.ks, hkey]
      exact eases_refl _
    · rename_i met ks hphase hkey
      have hks : log.ks = ks := by simp [Pipeline.ks, hkey]
      have ha : a.unresolved = true := by simp [Append.unresolved, hphase]
      have hpos := pending_pos h hi ha
      rw [hks] at hpos ⊢
      split
      · rw [hks]
        exact eases_refl ks
      · rename_i outcome ks' hres
        exact eases_resolve hres hpos
    · exact eases_refl _

/-- The steps of the log that a session sees beside its own submits. -/
def Quiet : mqtt_cluster.cluster_log.Step → Prop
  | .Submit .. | .Seed .. => False
  | _ => True

theorem eases_step (log : ClusterLog) {s : Pipeline} (h : s.Counts)
    (step : mqtt_cluster.cluster_log.Step) (hquiet : Quiet step) :
    Eases s.ks (Pipeline.step log s step).ks := by
  cases step with
  | Submit record tier => exact absurd hquiet (by simp [Quiet])
  | Seed entries floor seq_floor => exact absurd hquiet (by simp [Quiet])
  | Own i ok => exact eases_refl _
  | Follower i f ok => exact eases_refl _
  | Resolve i => exact eases_pipeline_resolve h i
  | Truncate up_to =>
    cases hkey : s.key with
    | none => simp [Pipeline.step, Pipeline.ks, hkey, eases_refl]
    | some ks =>
      simp only [Pipeline.step, Pipeline.ks, hkey, Option.map_some, Option.getD_some]
      exact eases_drop (Nat.min_le_right _ _)
  | TruncateDurable up_to =>
    rw [Pipeline.ks, Pipeline.ks, (Pipeline.truncate_durable_frame log s up_to).2]
    exact eases_refl _
  | TruncateAcked k own acked =>
    change Eases s.ks (Pipeline.truncate_acked log s k own acked).ks
    unfold Pipeline.truncate_acked
    split
    · exact eases_refl _
    · rename_i up_to hk
      have hle := h.waiting up_to (List.mem_of_getElem? hk)
      split
      · cases hkey : s.key with
        | none => simp [Pipeline.ks, hkey, eases_refl]
        | some ks =>
          have hks : s.ks = ks := by simp [Pipeline.ks, hkey]
          rw [hks] at hle
          simp only [Pipeline.ks, hkey, Option.map_some, Option.getD_some]
          exact eases_drop hle
      · exact eases_refl _

/-! ## The cap -/

/-- The room that the queue has, for the message of the call that is going on too. -/
def Fits (limits : QueueLimits) (q : Queue) : Prop :=
  match q.call with
  | some (_, .Evict up_to _) =>
    q.inFlight = 0 ∧ q.live ≤ limits.cap ∧ up_to ≤ q.log.ks.committed ∧
      q.log.ks.committed + 1 ≤ up_to + limits.cap
  | some (_, .Append _) => q.live + q.inFlight + 1 ≤ limits.cap
  | _ => q.live + q.inFlight ≤ limits.cap

/-- The cap holds, what was evicted is below everything that is kept, and the cap decided by what
the queue held. -/
structure Within (store : LoggedStore) (q : Queue) : Prop where
  sound : Pipeline.Sound store.log q.log
  low : q.log.ks.truncated ≤ q.log.ks.committed
  above : ∀ (o : Nat) r, q.log.ks.entries[o]? = some r → q.log.ks.truncated < o
  evicted : ∀ o ∈ q.evicted, o ≤ q.log.ks.truncated
  fits : Fits store.limits q
  decided : ∀ d ∈ q.decisions, d.rejected = true ↔
    store.limits.overflow = .RejectNewest ∧ store.limits.cap ≤ d.held

theorem cap_pos (limits : QueueLimits) : 0 < limits.cap := Nat.lt_of_lt_of_le Nat.zero_lt_one
  (Nat.le_max_right _ _)

theorem within_new (store : LoggedStore) : Within store {} := by
  refine ⟨Pipeline.sound_start store.log, Nat.le_refl _, ?_, by simp, ?_, by simp⟩
  · intro o r hr
    simp [Pipeline.ks] at hr
  · simp [Fits, Queue.live, Queue.inFlight, Pipeline.ks]

/-- The condition on a step: a call starts with nothing in flight, or with room for everything
that is in flight and its message. -/
def Roomy (limits : QueueLimits) (q : Queue) : Step → Prop
  | .Submit .. | .Enqueue .. =>
    q.call.isNone → q.inFlight = 0 ∨ q.live + q.inFlight < limits.cap
  | _ => True

instance (limits : QueueLimits) (q : Queue) (step : Step) : Decidable (Roomy limits q step) :=
  match step with
  | .Submit .. => inferInstanceAs (Decidable (_ → _ ∨ _))
  | .Enqueue .. => inferInstanceAs (Decidable (_ → _ ∨ _))
  | .Go | .Own .. | .Follower .. | .Resolve .. | .Ack .. | .AckDurable .. | .AckDurableAcked .. =>
    inferInstanceAs (Decidable True)

section steps

variable {store : LoggedStore} {q : Queue}

theorem live_range_cases (q : Queue) :
    (live_range q.log = none ∧ q.live = 0) ∨
      (live_range q.log = some (q.log.ks.truncated + 1, q.log.ks.committed) ∧
        q.log.ks.truncated < q.log.ks.committed) := by
  unfold live_range Queue.live Pipeline.ks
  cases hkey : q.log.key with
  | none => exact .inl ⟨rfl, by simp⟩
  | some ks =>
    dsimp only
    by_cases hlt : ks.committed > ks.truncated
    · rw [if_pos hlt]
      exact .inr ⟨rfl, hlt⟩
    · rw [if_neg hlt]
      refine .inl ⟨rfl, ?_⟩
      simp only [Option.getD_some]
      exact Nat.sub_eq_zero_of_le (Nat.le_of_not_lt hlt)

/-- The offset up to which the oldest messages go leaves room for one. -/
theorem evict_fits {live cap truncated committed : Nat} (hlive : live = committed - truncated)
    (hlt : truncated < committed) (hfull : cap ≤ live) (hpos : 0 < cap) :
    truncated + 1 + (live - cap + 1) - 1 ≤ committed ∧
      committed + 1 ≤ truncated + 1 + (live - cap + 1) - 1 + cap := by
  omega

theorem within_apply_cap (h : Within store q) (call : Enqueue) (hcall : q.call = none)
    (hroom : q.inFlight = 0 ∨ q.live + q.inFlight < store.limits.cap) :
    Within store (q.apply_cap store call) := by
  have hpos := cap_pos store.limits
  have hfits : q.live + q.inFlight ≤ store.limits.cap := by
    have hfits := h.fits
    simpa [Fits, hcall] using hfits
  -- the decision to append, with room or with an eviction before it
  have hstart : ∀ stage, Fits store.limits { q with call := some (call, stage) } →
      ¬ (store.limits.overflow = .RejectNewest ∧ store.limits.cap ≤ q.live + q.inFlight) →
      Within store { q with
        call := some (call, stage)
        decisions := q.decisions ++ [⟨false, q.live + q.inFlight⟩] } := by
    intro stage hf hno
    refine ⟨h.sound, h.low, h.above, h.evicted, hf, ?_⟩
    intro d hd
    rcases List.mem_append.mp hd with hd | hd
    · exact h.decided d hd
    · rw [List.mem_singleton] at hd
      subst hd
      simpa using hno
  unfold Queue.apply_cap
  dsimp only
  rcases live_range_cases q with ⟨hrange, hlive⟩ | ⟨hrange, hlt⟩
  · rw [hrange]
    refine hstart (.Append 0) ?_ ?_
    · change q.live + q.inFlight + 1 ≤ store.limits.cap
      omega
    · rintro ⟨-, hfull⟩
      omega
  · rw [hrange]
    dsimp only
    have hcount : q.log.ks.committed - (q.log.ks.truncated + 1) + 1 = q.live := by
      unfold Queue.live
      unfold mqtt_cluster.Offset at *
      omega
    rw [hcount]
    split
    · rename_i hfull
      have hnone : q.inFlight = 0 := by omega
      split
      · rename_i hreject
        refine ⟨h.sound, h.low, h.above, h.evicted, ?_, ?_⟩
        · simp only [Fits, hcall]
          exact hfits
        · intro d hd
          rcases List.mem_append.mp hd with hd | hd
          · exact h.decided d hd
          · rw [List.mem_singleton] at hd
            subst hd
            simp only [true_iff]
            exact ⟨hreject, by omega⟩
      · rename_i hdrop
        refine hstart _ ?_ (fun hno => by rw [hdrop] at hno; exact absurd hno.1 (by decide))
        exact ⟨hnone, Nat.le_trans (Nat.le_add_right _ _) hfits, evict_fits rfl hlt hfull hpos⟩
    · rename_i hless
      refine hstart (.Append 0) ?_ ?_
      · change q.live + q.inFlight + 1 ≤ store.limits.cap
        omega
      · rintro ⟨-, hfull⟩
        omega

theorem within_below (h : Within store q) (step : mqtt_cluster.cluster_log.Step)
    (hquiet : Quiet step) : Within store (q.below store step) := by
  have hsound : Pipeline.Sound store.log (q.below store step).log :=
    Pipeline.sound_step store.log h.sound step
  have heases := eases_step store.log h.sound.toCounts step hquiet
  have hbefore : q.inFlight = q.log.ks.pending := h.sound.pending.symm
  have hafter : (q.below store step).inFlight = (q.below store step).log.ks.pending :=
    hsound.pending.symm
  have hlow := h.low
  have hlow' : (q.below store step).log.ks.truncated ≤ (q.below store step).log.ks.committed :=
    heases.low hlow
  refine ⟨hsound, hlow', ?_, ?_, ?_, h.decided⟩
  · intro o r hr
    obtain ⟨hold, habove⟩ := heases.entries o r hr
    exact habove (h.above o r hold)
  · intro o ho
    exact Nat.le_trans (h.evicted o ho) heases.truncated
  · have hfits := h.fits
    have hcall : (q.below store step).call = q.call := rfl
    have htruncated : q.log.ks.truncated ≤ (q.below store step).log.ks.truncated := heases.truncated
    have hcommitted : q.log.ks.committed ≤ (q.below store step).log.ks.committed := heases.committed
    have hsum : (q.below store step).log.ks.committed + (q.below store step).log.ks.pending ≤
        q.log.ks.committed + q.log.ks.pending := heases.sum
    unfold Fits at hfits ⊢
    rw [hcall]
    unfold Queue.live at hfits ⊢
    rw [hbefore] at hfits
    rw [hafter]
    unfold mqtt_cluster.Offset at *
    split
    · rename_i hq
      rw [hq] at hfits
      dsimp only at hfits
      omega
    · rename_i hq
      rw [hq] at hfits
      dsimp only at hfits
      omega
    · rename_i hq₁ hq₂
      split at hfits
      · rename_i call up_to evicted hq
        exact absurd hq (hq₁ call up_to evicted)
      · rename_i call evicted hq
        exact absurd hq (hq₂ call evicted)
      · omega

theorem within_evict (h : Within store q) {call : Enqueue} {up_to evicted : Nat}
    (hcall : q.call = some (call, .Evict up_to evicted)) : Within store (q.go store) := by
  have hgo : q.go store = { q with
      log := Pipeline.step store.log q.log (.Truncate up_to)
      call := some (call, .Append evicted)
      evicted := q.evicted ++
        q.log.ks.entries.keys.filter (fun o => o ≤ min up_to q.log.ks.committed) } := by
    unfold Queue.go
    rw [hcall]
  have hfits := h.fits
  rw [Fits, hcall] at hfits
  obtain ⟨hnone, hlive, hup, hroom⟩ := hfits
  -- the truncate is a step of the log below, and goes as far as it was asked to
  have hidle : Within store { q with call := none } := by
    refine ⟨h.sound, h.low, h.above, h.evicted, ?_, h.decided⟩
    change q.live + q.inFlight ≤ store.limits.cap
    omega
  have hbelow := within_below hidle (.Truncate up_to) trivial
  have htruncated : up_to ≤ (Pipeline.step store.log q.log (.Truncate up_to)).ks.truncated := by
    cases hkey : q.log.key with
    | none =>
      have hz : q.log.ks.committed = 0 := by simp [Pipeline.ks, hkey]
      rw [hz] at hup
      exact Nat.le_trans hup (Nat.zero_le _)
    | some ks =>
      have hks : q.log.ks = ks := by simp [Pipeline.ks, hkey]
      rw [hks] at hup
      simp only [Pipeline.step, Pipeline.ks, hkey, Option.map_some, Option.getD_some,
        KeyState.truncate, KeyState.drop_to, Nat.min_eq_left hup]
      exact Nat.le_max_right _ _
  have hsum := (eases_step store.log h.sound.toCounts (.Truncate up_to) trivial).sum
  have hlow : (Pipeline.step store.log q.log (.Truncate up_to)).ks.truncated ≤
      (Pipeline.step store.log q.log (.Truncate up_to)).ks.committed := hbelow.low
  have hpending : q.log.ks.pending = 0 := h.sound.pending.trans hnone
  have hafter : (Pipeline.step store.log q.log (.Truncate up_to)).ks.pending =
      (Pipeline.step store.log q.log (.Truncate up_to)).appends.countP Append.unresolved :=
    hbelow.sound.pending
  rw [hgo]
  refine ⟨hbelow.sound, hbelow.low, hbelow.above, ?_, ?_, h.decided⟩
  · intro o ho
    rcases List.mem_append.mp ho with ho | ho
    · exact hbelow.evicted o ho
    · rw [List.mem_filter, decide_eq_true_eq] at ho
      exact Nat.le_trans (Nat.le_trans ho.2 (Nat.min_le_left _ _)) htruncated
  · simp only [Fits, Queue.live, Queue.inFlight, ← hafter]
    unfold mqtt_cluster.Offset at *
    omega

/-- The message is submitted. -/
theorem within_append (h : Within store q) {call : Enqueue} {evicted : Nat}
    (hcall : q.call = some (call, .Append evicted)) : Within store (q.go store) := by
  have hfits := h.fits
  rw [Fits, hcall] at hfits
  dsimp only at hfits
  unfold Queue.go
  rw [hcall]
  dsimp only
  have hsound : Pipeline.Sound store.log (q.log.submit_tiered
      (encode_queued call.message call.expiry_at call.origin) (store.tier call.message)) :=
    Pipeline.sound_step store.log h.sound (.Submit _ _)
  have hlive : ∀ record tier, (q.log.submit_tiered record tier).ks.committed = q.log.ks.committed ∧
      (q.log.submit_tiered record tier).ks.truncated = q.log.ks.truncated ∧
      (q.log.submit_tiered record tier).appends.countP Append.unresolved = q.inFlight + 1 := by
    intro record tier
    refine ⟨rfl, rfl, ?_⟩
    simp [Pipeline.submit_tiered, Queue.inFlight, Append.unresolved]
  have habove : ∀ record tier (o : Nat) r,
      (q.log.submit_tiered record tier).ks.entries[o]? = some r → q.log.ks.truncated < o := by
    intro record tier o r hr
    have hent : (q.log.submit_tiered record tier).ks.entries[o]? =
        if (q.log.ks.stage record).1 = o then some record else q.log.ks.entries[o]? :=
      BTreeMap.get_insert _ _ _ _
    rw [hent] at hr
    split at hr
    · rename_i ho
      rw [← ho]
      exact Nat.lt_of_le_of_lt h.low (Pipeline.stage_offset q.log.ks record).2
    · exact h.above o r hr
  obtain ⟨hcommitted, htruncated, hflight⟩ := hlive
    (encode_queued call.message call.expiry_at call.origin) (store.tier call.message)
  have hnew := habove (encode_queued call.message call.expiry_at call.origin)
    (store.tier call.message)
  generalize q.log.submit_tiered (encode_queued call.message call.expiry_at call.origin)
    (store.tier call.message) = log at hsound hcommitted htruncated hflight hnew ⊢
  have hroom : log.ks.committed - log.ks.truncated + log.appends.countP Append.unresolved ≤
      store.limits.cap := by
    rw [hcommitted, htruncated, hflight]
    exact hfits
  have hlow : log.ks.truncated ≤ log.ks.committed := by
    rw [hcommitted, htruncated]
    exact h.low
  split
  · refine ⟨hsound, hlow, ?_, ?_, hroom, h.decided⟩
    · intro o r hr
      rw [htruncated]
      exact hnew o r hr
    · rw [htruncated]
      exact h.evicted
  · refine ⟨hsound, hlow, ?_, ?_, hroom, h.decided⟩
    · intro o r hr
      rw [htruncated]
      exact hnew o r hr
    · rw [htruncated]
      exact h.evicted

theorem within_await (h : Within store q) {call : Enqueue} {i evicted : Nat}
    (hcall : q.call = some (call, .Await i evicted)) : Within store (q.go store) := by
  have hfits := h.fits
  rw [Fits, hcall] at hfits
  unfold Queue.go
  rw [hcall]
  dsimp only
  split
  · exact ⟨h.sound, h.low, h.above, h.evicted, hfits, h.decided⟩
  · exact ⟨h.sound, h.low, h.above, h.evicted, hfits, h.decided⟩
  · exact h

theorem within_step (h : Within store q) {step : Step} (hroomy : Roomy store.limits q step) :
    Within store (q.step store step) := by
  have hstart : ∀ call, (q.call.isNone → q.inFlight = 0 ∨ q.live + q.inFlight < store.limits.cap) →
      Within store (if q.call.isSome then q else q.apply_cap store call) := by
    intro call hroom
    cases hcall : q.call with
    | some c => simpa using h
    | none => simpa using within_apply_cap h call hcall (hroom (by simp [hcall]))
  cases step with
  | Submit message expiry_at origin => exact hstart { message, expiry_at, origin } hroomy
  | Enqueue message expiry_at origin =>
    exact hstart { message, expiry_at, origin, awaits := true } hroomy
  | Go =>
    change Within store (q.go store)
    rcases hcall : q.call with _ | ⟨call, ⟨up_to, evicted⟩ | ⟨evicted⟩ | ⟨i, evicted⟩⟩
    · simpa [Queue.go, hcall] using h
    · exact within_evict h hcall
    · exact within_append h hcall
    · exact within_await h hcall
  | Own i ok => exact within_below h _ trivial
  | Follower i f ok => exact within_below h _ trivial
  | Resolve i => exact within_below h _ trivial
  | Ack up_to => exact within_below h _ trivial
  | AckDurable up_to => exact within_below h _ trivial
  | AckDurableAcked k own acked => exact within_below h _ trivial

end steps

/-! ## Runs -/

def RoomyRun (store : LoggedStore) : Queue → List Step → Prop
  | _, [] => True
  | q, step :: rest => Roomy store.limits q step ∧ RoomyRun store (q.step store step) rest

instance decidableRoomyRun (store : LoggedStore) :
    (q : Queue) → (steps : List Step) → Decidable (RoomyRun store q steps)
  | _, [] => inferInstanceAs (Decidable True)
  | q, step :: rest =>
    have := decidableRoomyRun store (q.step store step) rest
    inferInstanceAs
      (Decidable (Roomy store.limits q step ∧ RoomyRun store (q.step store step) rest))

theorem within_run {store : LoggedStore} {q : Queue} (h : Within store q) (steps : List Step)
    (hroomy : RoomyRun store q steps) : Within store (q.run store steps) := by
  induction steps generalizing q with
  | nil => exact h
  | cons step rest ih => exact ih (within_step h hroomy.1) hroomy.2

/-- The cap of a queue: no more messages than it allows, those evicted older than those kept, and
a message rejected exactly when as many are held or submitted. -/
structure CapHolds (store : LoggedStore) (q : Queue) : Prop where
  bounded : q.live ≤ max 1 store.limits.max_messages
  oldest : ∀ o ∈ q.evicted, ∀ (kept : Nat) r, q.log.ks.entries[kept]? = some r → o < kept
  rejected : store.limits.overflow = .RejectNewest → ∀ d ∈ q.decisions,
    d.rejected = true ↔ max 1 store.limits.max_messages ≤ d.held

/-- In every run in which each message is submitted with nothing in flight, or with room for all
that is, the cap holds. -/
theorem the_queue_cap_holds (store : LoggedStore) (steps : List Step)
    (hroomy : RoomyRun store {} steps) : CapHolds store (({} : Queue).run store steps) := by
  have h := within_run (within_new store) steps hroomy
  have hcap : max 1 store.limits.max_messages = store.limits.cap := Nat.max_comm _ _
  refine ⟨?_, ?_, ?_⟩
  · rw [hcap]
    have hfits := h.fits
    unfold Fits at hfits
    split at hfits
    · exact hfits.2.1
    · omega
    · omega
  · intro o ho kept r hr
    exact Nat.lt_of_le_of_lt (h.evicted o ho) (h.above kept r hr)
  · intro hreject d hd
    rw [h.decided d hd, hcap]
    simp [hreject]

/-- A store on three nodes, with queues of one message. -/
def storeOfOne : LoggedStore :=
  { limits := { max_messages := 1 }, log := mqtt_cluster.cluster_log.Pipeline.ownerOfThree }

def plainMessage : Message := { topic := "t", payload := [1], qos := .AtLeastOnce, retain := false }

def commits (i : Nat) : List Step := [.Own i true, .Follower i 0 true, .Resolve i]

/-- The second message comes after the first was committed, and evicts it. -/
theorem a_message_evicts_the_one_before :
    RoomyRun storeOfOne {} ([.Submit plainMessage none none, .Go] ++ commits 0 ++
      [.Enqueue plainMessage none none, .Go, .Go] ++ commits 1 ++ [.Go]) ∧
    CapHolds storeOfOne (({} : Queue).run storeOfOne ([.Submit plainMessage none none, .Go] ++
      commits 0 ++ [.Enqueue plainMessage none none, .Go, .Go] ++ commits 1 ++ [.Go])) := by
  have hroomy : RoomyRun storeOfOne {} ([.Submit plainMessage none none, .Go] ++ commits 0 ++
      [.Enqueue plainMessage none none, .Go, .Go] ++ commits 1 ++ [.Go]) := by decide +kernel
  exact ⟨hroomy, the_queue_cap_holds storeOfOne _ hroomy⟩

/-- Two messages are submitted before the first one commits: the cap sees an empty queue both
times, and the queue of one message holds two. -/
theorem two_submits_in_flight_pass_the_cap :
    ¬ ∀ (store : LoggedStore) (steps : List Step),
      CapHolds store (({} : Queue).run store steps) := by
  intro h
  have hbounded := (h storeOfOne ([.Submit plainMessage none none, .Go,
    .Submit plainMessage none none, .Go] ++ commits 0 ++ commits 1)).bounded
  exact absurd hbounded (by decide +kernel)

end mqtt_storage.logged
