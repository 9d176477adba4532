-- The records of a log shard (`replica_log.rs`): their bytes, and the replay
-- that rebuilds a replica from them. A plan driven into the log and replayed
-- gives the same state as the plan driven into the redb tables and loaded.
import MqttBroker.Cluster.ShardPlan

namespace mqtt_cluster.cluster_log.replica_log

open ByteCodec

/-! ## The bytes of a record -/

def K_FORMAT : UInt8 := 1
def K_APPEND : UInt8 := 2
def K_TRUNCATE : UInt8 := 3
def K_REMOVE : UInt8 := 4
def K_FENCE : UInt8 := 5
def K_CAUGHT : UInt8 := 6
def K_LOW_WATER : UInt8 := 7

/-- One change, as the log records it. -/
inductive Rec
  | Format (version shards : Nat)
  | Append (key : String) (offset : Offset) (epoch : Epoch) (seq : Nat) (record : Bytes)
  | Truncate (key : String) (up_to low_water : Offset)
  | Remove (key : String)
  | Fence (group : GroupId) (epoch : Epoch)
  | Caught (group : GroupId) (members : List String)
  | LowWater (key : String) (low_water : Offset)
  deriving DecidableEq, Repr

/-- A string with its length as a `u32`. The source panics on a longer string; no payload
of that length is ever appended (`MAX_PAYLOAD`). -/
def put_str (s : Bytes) : Bytes := putPrefixed 4 s

/-- The kind and the payload of a record. -/
def encode : Rec → UInt8 × Bytes
  | .Format version shards => (K_FORMAT, toBe 4 version ++ toBe 4 shards)
  | .Append key offset epoch seq record =>
    (K_APPEND, toBe 8 offset ++ (toBe 8 epoch ++ (toBe 8 seq ++ (put_str (as_bytes key) ++ record))))
  | .Truncate key up_to low_water => (K_TRUNCATE, toBe 8 up_to ++ (toBe 8 low_water ++ as_bytes key))
  | .Remove key => (K_REMOVE, as_bytes key)
  | .Fence group epoch => (K_FENCE, toBe 8 group ++ toBe 8 epoch)
  | .Caught group members =>
    (K_CAUGHT, toBe 8 group ++ members.flatMap (fun m => put_str (as_bytes m)))
  | .LowWater key low_water => (K_LOW_WATER, toBe 8 low_water ++ as_bytes key)

/-- The fields of a record of a kind, in the order of the payload. Bytes that are left over
are not an error. The loop over the members has a fuel of `left`, the bytes of the payload. -/
def read_rec (kind : UInt8) (left : Nat) : Reader Rec :=
  if kind = K_FORMAT then do
    let version ← Reader.number 4
    let shards ← Reader.number 4
    return .Format version shards
  else if kind = K_APPEND then do
    let offset ← Reader.number 8
    let epoch ← Reader.number 8
    let seq ← Reader.number 8
    let key ← Reader.utf8 (← Reader.prefixed 4)
    let record ← Reader.rest
    return .Append key offset epoch seq record
  else if kind = K_TRUNCATE then do
    let up_to ← Reader.number 8
    let low_water ← Reader.number 8
    let key ← Reader.utf8 (← Reader.rest)
    return .Truncate key up_to low_water
  else if kind = K_REMOVE then do
    let key ← Reader.utf8 (← Reader.rest)
    return .Remove key
  else if kind = K_FENCE then do
    let group ← Reader.number 8
    let epoch ← Reader.number 8
    return .Fence group epoch
  else if kind = K_CAUGHT then do
    let group ← Reader.number 8
    let members ← Reader.strings 4 left
    return .Caught group members
  else if kind = K_LOW_WATER then do
    let low_water ← Reader.number 8
    let key ← Reader.utf8 (← Reader.rest)
    return .LowWater key low_water
  else throw (.UnknownKind kind)

def decode (kind : UInt8) (payload : Bytes) : Except ReadError Rec :=
  (read_rec kind payload.length).run' payload

/-- The numbers of the record are within their `u32` and `u64` types, and so are the lengths
that `put_str` writes. -/
def Rec.Fits : Rec → Prop
  | .Format version shards => version < 2 ^ 32 ∧ shards < 2 ^ 32
  | .Append key offset epoch seq _ =>
    offset < 2 ^ 64 ∧ epoch < 2 ^ 64 ∧ seq < 2 ^ 64 ∧ (as_bytes key).length < 2 ^ 32
  | .Truncate _ up_to low_water => up_to < 2 ^ 64 ∧ low_water < 2 ^ 64
  | .Remove _ => True
  | .Fence group epoch => group < 2 ^ 64 ∧ epoch < 2 ^ 64
  | .Caught group members => group < 2 ^ 64 ∧ ∀ m ∈ members, (as_bytes m).length < 2 ^ 32
  | .LowWater _ low_water => low_water < 2 ^ 64

theorem reads_u32 {n : Nat} (h : n < 2 ^ 32) (rest : Bytes) :
    Reads (Reader.number 4) (toBe 4 n ++ rest) n rest :=
  reads_number 4 n rest (lt_of_lt_of_eq h (by norm_num))

theorem reads_u64 {n : Nat} (h : n < 2 ^ 64) (rest : Bytes) :
    Reads (Reader.number 8) (toBe 8 n ++ rest) n rest :=
  reads_number 8 n rest (lt_of_lt_of_eq h (by norm_num))

theorem decode_encode (r : Rec) (h : r.Fits) : decode (encode r).1 (encode r).2 = .ok r := by
  have hread : Reads (read_rec (encode r).1 (encode r).2.length) (encode r).2 r [] := by
    cases r with
    | Format version shards =>
      have h2 := reads_u32 h.2 []
      rw [List.append_nil] at h2
      exact (reads_u32 h.1 _).bind (h2.bind (.pure _ _))
    | Append key offset epoch seq record =>
      obtain ⟨ho, he, hs, hk⟩ := h
      have hkey := reads_prefixed 4 (as_bytes key) record (lt_of_lt_of_eq hk (by norm_num))
      exact (reads_u64 ho _).bind ((reads_u64 he _).bind ((reads_u64 hs _).bind
        (hkey.bind ((reads_utf8 key _).bind ((reads_rest record).bind (.pure _ _))))))
    | Truncate key up_to low_water =>
      exact (reads_u64 h.1 _).bind ((reads_u64 h.2 _).bind
        ((reads_rest _).bind ((reads_utf8 key []).bind (.pure _ _))))
    | Remove key => exact (reads_rest _).bind ((reads_utf8 key []).bind (.pure _ _))
    | Fence group epoch =>
      have h2 := reads_u64 h.2 []
      rw [List.append_nil] at h2
      exact (reads_u64 h.1 _).bind (h2.bind (.pure _ _))
    | Caught group members =>
      have hm := reads_strings 4 (by decide) members (encode (.Caught group members)).2.length
        (fun m hm => lt_of_lt_of_eq (h.2 m hm) (by norm_num))
        (by simp [encode, put_str])
      exact (reads_u64 h.1 _).bind (hm.bind (.pure _ _))
    | LowWater key low_water =>
      exact (reads_u64 h _).bind ((reads_rest _).bind ((reads_utf8 key []).bind (.pure _ _)))
  unfold decode StateT.run'
  rw [show read_rec (encode r).1 (encode r).2.length (encode r).2 = .ok (r, []) from hread]
  rfl

/-! ## The replay -/

abbrev Lsn := Nat

def HEADER_BYTES : Nat := 17

/-- Where the current append of each live entry is: its LSN and the bytes of its record. -/
abbrev Locations := KeyMap (Lsn × Nat)

structure Replay extends Loaded where
  format : Option (Nat × Nat) := none
  loc : Locations := ∅

/-- What a record changes of the loaded state: the meaning of its redb row. -/
def change (l : Loaded) : Rec → Loaded
  | .Format _ _ => l
  | .Append key offset epoch seq record =>
    { l with logs := put l.logs key offset (tag epoch seq, record) }
  | .Truncate key up_to low_water =>
    { l with logs := cut l.logs key up_to, truncated := l.truncated.insert key low_water }
  | .Remove key => { l with logs := l.logs.erase key, truncated := l.truncated.erase key }
  | .Fence group epoch => { l with fences := l.fences.insert group epoch }
  | .Caught group members =>
    { l with caught_up := l.caught_up.insert group (.ofList members compare) }
  | .LowWater key low_water => { l with truncated := l.truncated.insert key low_water }

/-- Where a record leaves the live entries. -/
def locate (loc : Locations) (lsn : Lsn) (bytes : Nat) : Rec → Locations
  | .Append key offset _ _ _ => put loc key offset (lsn, bytes)
  | .Truncate key up_to _ => cut loc key up_to
  | .Remove key => loc.erase key
  | _ => loc

namespace Replay

def apply (r : Replay) (lsn : Lsn) (bytes : Nat) (rec : Rec) : Replay where
  toLoaded := change r.toLoaded rec
  format := match rec with
    | .Format version shards => some (version, shards)
    | _ => r.format
  loc := locate r.loc lsn bytes rec

end Replay

def replay_one (s : Replay × Lsn) (rec : UInt8 × Bytes) : Except ReadError (Replay × Lsn) := do
  let r ← decode rec.1 rec.2
  return (s.1.apply s.2 (HEADER_BYTES + rec.2.length) r, s.2 + 1)

def replay (first : Lsn) (log : List (UInt8 × Bytes)) : Except ReadError Replay := do
  let s ← log.foldlM replay_one ({}, first)
  return s.1

/-! ## The log sink -/

structure LogSink where
  recs : List (UInt8 × Bytes) := []

instance : PlanSink LogSink where
  fence g e s := { s with recs := s.recs ++ [encode (.Fence g e)] }
  append k o e q r s := { s with recs := s.recs ++ [encode (.Append k o e q r)] }
  truncate k u l s := { s with recs := s.recs ++ [encode (.Truncate k u l)] }
  remove k s := { s with recs := s.recs ++ [encode (.Remove k)] }

inductive LogError
  | ReservedKind
  | TooLarge (len : Nat)
  deriving DecidableEq, Repr

def MAX_PAYLOAD : Nat := 64 <<< 20

/-- The check of a batch before any of it is written: the first record that has the reserved
kind or too long a payload is the error. -/
def check_batch : List (UInt8 × Bytes) → Except LogError Unit
  | [] => .ok ()
  | (kind, payload) :: rest =>
    if kind = 0 then .error .ReservedKind
    else if payload.length > MAX_PAYLOAD then .error (.TooLarge payload.length)
    else check_batch rest

/-- A batch appended to the records of a log, with no failure of the disk. -/
def log_append (log recs : List (UInt8 × Bytes)) : Except LogError (List (UInt8 × Bytes)) := do
  check_batch recs
  return log ++ recs

/-! ## The records of a plan -/

/-- The records of a sink before they are encoded. -/
instance : PlanSink (List Rec) where
  fence g e s := s ++ [.Fence g e]
  append k o e q r s := s ++ [.Append k o e q r]
  truncate k u l s := s ++ [.Truncate k u l]
  remove k s := s ++ [.Remove k]

def plan_recs (plan : ShardPlan) : List Rec := drive_plan plan []

theorem logSink_recs (plan : ShardPlan) :
    (drive_plan plan ({} : LogSink)).recs = (plan_recs plan).map encode := by
  have hrel : SinkRel (fun (s : LogSink) (recs : List Rec) => s.recs = recs.map encode) :=
    { fence := fun s t g e h => by simp [PlanSink.fence, h]
      append := fun s t k o e q r h => by simp [PlanSink.append, h]
      truncate := fun s t k u l h => by simp [PlanSink.truncate, h]
      remove := fun s t k h => by simp [PlanSink.remove, h] }
  exact drive_plan_rel hrel plan rfl

theorem foldl_change_plan_recs (plan : ShardPlan) (l : Loaded) :
    (plan_recs plan).foldl change l = drive_plan plan l := by
  have hrel : SinkRel (fun (recs : List Rec) (l' : Loaded) => recs.foldl change l = l') :=
    { fence := fun s t g e h => by simp only [PlanSink.fence, List.foldl_append, h]; rfl
      append := fun s t k o e q r h => by simp only [PlanSink.append, List.foldl_append, h]; rfl
      truncate := fun s t k u w h => by simp only [PlanSink.truncate, List.foldl_append, h]; rfl
      remove := fun s t k h => by simp only [PlanSink.remove, List.foldl_append, h]; rfl }
  exact drive_plan_rel hrel plan rfl

/-- The numbers of a plan are within their `u64` types. -/
structure PlanFits (plan : ShardPlan) : Prop where
  advanced : ∀ (g : GroupId) e, plan.advanced[g]? = some e → g < 2 ^ 64 ∧ e < 2 ^ 64
  appends : ∀ e k o q r, (e, ReplOp.Append k o q r) ∈ plan.ops →
    o < 2 ^ 64 ∧ e < 2 ^ 64 ∧ q < 2 ^ 64
  truncates : ∀ e k u, (e, ReplOp.Truncate k u) ∈ plan.ops → u < 2 ^ 64
  watermarks : ∀ (k : String) o, plan.watermarks[k]? = some o → o < 2 ^ 64

theorem payload_le_of_check {recs : List (UInt8 × Bytes)} (h : check_batch recs = .ok ()) :
    ∀ rec ∈ recs, rec.2.length ≤ MAX_PAYLOAD := by
  induction recs with
  | nil => simp
  | cons rec recs ih =>
    obtain ⟨kind, payload⟩ := rec
    unfold check_batch at h
    split at h
    · cases h
    · split at h
      · cases h
      · rename_i hlen
        intro rec hrec
        rcases List.mem_cons.mp hrec with rfl | hrec
        · exact Nat.le_of_not_gt hlen
        · exact ih h rec hrec

/-- The numbers of the record are within their `u32` and `u64` types. -/
def Rec.InTypes : Rec → Prop
  | .Format version shards => version < 2 ^ 32 ∧ shards < 2 ^ 32
  | .Append _ offset epoch seq _ => offset < 2 ^ 64 ∧ epoch < 2 ^ 64 ∧ seq < 2 ^ 64
  | .Truncate _ up_to low_water => up_to < 2 ^ 64 ∧ low_water < 2 ^ 64
  | .Remove _ => True
  | .Fence group epoch => group < 2 ^ 64 ∧ epoch < 2 ^ 64
  | .Caught group _ => group < 2 ^ 64
  | .LowWater _ low_water => low_water < 2 ^ 64

theorem Rec.InTypes.fits {r : Rec} (h : r.InTypes) (hlen : (encode r).2.length ≤ MAX_PAYLOAD) :
    r.Fits := by
  have hmax : MAX_PAYLOAD < 2 ^ 32 := by decide
  cases r with
  | Append key offset epoch seq record =>
    refine ⟨h.1, h.2.1, h.2.2, ?_⟩
    simp only [encode, put_str, putPrefixed, List.length_append] at hlen
    omega
  | Caught group members =>
    refine ⟨h, ?_⟩
    intro m hm
    have hpart : (put_str (as_bytes m)).length ≤
        (members.flatMap (fun m => put_str (as_bytes m))).length := by
      rw [List.flatMap_def]
      apply List.Sublist.length_le
      apply List.sublist_flatten_of_mem
      exact List.mem_map_of_mem (f := fun m => put_str (as_bytes m)) hm
    simp only [encode, put_str, putPrefixed, List.length_append] at hlen hpart
    omega
  | _ => exact h

theorem plan_recs_fit {plan : ShardPlan} (hp : PlanFits plan)
    (hc : check_batch ((plan_recs plan).map encode) = .ok ()) : ∀ r ∈ plan_recs plan, r.Fits := by
  have hlen : ∀ r ∈ plan_recs plan, (encode r).2.length ≤ MAX_PAYLOAD := fun r hr =>
    payload_le_of_check hc _ (List.mem_map_of_mem hr)
  have hnum : ∀ r ∈ plan_recs plan, r.InTypes := by
    have hb : BoundsPlan (fun o => o < 2 ^ 64) plan :=
      { zero := by norm_num
        max := fun a b ha hb => max_lt ha hb
        watermarks := hp.watermarks
        ops := hp.truncates }
    have hsnoc : ∀ (recs : List Rec) (new : Rec), new.InTypes → (∀ r ∈ recs, r.InTypes) →
        ∀ r ∈ recs ++ [new], r.InTypes := by
      intro recs new hnew hold r hr
      rcases List.mem_append.mp hr with hr | hr
      · exact hold r hr
      · rw [List.mem_singleton] at hr
        subst hr
        exact hnew
    have hk : SinkKeeps (fun recs : List Rec => ∀ r ∈ recs, r.InTypes) (fun o => o < 2 ^ 64)
        plan := by
      refine ⟨⟨?_, ?_, ?_⟩, ?_⟩
      · exact fun s k o e q r hin hs => hsnoc s _ (hp.appends e k o q r hin) hs
      · exact fun s k u l _ hu hl hs => hsnoc s _ ⟨hu, hl⟩ hs
      · exact fun s k _ hs => hsnoc s _ trivial hs
      · exact fun s g e hge hs => hsnoc s _ (hp.advanced g e hge) hs
    exact drive_plan_keeps hk hb (by simp)
  exact fun r hr => (hnum r hr).fits (hlen r hr)

theorem replay_encoded (recs : List Rec) (h : ∀ r ∈ recs, r.Fits) (s : Replay × Lsn) :
    ∃ s', (recs.map encode).foldlM replay_one s = .ok s' ∧
      s'.1.toLoaded = recs.foldl change s.1.toLoaded := by
  induction recs generalizing s with
  | nil => exact ⟨s, rfl, rfl⟩
  | cons r recs ih =>
    have hone : replay_one s (encode r) =
        .ok (s.1.apply s.2 (HEADER_BYTES + (encode r).2.length) r, s.2 + 1) := by
      unfold replay_one
      rw [decode_encode r (h r List.mem_cons_self)]
      rfl
    obtain ⟨s', hs', hl⟩ := ih (fun t ht => h t (List.mem_cons_of_mem r ht))
      (s.1.apply s.2 (HEADER_BYTES + (encode r).2.length) r, s.2 + 1)
    refine ⟨s', ?_, hl⟩
    rw [List.map_cons, List.foldlM_cons, hone]
    exact hs'

/-! ## The two backends -/

/-- The plans driven through the redb sink, one transaction each. -/
def drive_redb (plans : List ShardPlan) : Tables := plans.foldl (fun t plan => drive_plan plan t) {}

/-- The plans driven through the log sink, one batch each. -/
def drive_log (plans : List ShardPlan) : Except LogError (List (UInt8 × Bytes)) :=
  plans.foldlM (fun log plan => log_append log (drive_plan plan ({} : LogSink)).recs) []

theorem drive_log_recs (plans : List ShardPlan) (hp : ∀ plan ∈ plans, PlanFits plan)
    {log log' : List (UInt8 × Bytes)}
    (h : plans.foldlM (fun log plan => log_append log (drive_plan plan ({} : LogSink)).recs) log =
      .ok log') :
    log' = log ++ (plans.flatMap plan_recs).map encode ∧
      ∀ r ∈ plans.flatMap plan_recs, r.Fits := by
  induction plans generalizing log with
  | nil =>
    cases h
    simp
  | cons plan plans ih =>
    rw [List.foldlM_cons, logSink_recs] at h
    unfold log_append at h
    rcases hc : check_batch ((plan_recs plan).map encode) with e | u
    · rw [hc] at h
      cases h
    · rw [hc] at h
      obtain ⟨hlog, hfit⟩ := ih (fun p hq => hp p (List.mem_cons_of_mem plan hq)) h
      refine ⟨by rw [hlog]; simp, ?_⟩
      intro r hr
      rw [List.flatMap_cons] at hr
      rcases List.mem_append.mp hr with hr | hr
      · exact plan_recs_fit (hp plan List.mem_cons_self) hc r hr
      · exact hfit r hr

theorem load_drive_redb (plans : List ShardPlan) (t : Tables) :
    load (plans.foldl (fun t plan => drive_plan plan t) t) =
      (plans.flatMap plan_recs).foldl change (load t) := by
  induction plans generalizing t with
  | nil => rfl
  | cons plan plans ih =>
    rw [List.foldl_cons, ih, List.flatMap_cons, List.foldl_append, foldl_change_plan_recs,
      load_drive_plan]

/-- The two backends mean the same: whatever plans a log took, it replays, and to the state
that a load of the redb tables gives after the same plans. -/
theorem log_replays_to_what_redb_loads (plans : List ShardPlan)
    (hp : ∀ plan ∈ plans, PlanFits plan) (log : List (UInt8 × Bytes))
    (hlog : drive_log plans = .ok log) (first : Lsn) :
    ∃ r, replay first log = .ok r ∧ r.toLoaded = load (drive_redb plans) := by
  obtain ⟨hrecs, hfit⟩ := drive_log_recs plans hp hlog
  obtain ⟨s, hs, hl⟩ := replay_encoded _ hfit ({}, first)
  refine ⟨s.1, ?_, ?_⟩
  · unfold replay
    rw [hrecs, List.nil_append, hs]
    rfl
  · rw [hl, drive_redb, load_drive_redb]
    rfl

/-- A plan that moves a fence, appends, truncates and appends again. -/
def samplePlan : ShardPlan where
  advanced := (∅ : Fences).insert 3 2
  ops := [(2, .Append "q/a" 1 1 [7]), (2, .Truncate "q/a" 1), (2, .Append "q/a" 2 2 [8])]
  watermarks := (∅ : BTreeMap String Offset).insert "q/a" 0

theorem samplePlan_fits : PlanFits samplePlan where
  advanced g e h := by
    rw [samplePlan, BTreeMap.get_insert] at h
    split at h
    · rename_i hg
      cases h
      subst hg
      decide
    · simp at h
  appends e k o q r h := by
    simp only [samplePlan, List.mem_cons, List.not_mem_nil, or_false, Prod.mk.injEq,
      ReplOp.Append.injEq, reduceCtorEq, and_false, false_or] at h
    rcases h with ⟨rfl, -, rfl, rfl, -⟩ | ⟨rfl, -, rfl, rfl, -⟩ <;> decide
  truncates e k u h := by
    simp only [samplePlan, List.mem_cons, List.not_mem_nil, or_false, Prod.mk.injEq,
      ReplOp.Truncate.injEq, reduceCtorEq, and_false, false_or] at h
    obtain ⟨-, -, rfl⟩ := h
    decide
  watermarks k o h := by
    rw [samplePlan, BTreeMap.get_insert] at h
    split at h
    · cases h
      decide
    · simp at h

theorem log_replays_to_what_redb_loads_twice :
    ∃ log r, drive_log [samplePlan, samplePlan] = .ok log ∧ replay 1 log = .ok r ∧
      r.toLoaded = load (drive_redb [samplePlan, samplePlan]) ∧
      held r.logs "q/a" 2 = some (tag 2 2, [8]) := by
  have hok : ∃ log, drive_log [samplePlan, samplePlan] = .ok log := by
    rcases h : drive_log [samplePlan, samplePlan] with e | log
    · have hno : (drive_log [samplePlan, samplePlan]).isOk = true := by decide +kernel
      rw [h] at hno
      cases hno
    · exact ⟨log, rfl⟩
  obtain ⟨log, hlog⟩ := hok
  obtain ⟨r, hr, hl⟩ := log_replays_to_what_redb_loads [samplePlan, samplePlan]
    (by simp [samplePlan_fits]) log hlog 1
  refine ⟨log, r, hlog, hr, hl, ?_⟩
  rw [hl]
  decide +kernel

/-! ## Bytes that decode -/

theorem key_of_reads {f : String → Rec} {bytes rest : Bytes} {r : Rec}
    (h : Reads (do let key ← Reader.utf8 (← Reader.rest); return f key) bytes r rest) :
    ∃ key, r = f key ∧ bytes = as_bytes key ∧ rest = [] := by
  obtain ⟨taken, left, htaken, h⟩ := h.of_bind
  obtain ⟨key, left', hkey, h⟩ := h.of_bind
  cases h
  obtain ⟨rfl, rfl⟩ := utf8_of_reads hkey
  obtain ⟨rfl, rfl⟩ := rest_of_reads htaken
  exact ⟨key, rfl, rfl, rfl⟩

/-- The payload of a kind that decodes: the bytes of the record, with more behind them only
after a stamp or a fence. -/
theorem payload_of_decode {kind : UInt8} {payload : Bytes} {r : Rec}
    (h : decode kind payload = .ok r) :
    (encode r).1 = kind ∧ ∃ rest, payload = (encode r).2 ++ rest ∧
      (rest = [] ∨ kind = K_FORMAT ∨ kind = K_FENCE) := by
  obtain ⟨rest, hread⟩ : ∃ rest, Reads (read_rec kind payload.length) payload r rest := by
    unfold decode StateT.run' at h
    cases hrun : read_rec kind payload.length payload with
    | error e =>
      rw [hrun] at h
      cases h
    | ok p =>
      rw [hrun] at h
      cases h
      exact ⟨p.2, hrun⟩
  unfold read_rec at hread
  split at hread
  · next hkind =>
    obtain ⟨version, left, hversion, hread⟩ := hread.of_bind
    obtain ⟨shards, left', hshards, hread⟩ := hread.of_bind
    cases hread
    refine ⟨hkind.symm, rest, ?_, .inr (.inl hkind)⟩
    simp only [encode]
    rw [number_of_reads hversion, number_of_reads hshards, List.append_assoc]
  split at hread
  · next hkind =>
    obtain ⟨offset, left, hoffset, hread⟩ := hread.of_bind
    obtain ⟨epoch, left', hepoch, hread⟩ := hread.of_bind
    obtain ⟨seq, left'', hseq, hread⟩ := hread.of_bind
    obtain ⟨taken, tail, hprefixed, hread⟩ := hread.of_bind
    obtain ⟨key, tail', hkey, hread⟩ := hread.of_bind
    obtain ⟨record, tail'', hrecord, hread⟩ := hread.of_bind
    cases hread
    obtain ⟨rfl, rfl⟩ := utf8_of_reads hkey
    obtain ⟨rfl, rfl⟩ := rest_of_reads hrecord
    refine ⟨hkind.symm, [], ?_, .inl rfl⟩
    simp only [encode]
    rw [number_of_reads hoffset, number_of_reads hepoch, number_of_reads hseq,
      prefixed_of_reads hprefixed, List.append_nil]
    rfl
  split at hread
  · next hkind =>
    obtain ⟨up_to, left, hup, hread⟩ := hread.of_bind
    obtain ⟨low_water, left', hlow, hread⟩ := hread.of_bind
    obtain ⟨key, rfl, rfl, rfl⟩ := key_of_reads hread
    refine ⟨hkind.symm, [], ?_, .inl rfl⟩
    simp only [encode]
    rw [number_of_reads hup, number_of_reads hlow, List.append_nil]
  split at hread
  · next hkind =>
    obtain ⟨key, rfl, rfl, rfl⟩ := key_of_reads hread
    exact ⟨hkind.symm, [], (List.append_nil _).symm, .inl rfl⟩
  split at hread
  · next hkind =>
    obtain ⟨group, left, hgroup, hread⟩ := hread.of_bind
    obtain ⟨epoch, left', hepoch, hread⟩ := hread.of_bind
    cases hread
    refine ⟨hkind.symm, rest, ?_, .inr (.inr hkind)⟩
    simp only [encode]
    rw [number_of_reads hgroup, number_of_reads hepoch, List.append_assoc]
  split at hread
  · next hkind =>
    obtain ⟨group, left, hgroup, hread⟩ := hread.of_bind
    obtain ⟨members, left', hmembers, hread⟩ := hread.of_bind
    cases hread
    have hpayload := number_of_reads hgroup
    have hlen : left.length ≤ payload.length := by
      rw [hpayload, List.length_append]
      omega
    obtain ⟨hleft, rfl⟩ := strings_of_reads (by decide) hlen hmembers
    refine ⟨hkind.symm, [], ?_, .inl rfl⟩
    simp only [encode]
    rw [hpayload, hleft, List.append_nil]
    rfl
  split at hread
  · next hkind =>
    obtain ⟨low_water, left, hlow, hread⟩ := hread.of_bind
    obtain ⟨key, rfl, rfl, rfl⟩ := key_of_reads hread
    refine ⟨hkind.symm, [], ?_, .inl rfl⟩
    simp only [encode]
    rw [number_of_reads hlow, List.append_nil]
  · cases hread

/-- A record within the bound of the log is decoded from its bytes. A payload that decodes is
the one that its record encodes to, unless it is a stamp or a fence with bytes left over,
which are not looked at. -/
theorem decoded_payload_encodes_back_iff (r : Rec) :
    (r.InTypes → (encode r).2.length ≤ MAX_PAYLOAD →
      decode (encode r).1 (encode r).2 = .ok r) ∧
    ∀ kind payload, decode kind payload = .ok r →
      (encode r = (kind, payload) ↔
        (kind = K_FORMAT → payload.length = 8) ∧ (kind = K_FENCE → payload.length = 16)) := by
  refine ⟨fun h hlen => decode_encode r (h.fits hlen), ?_⟩
  intro kind payload h
  obtain ⟨hkind, rest, hpayload, hrest⟩ := payload_of_decode h
  have hfixed : (kind = K_FORMAT → (encode r).2.length = 8) ∧
      (kind = K_FENCE → (encode r).2.length = 16) := by
    subst hkind
    cases r <;> simp [encode, K_FORMAT, K_APPEND, K_TRUNCATE, K_REMOVE, K_FENCE, K_CAUGHT,
      K_LOW_WATER]
  have hlen : payload.length = (encode r).2.length + rest.length := by
    rw [hpayload, List.length_append]
  constructor
  · intro heq
    have hsame : (encode r).2 = payload := congrArg Prod.snd heq
    rw [← hsame]
    exact hfixed
  · rintro ⟨hformat, hfence⟩
    have hnil : rest = [] := by
      rcases hrest with hnil | hk | hk
      · exact hnil
      · have := hformat hk
        have := hfixed.1 hk
        exact List.length_eq_zero_iff.mp (by omega)
      · have := hfence hk
        have := hfixed.2 hk
        exact List.length_eq_zero_iff.mp (by omega)
    rw [hpayload, hnil, List.append_nil, ← hkind]

theorem caught_record_round_trips :
    decode (encode (.Caught 3 ["n1", "n2"])).1 (encode (.Caught 3 ["n1", "n2"])).2 =
        .ok (.Caught 3 ["n1", "n2"]) ∧
      encode (.Caught 3 ["n1", "n2"]) = (K_CAUGHT, (encode (.Caught 3 ["n1", "n2"])).2) := by
  obtain ⟨hback, hfront⟩ := decoded_payload_encodes_back_iff (.Caught 3 ["n1", "n2"])
  have hdecode := hback (by norm_num [Rec.InTypes]) (by decide)
  exact ⟨hdecode, (hfront K_CAUGHT _ hdecode).mpr (by decide)⟩

theorem fence_with_a_byte_left_over_decodes :
    decode K_FENCE (toBe 8 3 ++ toBe 8 7 ++ [0]) = .ok (.Fence 3 7) ∧
      encode (.Fence 3 7) ≠ (K_FENCE, toBe 8 3 ++ toBe 8 7 ++ [0]) := by
  decide

end mqtt_cluster.cluster_log.replica_log
