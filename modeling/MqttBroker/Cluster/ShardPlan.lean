-- What one commit of a shard writes, and in which order (`drive_plan`), the
-- redb tables it writes to, and the state that a load of the tables gives.
-- Each sink op of the tables is one change of the loaded state, so a drive of
-- the tables and a load is the drive of the loaded state.
import MqttBroker.Cluster.ReplicaOps

namespace mqtt_cluster.cluster_log

/-! ## The plan and its sinks -/

structure ShardPlan where
  /-- The fences that this share moves past the disk. -/
  advanced : Fences := ∅
  ops : List (Epoch × ReplOp) := []
  /-- For each key that the share truncates, its low-water before the batch. -/
  watermarks : BTreeMap String Offset := ∅

/-- Where the effects of a plan land. -/
class PlanSink (σ : Type) where
  fence : GroupId → Epoch → σ → σ
  append : String → Offset → Epoch → Nat → Bytes → σ → σ
  /-- Drops the entries of the key through `up_to`; its low-water becomes `low_water`. -/
  truncate : String → (up_to low_water : Offset) → σ → σ
  remove : String → σ → σ

/-- The variables of the loop of `drive_plan`. -/
structure Driving (σ : Type) where
  sink : σ
  wm : BTreeMap String Offset := ∅
  pending : BTreeMap String Offset := ∅

section drive

variable {σ : Type} [PlanSink σ]

/-- The low-water that a truncate of the plan goes on top of. -/
def flush_base (plan : ShardPlan) (wm : BTreeMap String Offset) (key : String) : Offset :=
  (wm[key]?.or plan.watermarks[key]?).getD 0

def flush (plan : ShardPlan) (d : Driving σ) (key : String) (up_to : Offset) : Driving σ :=
  let low_water := max (flush_base plan d.wm key) up_to
  { d with
    sink := PlanSink.truncate key up_to low_water d.sink
    wm := d.wm.insert key low_water }

/-- One turn of the loop over the ops of the plan. -/
def drive_op (plan : ShardPlan) (d : Driving σ) : Epoch × ReplOp → Driving σ
  | (epoch, .Append key offset seq record) =>
    let d := match d.pending[key]? with
      | some up_to => flush plan { d with pending := d.pending.erase key } key up_to
      | none => d
    { d with sink := PlanSink.append key offset epoch seq record d.sink }
  | (_, .Truncate key up_to) =>
    { d with pending := d.pending.insert key (max (d.pending[key]?.getD up_to) up_to) }
  | (_, .Remove key) =>
    -- A pending truncate is subsumed: the remove drops the low-water too.
    { sink := PlanSink.remove key d.sink
      wm := d.wm.erase key
      pending := d.pending.erase key }

def drive_fences (plan : ShardPlan) (sink : σ) : σ :=
  plan.advanced.toList.foldl (fun sink ge => PlanSink.fence ge.1 ge.2 sink) sink

def drive_ops (plan : ShardPlan) (sink : σ) : Driving σ :=
  plan.ops.foldl (drive_op plan) { sink }

/-- The pending truncates that the loop left, one after another. -/
def drive_rest (plan : ShardPlan) (d : Driving σ) : Driving σ :=
  d.pending.toList.foldl (fun d p => flush plan d p.1 p.2) d

/-- Fences first, then the ops in order, with the truncates of a key coalesced. -/
def drive_plan (plan : ShardPlan) (sink : σ) : σ :=
  (drive_rest plan (drive_ops plan (drive_fences plan sink))).sink

end drive

/-! ## Two sinks that go along -/

/-- Two sinks keep a relation: each of the four ops does. -/
structure SinkRel {σ τ : Type} [PlanSink σ] [PlanSink τ] (R : σ → τ → Prop) : Prop where
  fence : ∀ s t g e, R s t → R (PlanSink.fence g e s) (PlanSink.fence g e t)
  append : ∀ s t k o e q r, R s t → R (PlanSink.append k o e q r s) (PlanSink.append k o e q r t)
  truncate : ∀ s t k u l, R s t → R (PlanSink.truncate k u l s) (PlanSink.truncate k u l t)
  remove : ∀ s t k, R s t → R (PlanSink.remove k s) (PlanSink.remove k t)

section sim

variable {σ τ : Type} [PlanSink σ] [PlanSink τ] {R : σ → τ → Prop}

/-- Two drives at the same point of the same plan. -/
def DrivingRel (R : σ → τ → Prop) (d : Driving σ) (d' : Driving τ) : Prop :=
  R d.sink d'.sink ∧ d.wm = d'.wm ∧ d.pending = d'.pending

theorem flush_rel (h : SinkRel R) (plan : ShardPlan) {d : Driving σ} {d' : Driving τ}
    (hd : DrivingRel R d d') (key : String) (up_to : Offset) :
    DrivingRel R (flush plan d key up_to) (flush plan d' key up_to) := by
  obtain ⟨h1, h2, h3⟩ := hd
  refine ⟨?_, ?_, h3⟩
  · simp only [flush, h2]
    exact h.truncate _ _ _ _ _ h1
  · simp only [flush, h2]

theorem drive_op_rel (h : SinkRel R) (plan : ShardPlan) {d : Driving σ} {d' : Driving τ}
    (hd : DrivingRel R d d') (op : Epoch × ReplOp) :
    DrivingRel R (drive_op plan d op) (drive_op plan d' op) := by
  obtain ⟨epoch, op⟩ := op
  obtain ⟨h1, h2, h3⟩ := hd
  cases op with
  | Append key offset seq record =>
    simp only [drive_op, h3]
    rcases d'.pending[key]? with _ | up_to
    · exact ⟨h.append _ _ _ _ _ _ _ h1, h2, h3⟩
    · have hd : DrivingRel R { d with pending := d'.pending.erase key }
          { d' with pending := d'.pending.erase key } := ⟨h1, h2, rfl⟩
      obtain ⟨f1, f2, f3⟩ := flush_rel h plan hd key up_to
      exact ⟨h.append _ _ _ _ _ _ _ f1, f2, f3⟩
  | Truncate key up_to => exact ⟨h1, h2, by simp only [drive_op, h3]⟩
  | Remove key =>
    exact ⟨h.remove _ _ _ h1, by simp only [drive_op, h2], by simp only [drive_op, h3]⟩

theorem drive_plan_rel (h : SinkRel R) (plan : ShardPlan) {s : σ} {t : τ} (hst : R s t) :
    R (drive_plan plan s) (drive_plan plan t) := by
  have hf : R (drive_fences plan s) (drive_fences plan t) := by
    unfold drive_fences
    generalize plan.advanced.toList = gs
    induction gs generalizing s t with
    | nil => exact hst
    | cons ge gs ih => exact ih (h.fence _ _ _ _ hst)
  have ho : DrivingRel R (drive_ops plan (drive_fences plan s))
      (drive_ops plan (drive_fences plan t)) := by
    unfold drive_ops
    have hstart : DrivingRel R ({ sink := drive_fences plan s } : Driving σ)
        { sink := drive_fences plan t } := ⟨hf, rfl, rfl⟩
    revert hstart
    generalize ({ sink := drive_fences plan s } : Driving σ) = d
    generalize ({ sink := drive_fences plan t } : Driving τ) = d'
    generalize plan.ops = ops
    intro hstart
    induction ops generalizing d d' with
    | nil => exact hstart
    | cons op ops ih => exact ih _ _ (drive_op_rel h plan hstart op)
  have hr : ∀ (ps : List (String × Offset)) (d : Driving σ) (d' : Driving τ), DrivingRel R d d' →
      DrivingRel R (ps.foldl (fun d p => flush plan d p.1 p.2) d)
        (ps.foldl (fun d p => flush plan d p.1 p.2) d') := by
    intro ps
    induction ps with
    | nil => exact fun _ _ hd => hd
    | cons p ps ih => exact fun d d' hd => ih _ _ (flush_rel h plan hd p.1 p.2)
  unfold drive_plan drive_rest
  rw [ho.2.2]
  exact (hr _ _ _ ho).1

end sim

/-! ## What a drive writes -/

section keeps

variable {σ : Type} [PlanSink σ] {I : σ → Prop} {B : Offset → Prop} {plan : ShardPlan}

def Addresses (plan : ShardPlan) (key : String) : Prop := ∃ p ∈ plan.ops, op_key p.2 = key

/-- A sink keeps `I` through the ops that a plan may make of it, where `B` bounds the offsets
of its truncates and its low-waters. -/
structure OpsKeep (I : σ → Prop) (B : Offset → Prop) (plan : ShardPlan) : Prop where
  append : ∀ s k o e q r, (e, ReplOp.Append k o q r) ∈ plan.ops → I s →
    I (PlanSink.append k o e q r s)
  truncate : ∀ s k u l, Addresses plan k → B u → B l → I s → I (PlanSink.truncate k u l s)
  remove : ∀ s k, Addresses plan k → I s → I (PlanSink.remove k s)

/-- A sink keeps `I` through the fences of a plan too. -/
structure SinkKeeps (I : σ → Prop) (B : Offset → Prop) (plan : ShardPlan) : Prop
    extends OpsKeep I B plan where
  fence : ∀ s g e, plan.advanced[g]? = some e → I s → I (PlanSink.fence g e s)

/-- The bound holds of every offset that a drive starts from, and a maximum keeps it. -/
structure BoundsPlan (B : Offset → Prop) (plan : ShardPlan) : Prop where
  zero : B 0
  max : ∀ a b, B a → B b → B (max a b)
  watermarks : ∀ (k : String) o, plan.watermarks[k]? = some o → B o
  ops : ∀ e k u, (e, ReplOp.Truncate k u) ∈ plan.ops → B u

theorem boundsPlan_true (plan : ShardPlan) : BoundsPlan (fun _ => True) plan :=
  ⟨trivial, fun _ _ _ _ => trivial, fun _ _ _ => trivial, fun _ _ _ _ => trivial⟩

/-- The sink keeps `I`, and what the drive remembers is of the plan and within the bound. -/
structure DrivingKeeps (I : σ → Prop) (B : Offset → Prop) (plan : ShardPlan) (d : Driving σ) :
    Prop where
  sink : I d.sink
  wm : ∀ (k : String) o, d.wm[k]? = some o → B o
  pending : ∀ (k : String) o, d.pending[k]? = some o → B o ∧ Addresses plan k

theorem flush_keeps (h : OpsKeep I B plan) (hb : BoundsPlan B plan) {d : Driving σ}
    (hd : DrivingKeeps I B plan d) {key : String} {up_to : Offset}
    (hu : B up_to ∧ Addresses plan key) : DrivingKeeps I B plan (flush plan d key up_to) := by
  have hbase : B (flush_base plan d.wm key) := by
    unfold flush_base
    rcases hw : d.wm[key]? with _ | w
    · rcases hp : plan.watermarks[key]? with _ | p
      · exact hb.zero
      · exact hb.watermarks key p hp
    · exact hd.wm key w hw
  have hlow := hb.max _ _ hbase hu.1
  refine ⟨h.truncate _ _ _ _ hu.2 hu.1 hlow hd.sink, ?_, hd.pending⟩
  intro k o ho
  rw [flush, BTreeMap.get_insert] at ho
  split at ho
  · cases ho
    exact hlow
  · exact hd.wm k o ho

theorem drive_op_keeps (h : OpsKeep I B plan) (hb : BoundsPlan B plan) {d : Driving σ}
    (hd : DrivingKeeps I B plan d) {op : Epoch × ReplOp} (hop : op ∈ plan.ops) :
    DrivingKeeps I B plan (drive_op plan d op) := by
  have herase : ∀ (m : BTreeMap String Offset) (P : String → Offset → Prop),
      (∀ (k : String) o, m[k]? = some o → P k o) →
      ∀ key (k : String) o, (m.erase key)[k]? = some o → P k o := by
    intro m P hm key k o ho
    rw [BTreeMap.get_erase] at ho
    split at ho
    · cases ho
    · exact hm k o ho
  obtain ⟨epoch, op⟩ := op
  cases op with
  | Append key offset seq record =>
    simp only [drive_op]
    rcases hp : d.pending[key]? with _ | up_to
    · exact ⟨h.append _ _ _ _ _ _ hop hd.sink, hd.wm, hd.pending⟩
    · have hd' : DrivingKeeps I B plan { d with pending := d.pending.erase key } :=
        ⟨hd.sink, hd.wm, herase _ _ hd.pending key⟩
      have hf := flush_keeps h hb hd' (hd.pending key up_to hp)
      exact ⟨h.append _ _ _ _ _ _ hop hf.sink, hf.wm, hf.pending⟩
  | Truncate key up_to =>
    refine ⟨hd.sink, hd.wm, ?_⟩
    intro k o ho
    simp only [drive_op] at ho
    rw [BTreeMap.get_insert] at ho
    split at ho
    · rename_i hk
      cases ho
      refine ⟨hb.max _ _ ?_ (hb.ops _ _ _ hop), _, hop, hk⟩
      rcases hp : d.pending[key]? with _ | p
      · exact hb.ops _ _ _ hop
      · exact (hd.pending key p hp).1
    · exact hd.pending k o ho
  | Remove key =>
    exact ⟨h.remove _ _ ⟨_, hop, rfl⟩ hd.sink, herase _ _ hd.wm key, herase _ _ hd.pending key⟩

theorem drive_rest_keeps (h : OpsKeep I B plan) (hb : BoundsPlan B plan) {s : σ} (hs : I s) :
    I (drive_rest plan (drive_ops plan s)).sink := by
  have ho : DrivingKeeps I B plan (drive_ops plan s) := by
    unfold drive_ops
    have hstart : DrivingKeeps I B plan ({ sink := s } : Driving σ) :=
      ⟨hs, fun k o ho => by simp at ho, fun k o ho => by simp at ho⟩
    have hrun : ∀ (ops : List (Epoch × ReplOp)) (d : Driving σ), (∀ op ∈ ops, op ∈ plan.ops) →
        DrivingKeeps I B plan d → DrivingKeeps I B plan (ops.foldl (drive_op plan) d) := by
      intro ops
      induction ops with
      | nil => exact fun d _ hd => hd
      | cons op ops ih =>
        exact fun d hin hd => ih _ (fun o ho => hin o (List.mem_cons_of_mem op ho))
          (drive_op_keeps h hb hd (hin op List.mem_cons_self))
    exact hrun _ _ (fun _ hop => hop) hstart
  have hrest : ∀ (ps : List (String × Offset)) (d : Driving σ),
      (∀ p ∈ ps, B p.2 ∧ Addresses plan p.1) → DrivingKeeps I B plan d →
      DrivingKeeps I B plan (ps.foldl (fun d p => flush plan d p.1 p.2) d) := by
    intro ps
    induction ps with
    | nil => exact fun d _ hd => hd
    | cons p ps ih =>
      exact fun d hin hd => ih _ (fun q hq => hin q (List.mem_cons_of_mem p hq))
        (flush_keeps h hb hd (hin p List.mem_cons_self))
  refine (hrest _ _ ?_ ho).sink
  intro p hp
  exact ho.pending p.1 p.2 ((BTreeMap.mem_toList _ p.1 p.2).mp hp)

theorem drive_plan_keeps (h : SinkKeeps I B plan) (hb : BoundsPlan B plan) {s : σ} (hs : I s) :
    I (drive_plan plan s) := by
  refine drive_rest_keeps h.toOpsKeep hb ?_
  unfold drive_fences
  have hin : ∀ ge ∈ plan.advanced.toList, plan.advanced[ge.1]? = some ge.2 :=
    fun ge hge => (BTreeMap.mem_toList plan.advanced ge.1 ge.2).mp hge
  revert hin
  generalize plan.advanced.toList = gs
  intro hin
  induction gs generalizing s with
  | nil => exact hs
  | cons ge gs ih =>
    exact ih (h.fence _ _ _ (hin ge List.mem_cons_self) hs)
      (fun ge' hge => hin ge' (List.mem_cons_of_mem ge hge))

end keeps

/-! ## One entry put, one prefix cut -/

section keymap

variable {α : Type}

/-- Puts one entry into the log of its key, as `entry(key).or_default().insert(..)`. -/
def put (logs : KeyMap α) (key : String) (offset : Offset) (v : α) : KeyMap α :=
  logs.insert key ((logOf logs key).insert offset v)

/-- Drops the prefix of the log of a key, and the log with it when nothing is left. -/
def cut (logs : KeyMap α) (key : String) (up_to : Offset) : KeyMap α :=
  match logs[key]? with
  | none => logs
  | some log =>
    if (log.dropThrough up_to).isEmpty then logs.erase key
    else logs.insert key (log.dropThrough up_to)

theorem held_put (logs : KeyMap α) (key k : String) (offset o : Offset) (v : α) :
    held (put logs key offset v) k o =
      if key = k ∧ offset = o then some v else held logs k o := by
  unfold held put
  rw [logOf_insert]
  by_cases hk : key = k
  · subst hk
    simp only [if_true, true_and, BTreeMap.get_insert]
  · simp [hk]

theorem held_cut (logs : KeyMap α) (key k : String) (up_to o : Offset) :
    held (cut logs key up_to) k o = if key = k ∧ o ≤ up_to then none else held logs k o := by
  unfold held cut
  by_cases hk : key = k
  · subst hk
    rcases h : logs[key]? with _ | log
    · simp [logOf, h]
    · simp only [true_and]
      have hdrop : (log.dropThrough up_to)[o]? = if o ≤ up_to then none else log[o]? :=
        BTreeMap.get_dropThrough _ _ _
      split
      · rename_i he
        rw [logOf_erase, if_pos rfl, BTreeMap.get_empty]
        rw [(BTreeMap.isEmpty_iff _).mp he o] at hdrop
        simpa [logOf, h] using hdrop
      · rw [logOf_insert, if_pos rfl, hdrop]
        simp [logOf, h]
  · simp only [hk, false_and, if_false]
    rcases logs[key]? with _ | log
    · rfl
    · simp only
      split
      · rw [logOf_erase, if_neg hk]
      · rw [logOf_insert, if_neg hk]

theorem held_erase (logs : KeyMap α) (key k : String) (o : Offset) :
    held (logs.erase key) k o = if key = k then none else held logs k o := by
  unfold held
  rw [logOf_erase]
  split <;> simp

theorem noEmpty_put {logs : KeyMap α} (h : NoEmpty logs) (key : String) (offset : Offset)
    (v : α) : NoEmpty (put logs key offset v) := by
  intro k log hl
  rw [put, BTreeMap.get_insert] at hl
  split at hl
  · cases hl
    exact ⟨offset, by simp⟩
  · exact h k log hl

theorem noEmpty_erase {logs : KeyMap α} (h : NoEmpty logs) (key : String) :
    NoEmpty (logs.erase key) := by
  intro k log hl
  rw [BTreeMap.get_erase] at hl
  split at hl
  · cases hl
  · exact h k log hl

theorem noEmpty_cut {logs : KeyMap α} (h : NoEmpty logs) (key : String) (up_to : Offset) :
    NoEmpty (cut logs key up_to) := by
  unfold cut
  rcases logs[key]? with _ | log
  · exact h
  · simp only
    split
    · exact noEmpty_erase h key
    · rename_i he
      intro k l hl
      rw [BTreeMap.get_insert] at hl
      split at hl
      · cases hl
        by_contra hc
        refine he ((BTreeMap.isEmpty_iff _).mpr (fun o => ?_))
        rcases ho : (log.dropThrough up_to)[o]? with _ | x
        · rfl
        · exact absurd ⟨o, by simp [ho]⟩ hc
      · exact h k l hl

end keymap

/-! ## The state that a load gives -/

/-- The state recovered from a persistent replica. -/
structure Loaded where
  fences : Fences := ∅
  logs : ReplicaLogs := ∅
  truncated : BTreeMap String Offset := ∅
  caught_up : CaughtUp := ∅

instance : PlanSink Loaded where
  fence g e l := { l with fences := l.fences.insert g e }
  append k o e q r l := { l with logs := put l.logs k o (tag e q, r) }
  truncate k u w l := { l with logs := cut l.logs k u, truncated := l.truncated.insert k w }
  remove k l := { l with logs := l.logs.erase k, truncated := l.truncated.erase k }

/-! ## The redb tables -/

/-- The tables of one redb file. A row of the entries is keyed by its key and offset, as
`r_entry_key` encodes them. -/
structure Tables where
  fences : Fences := ∅
  entries : BTreeMap (String ×ₗ Offset) Stored := ∅
  trunc : BTreeMap String Offset := ∅
  caught : CaughtUp := ∅

/-- Deletes the rows of a key from `lo` to `hi`; no `hi` stands for `Offset::MAX`, which
every offset is at most. -/
def delete_entry_range (entries : BTreeMap (String ×ₗ Offset) Stored) (key : String)
    (lo : Offset) (hi : Option Offset) : BTreeMap (String ×ₗ Offset) Stored :=
  entries.filter (fun row _ =>
    !(decide ((ofLex row).1 = key) && decide (lo ≤ (ofLex row).2) &&
      hi.all (fun h => decide ((ofLex row).2 ≤ h))))

/-- The redb sink. -/
instance : PlanSink Tables where
  fence g e t := { t with fences := t.fences.insert g e }
  append k o e q r t := { t with entries := t.entries.insert (toLex (k, o)) (tag e q, r) }
  truncate k u w t :=
    { t with entries := delete_entry_range t.entries k 0 (some u), trunc := t.trunc.insert k w }
  remove k t :=
    { t with entries := delete_entry_range t.entries k 0 none, trunc := t.trunc.erase k }

def load_logs (rows : List ((String ×ₗ Offset) × Stored)) : ReplicaLogs :=
  rows.foldl (fun logs row => put logs (ofLex row.1).1 (ofLex row.1).2 row.2) ∅

def load (t : Tables) : Loaded where
  fences := t.fences
  logs := load_logs t.entries.toList
  truncated := t.trunc
  caught_up := t.caught

theorem held_foldl_put (rows : List ((String ×ₗ Offset) × Stored)) (logs : ReplicaLogs)
    (hd : rows.Pairwise (fun a b => a.1 ≠ b.1)) (k : String) (o : Offset) (v : Stored) :
    held (rows.foldl (fun logs row => put logs (ofLex row.1).1 (ofLex row.1).2 row.2) logs) k o =
        some v ↔
      (toLex (k, o), v) ∈ rows ∨ (∀ w, (toLex (k, o), w) ∉ rows) ∧ held logs k o = some v := by
  induction rows generalizing logs with
  | nil => simp
  | cons row rows ih =>
    rw [List.pairwise_cons] at hd
    obtain ⟨key, w⟩ := row
    rw [List.foldl_cons, ih _ hd.2, held_put]
    simp only [List.mem_cons, Prod.mk.injEq, not_or, not_and]
    by_cases hkey : (ofLex key).1 = k ∧ (ofLex key).2 = o
    · have hk : toLex (k, o) = key := by rw [← hkey.1, ← hkey.2]; rfl
      have hnot : ∀ w', (toLex (k, o), w') ∉ rows := fun w' hw' => hd.1 _ hw' hk.symm
      rw [if_pos hkey]
      constructor
      · rintro (h | ⟨_, h⟩)
        · exact absurd h (hnot v)
        · simp only [Option.some.injEq] at h
          exact Or.inl (Or.inl ⟨hk, h.symm⟩)
      · rintro ((⟨_, rfl⟩ | h) | ⟨h, _⟩)
        · exact Or.inr ⟨hnot, rfl⟩
        · exact absurd h (hnot v)
        · exact absurd rfl ((h w).1 hk)
    · have hk : toLex (k, o) ≠ key := fun he => hkey (by rw [← he]; exact ⟨rfl, rfl⟩)
      rw [if_neg hkey]
      constructor
      · rintro (h | ⟨h1, h2⟩)
        · exact Or.inl (Or.inr h)
        · exact Or.inr ⟨fun w' => ⟨fun he => absurd he hk, h1 w'⟩, h2⟩
      · rintro ((⟨he, _⟩ | h) | ⟨h1, h2⟩)
        · exact absurd he hk
        · exact Or.inl h
        · exact Or.inr ⟨fun w' => (h1 w').2, h2⟩

theorem held_load (t : Tables) (k : String) (o : Offset) :
    held (load t).logs k o = t.entries[(toLex (k, o) : String ×ₗ Offset)]? := by
  have hd : t.entries.toList.Pairwise (fun a b => a.1 ≠ b.1) :=
    t.entries.toList_sorted.imp (fun h => ne_of_lt h)
  apply Option.ext
  intro v
  change held (load_logs t.entries.toList) k o = some v ↔ _
  rw [load_logs, held_foldl_put _ _ hd, BTreeMap.mem_toList]
  simp

theorem noEmpty_load (t : Tables) : NoEmpty (load t).logs := by
  have h : ∀ (rows : List ((String ×ₗ Offset) × Stored)) (logs : ReplicaLogs), NoEmpty logs →
      NoEmpty (rows.foldl
        (fun logs row => put logs (ofLex row.1).1 (ofLex row.1).2 row.2) logs) := by
    intro rows
    induction rows with
    | nil => exact fun _ h => h
    | cons row rows ih => exact fun logs h => ih _ (noEmpty_put h _ _ _)
  exact h _ _ (fun k log hl => by simp at hl)

theorem get_delete_entry_range (entries : BTreeMap (String ×ₗ Offset) Stored) (key k : String)
    (lo o : Offset) (hi : Option Offset) :
    (delete_entry_range entries key lo hi)[(toLex (k, o) : String ×ₗ Offset)]? =
      if k = key ∧ lo ≤ o ∧ (∀ h, hi = some h → o ≤ h) then none
      else entries[(toLex (k, o) : String ×ₗ Offset)]? := by
  have hhi : hi.all (fun h => decide (o ≤ h)) = true ↔ ∀ h, hi = some h → o ≤ h := by
    rcases hi with _ | h <;> simp
  rw [delete_entry_range, BTreeMap.get_filter]
  rcases entries[(toLex (k, o) : String ×ₗ Offset)]? with _ | v
  · simp
  · rw [Option.filter_some]
    change (if (!(decide (k = key) && decide (lo ≤ o) && hi.all (fun h => decide (o ≤ h)))) = true
      then some v else none) = _
    by_cases hdel : k = key ∧ lo ≤ o ∧ ∀ h, hi = some h → o ≤ h
    · rw [if_pos hdel, if_neg]
      simp [hdel.1, hdel.2.1, hhi.mpr hdel.2.2]
    · rw [if_neg hdel, if_pos]
      rw [← hhi] at hdel
      rw [Bool.not_eq_true', ← Bool.not_eq_true, Bool.and_eq_true, Bool.and_eq_true,
        decide_eq_true_eq, decide_eq_true_eq, and_assoc]
      exact hdel

theorem load_rel : SinkRel (fun (t : Tables) (l : Loaded) => load t = l) where
  fence := by
    rintro t _ g e rfl
    rfl
  append := by
    rintro t _ k o e q r rfl
    have hlogs : (load (PlanSink.append k o e q r t)).logs = put (load t).logs k o (tag e q, r) := by
      refine logs_ext (noEmpty_load _) (noEmpty_put (noEmpty_load t) _ _ _) (fun k' o' => ?_)
      rw [held_load, held_put, held_load]
      change (t.entries.insert (toLex (k, o)) (tag e q, r))[_]? = _
      rw [BTreeMap.get_insert]
      simp
    change Loaded.mk _ (load (PlanSink.append k o e q r t)).logs _ _ = _
    rw [hlogs]
    rfl
  truncate := by
    rintro t _ k u w rfl
    have hlogs : (load (PlanSink.truncate k u w t)).logs = cut (load t).logs k u := by
      refine logs_ext (noEmpty_load _) (noEmpty_cut (noEmpty_load t) _ _) (fun k' o' => ?_)
      rw [held_load, held_cut, held_load]
      change (delete_entry_range t.entries k 0 (some u))[_]? = _
      rw [get_delete_entry_range]
      simp [eq_comm]
    change Loaded.mk _ (load (PlanSink.truncate k u w t)).logs _ _ = _
    rw [hlogs]
    rfl
  remove := by
    rintro t _ k rfl
    have hlogs : (load (PlanSink.remove k t)).logs = (load t).logs.erase k := by
      refine logs_ext (noEmpty_load _) (noEmpty_erase (noEmpty_load t) _) (fun k' o' => ?_)
      rw [held_load, held_erase, held_load]
      change (delete_entry_range t.entries k 0 none)[_]? = _
      rw [get_delete_entry_range]
      simp [eq_comm]
    change Loaded.mk _ (load (PlanSink.remove k t)).logs _ _ = _
    rw [hlogs]
    rfl

theorem load_drive_plan (plan : ShardPlan) (t : Tables) :
    load (drive_plan plan t) = drive_plan plan (load t) :=
  drive_plan_rel load_rel plan rfl

end mqtt_cluster.cluster_log
