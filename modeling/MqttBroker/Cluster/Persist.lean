-- What a commit leaves on each shard. Every shard gets its share of the ops and
-- of the fences, so what a group has on disk moves by the plan of its shard.
import MqttBroker.Cluster.ReplicaState

namespace mqtt_cluster.cluster_log.ReplicaState

open placement replica_log

variable (s : ReplicaState) (fences : Fences) (ops : List (Epoch × ReplOp))

/-! ## The share of a shard -/

def truncates (key : String) : Epoch × ReplOp → Bool
  | (_, .Truncate k _) => decide (k = key)
  | _ => false

def lows : BTreeMap String Offset := (s.whole_plan ∅ ops).watermarks

def share (i : Nat) : ShardPlan where
  advanced := fences.filter (fun g _ => decide (shard_of_group g s.dbs.length = i))
  ops := ops.filter (fun p => decide (shard_of_group (op_group p.2) s.dbs.length = i))
  watermarks :=
    s.lows (ops.filter (fun p => decide (shard_of_group (op_group p.2) s.dbs.length = i)))

@[simp] theorem truncates_append (key k : String) (e : Epoch) (o : Offset) (q : Nat) (r : Bytes) :
    truncates key (e, .Append k o q r) = false := rfl

@[simp] theorem truncates_truncate (key k : String) (e : Epoch) (u : Offset) :
    truncates key (e, .Truncate k u) = decide (k = key) := rfl

@[simp] theorem truncates_remove (key k : String) (e : Epoch) :
    truncates key (e, .Remove k) = false := rfl

theorem get_lows (key : String) :
    (s.lows ops)[key]? = if ops.any (truncates key) then some (s.watermark key) else none := by
  have hfold {f : BTreeMap String Offset → Epoch × ReplOp → BTreeMap String Offset}
      (hf : ∀ m p, (f m p)[key]? = if truncates key p then some (s.watermark key) else m[key]?)
      (m : BTreeMap String Offset) : (ops.foldl f m)[key]? =
        if ops.any (truncates key) then some (s.watermark key) else m[key]? := by
    induction ops generalizing m with
    | nil => rfl
    | cons p ops ih =>
      rw [List.foldl_cons, ih, hf, List.any_cons]
      cases truncates key p <;> cases ops.any (truncates key) <;> rfl
  refine (hfold ?_ ∅).trans (by rw [BTreeMap.get_empty])
  rintro m ⟨e, op⟩
  cases op with
  | Append k o q r => rfl
  | Truncate k u =>
    simp only [truncates_truncate, BTreeMap.get_insert, decide_eq_true_eq]
    split
    · rename_i hk
      rw [hk]
    · rfl
  | Remove k => rfl

theorem foldl_plan_op (plan : ShardPlan) :
    (ops.foldl s.plan_op plan).advanced = plan.advanced ∧
      (ops.foldl s.plan_op plan).ops = plan.ops ++ ops ∧
      ∀ key : String, (ops.foldl s.plan_op plan).watermarks[key]? =
        plan.watermarks[key]?.or (if ops.any (truncates key) then some (s.watermark key) else none) := by
  induction ops generalizing plan with
  | nil => simp
  | cons p ops ih =>
    obtain ⟨h1, h2, h3⟩ := ih (s.plan_op plan p)
    refine ⟨h1, by rw [List.foldl_cons, h2]; simp [plan_op], ?_⟩
    intro key
    rw [List.foldl_cons, h3, List.any_cons]
    obtain ⟨e, op⟩ := p
    cases op with
    | Append k o q r => simp only [plan_op, truncates_append, Bool.false_or]
    | Truncate k u =>
      simp only [plan_op, truncates_truncate, Std.ExtTreeMap.contains_eq_isSome_getElem?]
      by_cases hk : k = key
      · subst hk
        rcases hw : plan.watermarks[k]? with _ | w <;> simp [hw]
      · rcases hw : plan.watermarks[k]? with _ | w
        · simp only [Option.isSome_none, Bool.false_eq_true, if_false, BTreeMap.get_insert, hk,
            decide_false, Bool.false_or]
        · simp only [Option.isSome_some, if_true, hk, decide_false, Bool.false_or]
    | Remove k => simp only [plan_op, truncates_remove, Bool.false_or]

theorem foldl_plan_op_eq (advanced : Fences) :
    ops.foldl s.plan_op { advanced := advanced } =
      { advanced := advanced, ops := ops, watermarks := s.lows ops } := by
  obtain ⟨h1, h2, h3⟩ := s.foldl_plan_op ops { advanced := advanced }
  have h4 : (ops.foldl s.plan_op { advanced := advanced }).watermarks = s.lows ops := by
    ext key : 1
    rw [h3, get_lows, BTreeMap.get_empty, Option.none_or]
  generalize ops.foldl s.plan_op { advanced := advanced } = plan at h1 h2 h4
  obtain ⟨a, o, w⟩ := plan
  simp only [List.nil_append] at h1 h2 h4
  rw [h1, h2, h4]

/-- A store of one file gives all of a batch to it. -/
theorem whole_plan_eq_share (h : s.dbs.length = 1) :
    s.whole_plan fences ops = s.share fences ops 0 := by
  have hone : ∀ g, shard_of_group g s.dbs.length = 0 := fun g => by simp [shard_of_group, h]
  have hf : fences.filter (fun _ _ => true) = fences := by
    ext k : 1
    rw [BTreeMap.get_filter]
    rcases fences[k]? with _ | v <;> rfl
  simp only [share, hone, decide_true, hf, List.filter_true]
  rfl

theorem shard_plans_getD (i : Nat) : (s.shard_plans fences ops)[i]?.getD {} = s.share fences ops i := by
  rw [shard_plans, BTreeMap.get_groupFold, BTreeMap.get_groupFold, BTreeMap.get_empty,
    Option.getD_none]
  have hf : ∀ (l : List (GroupId × Epoch)) (plan : ShardPlan),
      l.foldl (fun (plan : ShardPlan) ge =>
        { plan with advanced := plan.advanced.insert ge.1 ge.2 }) plan =
      { plan with advanced := l.foldl (fun (m : Fences) ge => m.insert ge.1 ge.2) plan.advanced } := by
    intro l
    induction l with
    | nil => exact fun plan => rfl
    | cons ge l ih => exact fun plan => ih _
  rw [hf, BTreeMap.foldl_insert_filter fences
    (fun g _ => decide (shard_of_group g s.dbs.length = i)), foldl_plan_op_eq]
  rfl

theorem shard_plans_none {i : Nat} (h : (s.shard_plans fences ops)[i]? = none) :
    s.share fences ops i = {} := by
  have hs := s.shard_plans_getD fences ops i
  rw [h] at hs
  exact hs.symm

/-! ## What a commit leaves -/

@[simp] theorem drive_plan_empty {σ : Type} [PlanSink σ] (sink : σ) : drive_plan {} sink = sink := by
  simp [drive_plan, drive_rest, drive_ops, drive_fences]

/-- A commit leaves the store with as many shards. -/
theorem persist_batch_length (io : Nat → Bool) :
    (s.persist_batch io fences ops).2.length = s.dbs.length := by
  unfold persist_batch
  split
  · rename_i h
    simp [h]
  · rename_i db h
    split <;> simp [h]
  · simp

theorem load_persist_batch {io : Nat → Bool} (hok : (s.persist_batch io fences ops).1 = true)
    (i : Nat) : (s.persist_batch io fences ops).2[i]?.map Shard.load =
      s.dbs[i]?.map (fun db => drive_plan (s.share fences ops i) db.load) := by
  unfold persist_batch at hok ⊢
  split at hok
  · rename_i h
    simp [h]
  · rename_i db h
    split at hok
    · rename_i hio
      rw [s.whole_plan_eq_share fences ops (by simp [h])]
      simp only [h, hio, if_true]
      cases i with
      | zero => simp [load_commit_shard]
      | succ i => simp
    · cases hok
  · simp only [List.getElem?_mapIdx, Option.map_map]
    congr 1
    funext db
    simp only [Function.comp_apply]
    rcases hp : (s.shard_plans fences ops)[i]? with _ | plan
    · rw [s.shard_plans_none fences ops hp, drive_plan_empty]
    · have hio : io i = true := by
        rw [List.all_eq_true] at hok
        exact hok i ((BTreeMap.mem_keys _ i).mpr ⟨plan, hp⟩)
      have hshare := s.shard_plans_getD fences ops i
      rw [hp] at hshare
      simp only [hio, if_true, load_commit_shard]
      rw [← hshare]
      rfl

theorem persist_batch_failed (hok : (s.persist_batch (fun _ => false) fences ops).1 = false) :
    (s.persist_batch (fun _ => false) fences ops).2 = s.dbs := by
  unfold persist_batch at hok ⊢
  split at hok
  · cases hok
  · rename_i db h
    simp [h]
  · apply List.ext_getElem?
    intro i
    rw [List.getElem?_mapIdx]
    rcases s.dbs[i]? with _ | db
    · rfl
    · simp only [Option.map_some]
      rcases (s.shard_plans fences ops)[i]? with _ | plan <;> rfl

theorem persist_batch_fails (hne : 0 < s.dbs.length) (hops : ops ≠ []) :
    (s.persist_batch (fun _ => false) fences ops).1 = false := by
  unfold persist_batch
  split
  · rename_i h
    simp [h] at hne
  · rfl
  · obtain ⟨p, hp⟩ := List.exists_mem_of_ne_nil ops hops
    -- The shard of the op has a plan.
    have hplan : (s.shard_plans fences ops)[shard_of_group (op_group p.2) s.dbs.length]? ≠ none := by
      intro hnone
      rw [shard_plans, BTreeMap.get_groupFold_none] at hnone
      exact hnone.2 p hp rfl
    obtain ⟨plan, hplan⟩ := Option.ne_none_iff_exists'.mp hplan
    rw [List.all_eq_false]
    exact ⟨_, (BTreeMap.mem_keys _ _).mpr ⟨plan, hplan⟩, by simp⟩

theorem persist_batch_succeeds : (s.persist_batch (fun _ => true) fences ops).1 = true := by
  unfold persist_batch
  split
  · rfl
  · rfl
  · simp

end mqtt_cluster.cluster_log.ReplicaState
