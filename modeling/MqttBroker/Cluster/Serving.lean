-- A replica in memory while it serves calls, whatever its store answers. An
-- entry that it holds goes only for a newer attempt, by a truncate past it, or
-- with its key.
import MqttBroker.Cluster.FenceRace

namespace mqtt_cluster.cluster_log

open placement

namespace ReplicaState

/-! ## What a call leaves in memory -/

/-- The state in memory after a call that accepts `passed` and applies `ops` of them. -/
structure Served (s s' : ReplicaState) (passed ops : List (Epoch × ReplOp)) : Prop where
  above : ∀ p ∈ passed, s.fence_of (op_group p.2) ≤ p.1
  sub : ∀ p ∈ ops, p ∈ passed
  fresh : ∀ p ∈ ops, s.is_stale_attempt p.1 p.2 = false
  fences : ∀ g, s.fence_of g ≤ s'.fence_of g
  logs : s'.logs = (s.apply_all ops).logs
  truncated : s'.truncated = (s.apply_all ops).truncated

variable {s s' : ReplicaState}

theorem served_nothing (hf : ∀ g, s.fence_of g ≤ s'.fence_of g) (hl : s'.logs = s.logs)
    (ht : s'.truncated = s.truncated) : Served s s' [] [] :=
  ⟨by simp, by simp, by simp, hf, hl, ht⟩

theorem served_moved {batch : List (Epoch × ReplOp)}
    (hf : s'.fences = s.fences.extend (s.decide_batch batch).advanced)
    (hl : s'.logs = (s.apply_all (s.fresh batch)).logs)
    (ht : s'.truncated = (s.apply_all (s.fresh batch)).truncated) :
    Served s s' (s.passed batch) (s.fresh batch) := by
  have hadv := s.advance_batch batch
  refine ⟨hadv.above, hadv.sub, fun p hp => ?_, fun g => ?_, hl, ht⟩
  · simpa using (List.mem_filter.mp hp).2
  · rw [fence_of_extend hf]
    rcases hg : (s.decide_batch batch).advanced[g]? with _ | e
    · exact Nat.le_refl _
    · exact hadv.up g e hg

theorem served_batch (io : Nat → Bool) (s : ReplicaState) (batch : List (Epoch × ReplOp)) :
    ∃ ops, Served s (s.apply_batch io batch).2 (acceptedOps batch (s.apply_batch io batch).1)
      ops := by
  obtain ⟨h1, h2, -⟩ := s.decide_batch_spec batch
  unfold apply_batch commit_decided
  simp only
  split
  · rename_i he
    rw [List.isEmpty_iff, h2] at he
    rw [h1, acceptedOps_verdicts]
    refine ⟨_, served_moved rfl ?_ ?_⟩
    · rw [he]
      rfl
    · rw [he]
      rfl
  · rcases hok : (s.persist_batch io (s.unpersisted (s.decide_batch batch).advanced)
      (s.decide_batch batch).to_persist).1 with _ | _
    · simp only [Bool.false_eq_true, if_false]
      rw [acceptedOps_failed]
      exact ⟨[], served_nothing (fun g => Nat.le_refl _) rfl rfl⟩
    · simp only [if_true]
      rw [h1, acceptedOps_verdicts, apply_accepted_eq, h2]
      refine ⟨_, served_moved (apply_all_frame _ _).1 ?_ ?_⟩
      · refine (apply_all_congr ?_ ?_ _).1 <;> rfl
      · refine (apply_all_congr ?_ ?_ _).2 <;> rfl

theorem served_batch_sharded (io : Nat → Bool) (s : ReplicaState) (shard : Nat)
    (batch : List (Epoch × ReplOp)) :
    ∃ ops, Served s (s.apply_batch_sharded io shard batch).2
      (acceptedOps batch (s.apply_batch_sharded io shard batch).1) ops := by
  obtain ⟨h1, h2, -⟩ := s.decide_batch_spec batch
  have hplan := s.decide_shard_plan shard batch
  unfold apply_batch_sharded
  simp only [hplan]
  split
  · rename_i he
    rw [List.isEmpty_iff] at he
    change ∃ ops, Served s _ (acceptedOps batch (s.decide_batch batch).accepted) ops
    rw [h1, acceptedOps_verdicts]
    refine ⟨_, served_moved rfl ?_ ?_⟩
    · rw [he]
      rfl
    · rw [he]
      rfl
  · rcases hc : s.commit_flight io (s.decide_shard shard batch) with ⟨ok, c⟩
    have hframe : c.fences = s.fences ∧ c.logs = s.logs ∧ c.truncated = s.truncated := by
      unfold commit_flight at hc
      split at hc
      · split at hc <;> cases hc <;> exact ⟨rfl, rfl, rfl⟩
      · cases hc
        exact ⟨rfl, rfl, rfl⟩
    obtain ⟨hcf, hcl, hct⟩ := hframe
    cases ok with
    | false =>
      simp only [Bool.false_eq_true, if_false]
      rw [acceptedOps_failed]
      exact ⟨[], served_nothing (fun g => by rw [fence_of, fence_of, hcf]) hcl hct⟩
    | true =>
      simp only [if_true, install_flight]
      change ∃ ops, Served s (apply_accepted _ batch (s.decide_batch batch))
        (acceptedOps batch (s.decide_batch batch).accepted) ops
      rw [h1, acceptedOps_verdicts, apply_accepted_eq, h2]
      refine ⟨_, served_moved ?_ ?_ ?_⟩
      · rw [(apply_all_frame _ _).1]
        exact congrArg (fun f : Fences => f.extend (s.decide_batch batch).advanced) hcf
      · exact (apply_all_congr (by exact hcl) (by exact hct) _).1
      · exact (apply_all_congr (by exact hcl) (by exact hct) _).2

theorem served_raise_fences (io : Nat → Bool) (s : ReplicaState) (floor : Epoch) :
    Served s (s.raise_fences io floor).2 [] [] := by
  unfold raise_fences
  simp only
  split
  · exact served_nothing (fun g => Nat.le_refl _) rfl rfl
  · split
    · refine served_nothing (fun g => ?_) rfl rfl
      refine le_of_le_of_eq ?_ (fence_of_extend rfl g).symm
      rcases hg : (((List.range NUM_GROUPS).filter (fun g => s.fence_of g < floor)).foldl
        (fun (m : Fences) g => m.insert g floor) ∅)[g]? with _ | e
      · exact Nat.le_refl _
      · obtain ⟨rfl, hlt, -⟩ := s.get_raised floor g hg
        exact Nat.le_of_lt hlt
    · exact served_nothing (fun g => Nat.le_refl _) rfl rfl

theorem served_call (io : Nat → Bool) (s : ReplicaState) (c : Call) :
    ∃ ops, Served s (s.call io c).2 (s.call io c).1 ops := by
  have hone : ∀ epoch op, ∃ ops, Served s (s.apply io epoch op).2
      (if (s.apply io epoch op).1 then [(epoch, op)] else []) ops := by
    intro epoch op
    have h := s.served_batch io [(epoch, op)]
    rw [apply_eq_batch] at h
    rcases hok : (s.apply io epoch op).1 with _ | _
    · rw [hok] at h
      exact h
    · rw [hok] at h
      exact h
  cases c with
  | Apply epoch op => exact hone epoch op
  | ApplyBatch batch => exact s.served_batch io batch
  | ApplyBatchSharded shard batch => exact s.served_batch_sharded io shard batch
  | RaiseFences floor => exact ⟨[], s.served_raise_fences io floor⟩
  | Forget key => exact hone _ _

/-! ## What becomes of an entry -/

/-- The offset is truncated, or holds an entry that passes. -/
def Covered (s : ReplicaState) (key : String) (offset : Offset) (P : Stored → Prop) : Prop :=
  (∃ v, held s.logs key offset = some v ∧ P v) ∨ offset ≤ s.watermark key

variable {key : String} {offset : Offset} {P : Stored → Prop}

theorem covered_apply_in_memory (h : s.Covered key offset P) {p : Epoch × ReplOp}
    (hr : p.2 ≠ .Remove key) (hp : ∀ q r, p.2 = .Append key offset q r → P (tag p.1 q, r)) :
    (s.apply_in_memory p.1 p.2).Covered key offset P := by
  have hslot := s.held_apply_in_memory p key offset
  have hlow := s.truncated_apply_in_memory p key
  unfold Covered
  rw [hslot, watermark, hlow]
  obtain ⟨e, op⟩ := p
  cases op with
  | Append k o q r =>
    simp only [slotStep, slotEvent, lowStep]
    by_cases hk : k = key ∧ o = offset
    · obtain ⟨rfl, rfl⟩ := hk
      simp only [and_self, if_true, Option.getD_some]
      exact Or.inl ⟨_, rfl, hp q r rfl⟩
    · rw [if_neg hk]
      exact h
  | Truncate k u =>
    simp only [slotStep, slotEvent, lowStep]
    by_cases hk : k = key
    · simp only [hk, true_and, if_true, Option.getD_some]
      by_cases ho : offset ≤ u
      · exact Or.inr (Nat.le_trans ho (Nat.le_max_right _ _))
      · rw [if_neg ho]
        rcases h with h | h
        · exact Or.inl h
        · exact Or.inr (Nat.le_trans h (Nat.le_max_left _ _))
    · simp only [hk, false_and, if_false, Option.getD_none]
      exact h
  | Remove k =>
    have hk : k ≠ key := fun hk => hr (by rw [hk])
    simp only [slotStep, slotEvent, lowStep, hk, if_false, Option.getD_none]
    exact h

variable {ops : List (Epoch × ReplOp)}

theorem covered_apply_all (h : s.Covered key offset P) (hr : ∀ p ∈ ops, p.2 ≠ .Remove key)
    (hp : ∀ p ∈ ops, ∀ q r, p.2 = .Append key offset q r → P (tag p.1 q, r)) :
    (s.apply_all ops).Covered key offset P := by
  induction ops generalizing s with
  | nil => exact h
  | cons p ops ih =>
    refine ih ?_ (fun q hq => hr q (List.mem_cons_of_mem p hq))
      (fun q hq => hp q (List.mem_cons_of_mem p hq))
    exact covered_apply_in_memory h (hr p List.mem_cons_self) (hp p List.mem_cons_self)

theorem watermark_apply_all (s : ReplicaState) (hr : ∀ p ∈ ops, p.2 ≠ .Remove key) :
    s.watermark key ≤ (s.apply_all ops).watermark key := by
  induction ops generalizing s with
  | nil => exact Nat.le_refl _
  | cons p ops ih =>
    refine Nat.le_trans ?_ (ih (s.apply_in_memory p.1 p.2)
      (fun q hq => hr q (List.mem_cons_of_mem p hq)))
    have hlow := s.truncated_apply_in_memory p key
    rw [watermark, watermark, hlow]
    have hp := hr p List.mem_cons_self
    obtain ⟨e, op⟩ := p
    cases op with
    | Append k o q r => exact Nat.le_refl _
    | Truncate k u =>
      simp only [lowStep]
      split
      · exact Nat.le_max_left _ _
      · exact Nat.le_refl _
    | Remove k =>
      have hk : k ≠ key := fun hk => hp (by rw [hk])
      simp only [lowStep, if_neg hk]
      exact Nat.le_refl _

theorem served_covered {passed : List (Epoch × ReplOp)} (hs : Served s s' passed ops)
    (since : Epoch) (hf : since < s.fence_for_key key)
    (hP : ∀ v e q r, P v → since < e → v.1 ≤ tag e q → P (tag e q, r))
    (h : s.Covered key offset P) :
    s'.Covered key offset P ∨ ∃ e, since < e ∧ (e, ReplOp.Remove key) ∈ passed := by
  have habove : ∀ p ∈ ops, op_key p.2 = key → since < p.1 := by
    intro p hp hk
    have hle := hs.above p (hs.sub p hp)
    rw [op_group, hk] at hle
    exact Nat.lt_of_lt_of_le hf hle
  by_cases hr : ∃ e, (e, ReplOp.Remove key) ∈ ops
  · obtain ⟨e, he⟩ := hr
    exact Or.inr ⟨e, habove _ he rfl, hs.sub _ he⟩
  · left
    have hno : ∀ p ∈ ops, p.2 ≠ .Remove key := by
      rintro ⟨e, op⟩ hp rfl
      exact hr ⟨e, hp⟩
    unfold Covered
    rw [watermark, hs.logs, hs.truncated]
    rcases h with ⟨v, hv, hPv⟩ | hlow
    · refine covered_apply_all (Or.inl ⟨v, hv, hPv⟩) hno (fun p hp q r heq => ?_)
      -- An append that is not stale has a tag that is not below the one it finds.
      have hfresh := hs.fresh p hp
      have hp1 := habove p hp (by rw [heq]; rfl)
      rw [heq] at hfresh
      refine hP v p.1 q r hPv hp1 (le_of_not_gt (fun hlt => ?_))
      have hstale : s.is_stale_attempt p.1 (.Append key offset q r) = true := by
        simp [is_stale_attempt, hv, hlt]
      rw [hstale] at hfresh
      cases hfresh
    · exact Or.inr (Nat.le_trans hlow (s.watermark_apply_all hno))

/-! ## Runs of calls -/

/-- The state after some calls. `io` says of each shard whether its commit succeeds. -/
def serve (s : ReplicaState) (calls : List ((Nat → Bool) × Call)) : ReplicaState :=
  calls.foldl (fun s c => (s.call c.1 c.2).2) s

/-- One of the calls removes the key, at an epoch above `since`. -/
def Removes (since : Epoch) (key : String) : ReplicaState → List ((Nat → Bool) × Call) → Prop
  | _, [] => False
  | s, c :: calls => (∃ e, since < e ∧ (e, ReplOp.Remove key) ∈ (s.call c.1 c.2).1) ∨
      Removes since key (s.call c.1 c.2).2 calls

theorem serve_append (s : ReplicaState) (calls more : List ((Nat → Bool) × Call)) :
    s.serve (calls ++ more) = (s.serve calls).serve more := List.foldl_append

theorem removes_append (since : Epoch) (key : String) (s : ReplicaState)
    (calls more : List ((Nat → Bool) × Call)) :
    Removes since key s (calls ++ more) ↔
      Removes since key s calls ∨ Removes since key (s.serve calls) more := by
  induction calls generalizing s with
  | nil => exact (or_iff_right id).symm
  | cons c calls ih =>
    rw [List.cons_append, Removes, Removes, ih, or_assoc]
    rfl

/-- The fences never go down. -/
theorem serve_fence (s : ReplicaState) (calls : List ((Nat → Bool) × Call)) (g : GroupId) :
    s.fence_of g ≤ (s.serve calls).fence_of g := by
  induction calls generalizing s with
  | nil => exact Nat.le_refl _
  | cons c calls ih =>
    obtain ⟨ops, hs⟩ := s.served_call c.1 c.2
    exact Nat.le_trans (hs.fences g) (ih _)

theorem serve_covered (calls : List ((Nat → Bool) × Call)) {since : Epoch}
    (hf : since < s.fence_for_key key)
    (hP : ∀ v e q r, P v → since < e → v.1 ≤ tag e q → P (tag e q, r))
    (h : s.Covered key offset P) :
    (s.serve calls).Covered key offset P ∨ Removes since key s calls := by
  induction calls generalizing s with
  | nil => exact Or.inl h
  | cons c calls ih =>
    obtain ⟨ops, hs⟩ := s.served_call c.1 c.2
    rcases served_covered hs since hf hP h with h | hr
    · rcases ih (Nat.lt_of_lt_of_le hf (hs.fences _)) h with h | hr
      · exact Or.inl h
      · exact Or.inr (Or.inr hr)
    · exact Or.inr (Or.inl hr)

end ReplicaState

end mqtt_cluster.cluster_log
