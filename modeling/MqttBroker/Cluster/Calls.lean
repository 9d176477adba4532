-- The calls on a replica with a store, each with every commit of it succeeding
-- or none. A call leaves the state as it was, learns fences from stale attempts,
-- or commits its ops and installs them.
import MqttBroker.Cluster.BatchLaws
import MqttBroker.Cluster.Reload

namespace mqtt_cluster.cluster_log

open placement

/-! ## The fences that a batch advances -/

theorem established_isSome (ops : List (Epoch × ReplOp)) (m : Fences) (g : GroupId)
    (h : (m[g]?).isSome = true) : ((established m ops)[g]?).isSome = true := by
  induction ops generalizing m with
  | nil => exact h
  | cons p ops ih =>
    refine ih _ ?_
    rw [BTreeMap.get_insert]
    split
    · rfl
    · exact h

theorem established_group (ops : List (Epoch × ReplOp)) (m : Fences) {g : GroupId} {e : Epoch}
    (h : (established m ops)[g]? = some e) : m[g]? = some e ∨ ∃ p ∈ ops, op_group p.2 = g := by
  induction ops generalizing m with
  | nil => exact Or.inl h
  | cons p ops ih =>
    rcases ih _ h with hm | ⟨q, hq, hg⟩
    · rw [BTreeMap.get_insert] at hm
      split at hm
      · rename_i hpg
        exact Or.inr ⟨p, List.mem_cons_self, hpg⟩
      · exact Or.inl hm
    · exact Or.inr ⟨q, List.mem_cons_of_mem p hq, hg⟩

variable (batch : List (Epoch × ReplOp)) (fence : GroupId → Epoch)

theorem passes_ordered :
    (∀ p ∈ passes fence batch, fence (op_group p.2) ≤ p.1) ∧
      (passes fence batch).Pairwise (fun p q => op_group p.2 = op_group q.2 → p.1 ≤ q.1) := by
  induction batch generalizing fence with
  | nil => simp [passes]
  | cons p batch ih =>
    unfold passes
    split
    · exact ih fence
    · rename_i hp
      obtain ⟨h1, h2⟩ := ih (raised fence p)
      have hrest : ∀ q ∈ passes (raised fence p) batch, op_group p.2 = op_group q.2 → p.1 ≤ q.1 := by
        intro q hq hg
        have hle := h1 q hq
        rwa [raised, ← hg, Function.update_self] at hle
      refine ⟨?_, List.pairwise_cons.mpr ⟨hrest, h2⟩⟩
      intro q hq
      rcases List.mem_cons.mp hq with rfl | hq
      · exact Nat.le_of_not_gt hp
      · by_cases hg : op_group q.2 = op_group p.2
        · rw [hg]
          exact Nat.le_trans (Nat.le_of_not_gt hp) (hrest q hq hg.symm)
        · have hle := h1 q hq
          rwa [raised, Function.update_of_ne hg] at hle

theorem mem_of_mem_passes {fence : GroupId → Epoch} {batch : List (Epoch × ReplOp)}
    {p : Epoch × ReplOp} (h : p ∈ passes fence batch) : p ∈ batch := by
  induction batch generalizing fence with
  | nil => exact h
  | cons q batch ih =>
    unfold passes at h
    split at h
    · exact List.mem_cons_of_mem q (ih h)
    · rcases List.mem_cons.mp h with rfl | h
      · exact List.mem_cons_self
      · exact List.mem_cons_of_mem q (ih h)

theorem established_ge (m : Fences) {g : GroupId} {e : Epoch}
    (h : (established m (passes fence batch))[g]? = some e) : m[g]? = some e ∨ fence g ≤ e := by
  induction batch generalizing fence m with
  | nil => exact Or.inl h
  | cons p batch ih =>
    unfold passes at h
    split at h
    · exact ih _ _ h
    · rename_i hp
      rcases ih _ _ h with hm | hle
      · rw [BTreeMap.get_insert] at hm
        split at hm
        · rename_i hg
          cases hm
          subst hg
          exact Or.inr (Nat.le_of_not_gt hp)
        · exact Or.inl hm
      · unfold raised at hle
        rw [Function.update_apply] at hle
        split at hle
        · rename_i hg
          subst hg
          exact Or.inr (Nat.le_trans (Nat.le_of_not_gt hp) hle)
        · exact Or.inr hle

theorem established_covers (m : Fences) :
    ∀ p ∈ passes fence batch, ∃ e,
      (established m (passes fence batch))[op_group p.2]? = some e ∧ p.1 ≤ e := by
  induction batch generalizing fence m with
  | nil => simp [passes]
  | cons p batch ih =>
    unfold passes
    split
    · exact ih _ _
    · intro q hq
      rcases List.mem_cons.mp hq with rfl | hq
      · have hsome : ((m.insert (op_group q.2) q.1)[op_group q.2]?).isSome = true := by simp
        have hest := established_isSome (passes (raised fence q) batch) _ _ hsome
        obtain ⟨e, he⟩ := Option.isSome_iff_exists.mp hest
        refine ⟨e, he, ?_⟩
        rcases established_ge batch _ _ he with hm | hle
        · rw [BTreeMap.get_insert, if_pos rfl] at hm
          cases hm
          exact Nat.le_refl _
        · simpa [raised] using hle
      · exact ih _ _ q hq

namespace ReplicaState

/-! ## What a call can do -/

/-- The fences and the ops of a call that goes through. -/
structure Advance (s : ReplicaState) (advanced : Fences) (passed ops : List (Epoch × ReplOp)) :
    Prop where
  up : ∀ (g : GroupId) e, advanced[g]? = some e → s.fence_of g ≤ e
  covers : ∀ p ∈ passed, ∃ e, advanced[op_group p.2]? = some e ∧ p.1 ≤ e
  sub : ∀ p ∈ ops, p ∈ passed
  stale : ∀ p ∈ passed, p ∈ ops ∨ s.is_stale_attempt p.1 p.2 = true
  above : ∀ p ∈ passed, s.fence_of (op_group p.2) ≤ p.1
  ordered : passed.Pairwise (fun p q => op_group p.2 = op_group q.2 → p.1 ≤ q.1)

/-- The state after a call that committed its ops and its fences. -/
structure Moved (s s' : ReplicaState) (advanced : Fences) (ops : List (Epoch × ReplOp)) :
    Prop where
  fences : s'.fences = s.fences.extend advanced
  persisted : s'.persisted_fences = s.persisted_fences.extend (s.unpersisted advanced)
  logs : s'.logs = (s.apply_all ops).logs
  truncated : s'.truncated = (s.apply_all ops).truncated
  length : s'.dbs.length = s.dbs.length
  disk : ∀ i : Nat, s'.dbs[i]?.map Shard.load =
    s.dbs[i]?.map (fun db => drive_plan (s.share (s.unpersisted advanced) ops i) db.load)

/-- What a call can leave, with the fences it moved, the ops it accepted and the ops it
persisted. -/
inductive Outcome (s : ReplicaState) :
    ReplicaState → Fences → List (Epoch × ReplOp) → List (Epoch × ReplOp) → Prop
  | unchanged : Outcome s s ∅ [] []
  | learned (advanced : Fences) (passed : List (Epoch × ReplOp)) : Advance s advanced passed [] →
      Outcome s { s with fences := s.fences.extend advanced } advanced passed []
  | moved (s' : ReplicaState) (advanced : Fences) (passed ops : List (Epoch × ReplOp)) :
      Advance s advanced passed ops → Moved s s' advanced ops → Outcome s s' advanced passed ops

/-- The fences of `advanced` are among those of the ops of the batch that no fence refuses. -/
def MovesFor (s : ReplicaState) (batch : List (Epoch × ReplOp)) (advanced : Fences) : Prop :=
  ∀ (g : GroupId) e, advanced[g]? = some e → (established ∅ (s.passed batch))[g]? = some e

variable (b : Bool) (s : ReplicaState) (batch : List (Epoch × ReplOp))

theorem movesFor_empty : s.MovesFor batch ∅ := by
  intro g e h
  simp at h

theorem movesFor_decided : s.MovesFor batch (s.decide_batch batch).advanced := by
  intro g e h
  rwa [(s.decide_batch_spec batch).2.2] at h

theorem advance_batch :
    Advance s (s.decide_batch batch).advanced (s.passed batch) (s.fresh batch) := by
  rw [(s.decide_batch_spec batch).2.2]
  obtain ⟨habove, hordered⟩ := passes_ordered batch s.fence_of
  refine ⟨fun g e h => ?_, established_covers batch _ _, fun p hp => List.mem_of_mem_filter hp, ?_,
    habove, hordered⟩
  · rcases established_ge batch _ _ h with hm | hle
    · simp at hm
    · exact hle
  · intro p hp
    by_cases hs : s.is_stale_attempt p.1 p.2 = true
    · exact Or.inr hs
    · exact Or.inl (List.mem_filter.mpr ⟨hp, by simpa using hs⟩)

/-- The ops of a batch with the verdict `true`. -/
def acceptedOps (batch : List (Epoch × ReplOp)) (oks : List Bool) : List (Epoch × ReplOp) :=
  ((batch.zip oks).filter (fun x => x.2)).map (fun x => x.1)

theorem acceptedOps_verdicts (fence : GroupId → Epoch) (batch : List (Epoch × ReplOp)) :
    acceptedOps batch (verdicts fence batch) = passes fence batch := by
  induction batch generalizing fence with
  | nil => rfl
  | cons p batch ih =>
    unfold verdicts passes
    split
    · exact ih fence
    · exact congrArg (p :: ·) (ih (raised fence p))

theorem acceptedOps_failed : acceptedOps batch (List.replicate batch.length false) = [] := by
  induction batch with
  | nil => rfl
  | cons p batch ih => exact ih

theorem outcome_apply_batch (hne : 0 < s.dbs.length) :
    ∃ advanced ops, s.MovesFor batch advanced ∧ (ops = [] ∨ b = true ∧ ops = s.fresh batch) ∧
      Outcome s (s.apply_batch (fun _ => b) batch).2 advanced
        (acceptedOps batch (s.apply_batch (fun _ => b) batch).1) ops := by
  obtain ⟨h1, h2, -⟩ := s.decide_batch_spec batch
  have hadv := s.advance_batch batch
  have hmoves := s.movesFor_decided batch
  unfold apply_batch commit_decided
  simp only
  split
  · rename_i he
    rw [List.isEmpty_iff, h2] at he
    rw [he] at hadv
    rw [h1, acceptedOps_verdicts]
    exact ⟨_, [], hmoves, Or.inl rfl, .learned _ _ hadv⟩
  · rcases hok : (s.persist_batch (fun _ => b) (s.unpersisted (s.decide_batch batch).advanced)
      (s.decide_batch batch).to_persist).1 with _ | _
    · have hb : b = false := by
        cases b with
        | false => rfl
        | true =>
          rw [persist_batch_succeeds] at hok
          cases hok
      subst hb
      simp only [Bool.false_eq_true, if_false]
      rw [s.persist_batch_failed _ _ hok, acceptedOps_failed]
      exact ⟨∅, [], s.movesFor_empty batch, Or.inl rfl, .unchanged⟩
    · simp only [if_true]
      rw [h1, acceptedOps_verdicts, apply_accepted_eq, h2]
      rw [h2] at hok
      have hb : b = true := by
        cases b with
        | true => rfl
        | false =>
          rw [s.persist_batch_fails _ _ hne] at hok
          · cases hok
          · rename_i he
            rwa [List.isEmpty_iff, h2] at he
      refine ⟨_, s.fresh batch, hmoves, Or.inr ⟨hb, rfl⟩, .moved _ _ _ _ hadv ?_⟩
      have hload := s.load_persist_batch (s.unpersisted (s.decide_batch batch).advanced)
        (s.fresh batch) hok
      obtain ⟨f1, f2, f3⟩ := apply_all_frame { s with
        dbs := (s.persist_batch (fun _ => b) (s.unpersisted (s.decide_batch batch).advanced)
          (s.fresh batch)).2
        persisted_fences := s.persisted_fences.extend (s.unpersisted (s.decide_batch batch).advanced)
        fences := s.fences.extend (s.decide_batch batch).advanced } (s.fresh batch)
      refine ⟨f1, f2, ?_, ?_, ?_, ?_⟩
      · refine (apply_all_congr ?_ ?_ _).1 <;> rfl
      · refine (apply_all_congr ?_ ?_ _).2 <;> rfl
      · rw [f3]
        exact s.persist_batch_length _ _ _
      · rw [f3]
        exact hload

/-! ## One op is a batch of one -/

theorem extend_single (m : Fences) (g : GroupId) (e : Epoch) :
    m.extend ((∅ : Fences).insert g e) = m.insert g e := by
  ext g' : 1
  simp only [BTreeMap.get_extend, BTreeMap.get_insert, BTreeMap.get_empty]
  split <;> simp

theorem apply_eq_batch (io : Nat → Bool) (s : ReplicaState) (epoch : Epoch) (op : ReplOp) :
    s.apply_batch io [(epoch, op)] = ([(s.apply io epoch op).1], (s.apply io epoch op).2) := by
  have hrun : ((∅ : Fences)[op_group op]?.or s.fences[op_group op]?).getD 0 =
      s.fence_of (op_group op) := by simp [fence_of]
  unfold apply_batch decide_batch
  rw [List.foldl_cons, List.foldl_nil]
  by_cases hf : epoch < s.fence_of (op_group op)
  · have hd : s.decide_op {} (epoch, op) = { accepted := [false], stale := [false] } :=
      if_pos (hrun.symm ▸ hf)
    have he : s.fences.extend ∅ = s.fences := by
      ext g : 1
      simp [BTreeMap.get_extend]
    rw [hd, apply, if_pos hf]
    simp [commit_decided, he]
  · by_cases hs : s.is_stale_attempt epoch op = true
    · have hd : s.decide_op {} (epoch, op) =
          { accepted := [true], stale := [true], advanced := (∅ : Fences).insert (op_group op) epoch } :=
        (if_neg (hrun.symm ▸ hf)).trans (if_pos hs)
      rw [hd, apply, if_neg hf, if_pos hs, Nat.max_eq_left (Nat.le_of_not_gt hf)]
      simp [commit_decided, extend_single]
    · have hd : s.decide_op {} (epoch, op) =
          { accepted := [true], stale := [false], advanced := (∅ : Fences).insert (op_group op) epoch
            to_persist := [(epoch, op)] } :=
        (if_neg (hrun.symm ▸ hf)).trans (if_neg hs)
      rw [hd, apply, if_neg hf, if_neg hs]
      simp only [commit_decided, List.isEmpty_cons, Bool.false_eq_true, if_false, extend_single]
      split <;> rfl

/-! ## The batch of one shard's writer -/

theorem share_routed {fences : Fences} {ops : List (Epoch × ReplOp)} {shard : Nat}
    (hf : ∀ (g : GroupId) e, fences[g]? = some e → shard_of_group g s.dbs.length = shard)
    (ho : ∀ p ∈ ops, shard_of_group (op_group p.2) s.dbs.length = shard) (i : Nat) :
    s.share fences ops i =
      if i = shard then { advanced := fences, ops := ops, watermarks := s.lows ops } else {} := by
  unfold share
  by_cases hi : i = shard
  · subst hi
    rw [if_pos rfl, BTreeMap.filter_eq_self _ _ (fun g e h => by simp [hf g e h]),
      List.filter_eq_self.mpr (fun p hp => by simp [ho p hp])]
  · rw [if_neg hi, BTreeMap.filter_eq_empty _ _ (fun g e h => by simp [hf g e h, Ne.symm hi]),
      List.filter_eq_nil_iff.mpr (fun p hp => by simp [ho p hp, Ne.symm hi])]
    rfl

theorem decide_shard_plan (shard : Nat) (batch : List (Epoch × ReplOp)) :
    (s.decide_shard shard batch).plan =
      { advanced := s.unpersisted (s.decide_batch batch).advanced
        ops := s.fresh batch, watermarks := s.lows (s.fresh batch) } := by
  simp only [decide_shard]
  rw [s.foldl_plan_op_eq, (s.decide_batch_spec batch).2.1]

theorem decide_shard_stored {shard : Nat} {batch : List (Epoch × ReplOp)} (hne : 0 < s.dbs.length)
    (hr : ∀ p ∈ batch, shard_of_group (op_group p.2) s.dbs.length = shard)
    (h : ¬ (s.decide_shard shard batch).plan.ops.isEmpty = true) :
    shard < s.dbs.length ∧ (s.decide_shard shard batch).db = true := by
  have hshard : shard < s.dbs.length := by
    rw [decide_shard_plan] at h
    rcases hops : s.fresh batch with _ | ⟨p, ops⟩
    · simp [hops] at h
    · have hp : p ∈ s.fresh batch := by
        rw [hops]
        exact List.mem_cons_self
      rw [← hr p (mem_of_mem_passes ((s.advance_batch batch).sub p hp))]
      exact shard_of_group_lt _ hne
  exact ⟨hshard, by simp [decide_shard, hshard]⟩

theorem unpersisted_routed {shard : Nat} {batch : List (Epoch × ReplOp)}
    (hr : ∀ p ∈ batch, shard_of_group (op_group p.2) s.dbs.length = shard) {g : GroupId}
    {e : Epoch} (h : (s.unpersisted (s.decide_batch batch).advanced)[g]? = some e) :
    (s.decide_batch batch).advanced[g]? = some e ∧ shard_of_group g s.dbs.length = shard := by
  rw [unpersisted, BTreeMap.get_filter, Option.filter_eq_some_iff] at h
  refine ⟨h.1, ?_⟩
  have hest := h.1
  rw [(s.decide_batch_spec batch).2.2] at hest
  rcases established_group _ _ hest with hm | ⟨p, hp, rfl⟩
  · simp at hm
  · exact hr p (mem_of_mem_passes hp)

/-- A batch routed to its shard: the commit of the shard is the share of the shard, and no
other shard has one. -/
theorem outcome_apply_batch_sharded (shard : Nat) (batch : List (Epoch × ReplOp))
    (hne : 0 < s.dbs.length)
    (hr : ∀ p ∈ batch, shard_of_group (op_group p.2) s.dbs.length = shard) :
    ∃ advanced ops, s.MovesFor batch advanced ∧ (ops = [] ∨ b = true ∧ ops = s.fresh batch) ∧
      Outcome s (s.apply_batch_sharded (fun _ => b) shard batch).2 advanced
        (acceptedOps batch (s.apply_batch_sharded (fun _ => b) shard batch).1) ops := by
  obtain ⟨h1, h2, -⟩ := s.decide_batch_spec batch
  have hadv := s.advance_batch batch
  have hmoves := s.movesFor_decided batch
  have hfresh : ∀ p ∈ s.fresh batch, p ∈ batch := fun p hp => mem_of_mem_passes (hadv.sub p hp)
  have hplan := s.decide_shard_plan shard batch
  unfold apply_batch_sharded
  simp only [hplan]
  split
  · rename_i he
    rw [List.isEmpty_iff] at he
    rw [he] at hadv
    refine ⟨_, [], hmoves, Or.inl rfl, ?_⟩
    change Outcome s _ _ (acceptedOps batch (s.decide_batch batch).accepted) []
    rw [h1, acceptedOps_verdicts]
    exact .learned _ _ hadv
  · rename_i he
    obtain ⟨-, hdb⟩ := s.decide_shard_stored hne hr (by rw [hplan]; exact he)
    cases b with
    | false =>
      have hc : s.commit_flight (fun _ => false) (s.decide_shard shard batch) = (false, s) := by
        simp [commit_flight, hdb]
      rw [hc]
      simp only [Bool.false_eq_true, if_false]
      rw [acceptedOps_failed]
      exact ⟨∅, [], s.movesFor_empty batch, Or.inl rfl, .unchanged⟩
    | true =>
      have hc : s.commit_flight (fun _ => true) (s.decide_shard shard batch) =
          (true, { s with
            dbs := s.dbs.modify shard (commit_shard · (s.decide_shard shard batch).plan) }) := by
        rw [commit_flight, if_pos hdb, if_pos rfl]
        rfl
      rw [hc]
      simp only [if_true, install_flight, hdb]
      change ∃ advanced ops, _ ∧ _ ∧
        Outcome s _ advanced (acceptedOps batch (s.decide_batch batch).accepted) ops
      rw [h1, acceptedOps_verdicts]
      refine ⟨_, s.fresh batch, hmoves, Or.inr ⟨trivial, rfl⟩,
        .moved _ (s.decide_batch batch).advanced _ _ hadv ?_⟩
      have happly := fun s' : ReplicaState => apply_accepted_eq s s' batch
      rw [h2] at happly
      change Moved s (apply_accepted _ batch (s.decide_batch batch)) _ _
      rw [happly]
      obtain ⟨f1, f2, f3⟩ := apply_all_frame { s with
        dbs := s.dbs.modify shard (commit_shard · (s.decide_shard shard batch).plan)
        persisted_fences := s.persisted_fences.extend (s.decide_shard shard batch).plan.advanced
        fences := s.fences.extend (s.decide_shard shard batch).decision.advanced } (s.fresh batch)
      refine ⟨f1, ?_, ?_, ?_, ?_, ?_⟩
      · rw [f2, hplan]
      · refine (apply_all_congr ?_ ?_ _).1 <;> rfl
      · refine (apply_all_congr ?_ ?_ _).2 <;> rfl
      · rw [f3]
        simp
      · intro i
        have hadvg : ∀ (g : GroupId) e, (s.unpersisted (s.decide_batch batch).advanced)[g]? = some e →
            shard_of_group g s.dbs.length = shard := fun g e hge =>
          (s.unpersisted_routed hr hge).2
        rw [f3, s.share_routed hadvg (fun p hp => hr p (hfresh p hp)), ← hplan]
        simp only [List.getElem?_modify]
        by_cases hi : shard = i
        · simp only [hi, if_true]
          rcases s.dbs[i]? with _ | db
          · rfl
          · simp [load_commit_shard]
        · simp only [hi, Ne.symm hi, if_false]
          rcases s.dbs[i]? with _ | db
          · rfl
          · simp

/-! ## Raised fences -/

theorem get_raised (floor : Epoch) (g : GroupId) {e : Epoch}
    (h : ((((List.range NUM_GROUPS).filter (fun g => s.fence_of g < floor)).foldl
      (fun (m : Fences) g => m.insert g floor) ∅))[g]? = some e) :
    e = floor ∧ s.fence_of g < floor ∧ g < NUM_GROUPS := by
  have hfold : ∀ (gs : List GroupId) (m : Fences),
      (gs.foldl (fun (m : Fences) g => m.insert g floor) m)[g]? = some e →
      m[g]? = some e ∨ e = floor ∧ g ∈ gs := by
    intro gs
    induction gs with
    | nil => exact fun m h => Or.inl h
    | cons a gs ih =>
      intro m h
      rcases ih _ h with hm | ⟨he, hg⟩
      · rw [BTreeMap.get_insert] at hm
        split at hm
        · rename_i hag
          cases hm
          exact Or.inr ⟨rfl, by simp [hag]⟩
        · exact Or.inl hm
      · exact Or.inr ⟨he, List.mem_cons_of_mem a hg⟩
  rcases hfold _ _ h with hm | ⟨he, hg⟩
  · simp at hm
  · rw [List.mem_filter, List.mem_range] at hg
    exact ⟨he, by simpa using hg.2, hg.1⟩

theorem outcome_raise_fences (floor : Epoch) :
    ∃ advanced : Fences, (∀ (g : GroupId) e, advanced[g]? = some e →
        e = floor ∧ s.fence_of g < floor ∧ g < NUM_GROUPS) ∧
      Outcome s (s.raise_fences (fun _ => b) floor).2 advanced [] [] := by
  have hnone : ∀ (g : GroupId) e, (∅ : Fences)[g]? = some e →
      e = floor ∧ s.fence_of g < floor ∧ g < NUM_GROUPS := by simp
  unfold raise_fences
  simp only
  split
  · exact ⟨∅, hnone, .unchanged⟩
  · generalize hadv : ((List.range NUM_GROUPS).filter (fun g => s.fence_of g < floor)).foldl
      (fun (m : Fences) g => m.insert g floor) ∅ = advanced
    rcases hok : (s.persist_batch (fun _ => b) (s.unpersisted advanced) []).1 with _ | _
    · have hb : b = false := by
        cases b with
        | false => rfl
        | true =>
          rw [persist_batch_succeeds] at hok
          cases hok
      subst hb
      simp only [Bool.false_eq_true, if_false]
      rw [s.persist_batch_failed _ _ hok]
      exact ⟨∅, hnone, .unchanged⟩
    · simp only [if_true]
      have hraised : ∀ (g : GroupId) e, advanced[g]? = some e →
          e = floor ∧ s.fence_of g < floor ∧ g < NUM_GROUPS := fun g e hge => by
        rw [← hadv] at hge
        exact s.get_raised floor g hge
      refine ⟨advanced, hraised,
        .moved _ advanced _ _ ⟨?_, by simp, by simp, by simp, by simp, by simp⟩ ?_⟩
      · intro g e hge
        obtain ⟨rfl, hlt, -⟩ := hraised g e hge
        exact Nat.le_of_lt hlt
      · exact ⟨rfl, rfl, rfl, rfl, s.persist_batch_length _ _ _, s.load_persist_batch _ _ hok⟩

/-! ## A call -/

inductive Call
  | Apply (epoch : Epoch) (op : ReplOp)
  | ApplyBatch (batch : List (Epoch × ReplOp))
  | ApplyBatchSharded (shard : Nat) (batch : List (Epoch × ReplOp))
  | RaiseFences (floor : Epoch)
  | Forget (key : String)

def callOps (s : ReplicaState) : Call → List (Epoch × ReplOp)
  | .Apply epoch op => [(epoch, op)]
  | .ApplyBatch batch => batch
  | .ApplyBatchSharded _ batch => batch
  | .RaiseFences _ => []
  | .Forget key => [(s.fence_for_key key, .Remove key)]

def call (io : Nat → Bool) (s : ReplicaState) : Call → List (Epoch × ReplOp) × ReplicaState
  | .Apply epoch op =>
    let (ok, s') := s.apply io epoch op
    (if ok then [(epoch, op)] else [], s')
  | .ApplyBatch batch =>
    let (oks, s') := s.apply_batch io batch
    (acceptedOps batch oks, s')
  | .ApplyBatchSharded shard batch =>
    let (oks, s') := s.apply_batch_sharded io shard batch
    (acceptedOps batch oks, s')
  | .RaiseFences floor => ([], (s.raise_fences io floor).2)
  | .Forget key =>
    let (ok, s') := s.forget io key
    (if ok then [(s.fence_for_key key, .Remove key)] else [], s')

/-- The epoch that a call takes the fence of a group to: the floor above the fence, or the
last epoch of its ops that no fence refuses. -/
def callMoves (s : ReplicaState) (c : Call) (g : GroupId) : Option Epoch :=
  match c with
  | .RaiseFences floor => if g < NUM_GROUPS ∧ s.fence_of g < floor then some floor else none
  | c => (established ∅ (s.passed (s.callOps c)))[g]?

/-- The sender routes a batch of a shard's writer by group. -/
def CallRouted (n : Nat) : Call → Prop
  | .ApplyBatchSharded shard batch => ∀ p ∈ batch, shard_of_group (op_group p.2) n = shard
  | _ => True

theorem outcome_apply (epoch : Epoch) (op : ReplOp) (hne : 0 < s.dbs.length) :
    ∃ advanced ops, s.MovesFor [(epoch, op)] advanced ∧
      (ops = [] ∨ b = true ∧ ops = s.fresh [(epoch, op)]) ∧
      Outcome s (s.apply (fun _ => b) epoch op).2 advanced
        (if (s.apply (fun _ => b) epoch op).1 then [(epoch, op)] else []) ops := by
  have h := s.outcome_apply_batch b [(epoch, op)] hne
  rw [apply_eq_batch] at h
  rcases hok : (s.apply (fun _ => b) epoch op).1 with _ | _
  · rw [hok] at h
    exact h
  · rw [hok] at h
    exact h

theorem call_outcome (c : Call) (hne : 0 < s.dbs.length) (hr : CallRouted s.dbs.length c) :
    ∃ advanced ops, (∀ (g : GroupId) e, advanced[g]? = some e → s.callMoves c g = some e) ∧
      (ops = [] ∨ b = true ∧ ops = s.fresh (s.callOps c)) ∧
      Outcome s (s.call (fun _ => b) c).2 advanced (s.call (fun _ => b) c).1 ops := by
  cases c with
  | Apply epoch op => exact s.outcome_apply b epoch op hne
  | ApplyBatch batch => exact s.outcome_apply_batch b batch hne
  | ApplyBatchSharded shard batch => exact s.outcome_apply_batch_sharded b shard batch hne hr
  | RaiseFences floor =>
    obtain ⟨advanced, hraised, ho⟩ := s.outcome_raise_fences b floor
    refine ⟨advanced, [], fun g e hge => ?_, Or.inl rfl, ho⟩
    obtain ⟨rfl, hlt, hg⟩ := hraised g e hge
    exact if_pos ⟨hg, hlt⟩
  | Forget key => exact s.outcome_apply b _ _ hne

end ReplicaState

end mqtt_cluster.cluster_log
