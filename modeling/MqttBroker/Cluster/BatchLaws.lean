-- A batch against its ops one by one. Both let the same ops pass the fences, and
-- leave the same fences and low-waters. The logs can differ: the batch judges a
-- stale append by the logs before the batch, `apply` by the logs it finds.
import MqttBroker.Cluster.Slots
import MqttBroker.Lib.TaggedRegister

namespace mqtt_cluster.cluster_log

open placement TaggedRegister

/-! ## The ops that no fence refuses -/

/-- The fences once an op has passed. -/
def raised (fence : GroupId → Epoch) (p : Epoch × ReplOp) : GroupId → Epoch :=
  Function.update fence (op_group p.2) p.1

def verdicts (fence : GroupId → Epoch) : List (Epoch × ReplOp) → List Bool
  | [] => []
  | p :: rest =>
    if p.1 < fence (op_group p.2) then false :: verdicts fence rest
    else true :: verdicts (raised fence p) rest

/-- The ops whose epoch is not below the fence that the ops before them have reached. -/
def passes (fence : GroupId → Epoch) : List (Epoch × ReplOp) → List (Epoch × ReplOp)
  | [] => []
  | p :: rest =>
    if p.1 < fence (op_group p.2) then passes fence rest else p :: passes (raised fence p) rest

def established (fences : Fences) (ops : List (Epoch × ReplOp)) : Fences :=
  ops.foldl (fun (m : Fences) p => m.insert (op_group p.2) p.1) fences

theorem extend_established (m m' : Fences) (ops : List (Epoch × ReplOp)) :
    m.extend (established m' ops) = established (m.extend m') ops := by
  induction ops generalizing m' with
  | nil => rfl
  | cons p ops ih =>
    have hone : m.extend (m'.insert (op_group p.2) p.1) =
        (m.extend m').insert (op_group p.2) p.1 := by
      ext g : 1
      simp only [BTreeMap.get_extend, BTreeMap.get_insert]
      split <;> simp
    rw [established, List.foldl_cons, ← established, ih, hone]
    rfl

namespace ReplicaState

/-! ## Stale attempts -/

theorem is_stale_attempt_append (s : ReplicaState) (e : Epoch) (k : String) (o : Offset) (q : Nat)
    (r : Bytes) :
    s.is_stale_attempt e (.Append k o q r) = below (held s.logs k o) (tag e q, r) := rfl

@[simp] theorem is_stale_attempt_truncate (s : ReplicaState) (e : Epoch) (k : String) (u : Offset) :
    s.is_stale_attempt e (.Truncate k u) = false := rfl

@[simp] theorem is_stale_attempt_remove (s : ReplicaState) (e : Epoch) (k : String) :
    s.is_stale_attempt e (.Remove k) = false := rfl

/-! ## What a batch decides -/

/-- The fence that the loop has reached for a group. -/
def running (s : ReplicaState) (d : Decision) (g : GroupId) : Epoch :=
  (d.advanced[g]?.or s.fences[g]?).getD 0

theorem running_insert (s : ReplicaState) (d d' : Decision) (p : Epoch × ReplOp)
    (h : d'.advanced = d.advanced.insert (op_group p.2) p.1) :
    s.running d' = raised (s.running d) p := by
  funext g
  rw [running, h, BTreeMap.get_insert, raised, Function.update_apply]
  by_cases hg : g = op_group p.2
  · simp [hg]
  · simp [hg, Ne.symm hg, running]

theorem decide_fold (s : ReplicaState) (batch : List (Epoch × ReplOp)) (d : Decision) :
    (batch.foldl s.decide_op d).accepted = d.accepted ++ verdicts (s.running d) batch ∧
      (batch.foldl s.decide_op d).to_persist = d.to_persist ++
        (passes (s.running d) batch).filter (fun p => !s.is_stale_attempt p.1 p.2) ∧
      (batch.foldl s.decide_op d).advanced =
        established d.advanced (passes (s.running d) batch) := by
  induction batch generalizing d with
  | nil => simp [verdicts, passes, established]
  | cons p batch ih =>
    obtain ⟨h1, h2, h3⟩ := ih (s.decide_op d p)
    rw [List.foldl_cons, h1, h2, h3]
    by_cases hf : p.1 < s.running d (op_group p.2)
    · have hd : s.decide_op d p =
          { d with accepted := d.accepted ++ [false], stale := d.stale ++ [false] } :=
        if_pos hf
      have hr : s.running (s.decide_op d p) = s.running d := by rw [hd]; rfl
      rw [hr, hd]
      simp [verdicts, passes, hf]
    · by_cases hs : s.is_stale_attempt p.1 p.2 = true
      · have hd : s.decide_op d p =
            { d with
              accepted := d.accepted ++ [true]
              stale := d.stale ++ [true]
              advanced := d.advanced.insert (op_group p.2) p.1 } :=
          (if_neg hf).trans (if_pos hs)
        rw [s.running_insert d _ p (by rw [hd]), hd]
        simp [verdicts, passes, hf, hs, established]
      · have hd : s.decide_op d p =
            { accepted := d.accepted ++ [true]
              stale := d.stale ++ [false]
              advanced := d.advanced.insert (op_group p.2) p.1
              to_persist := d.to_persist ++ [p] } :=
          (if_neg hf).trans (if_neg hs)
        rw [s.running_insert d _ p (by rw [hd]), hd]
        simp [verdicts, passes, hf, hs, established]

def passed (s : ReplicaState) (batch : List (Epoch × ReplOp)) : List (Epoch × ReplOp) :=
  passes s.fence_of batch

def fresh (s : ReplicaState) (batch : List (Epoch × ReplOp)) : List (Epoch × ReplOp) :=
  (s.passed batch).filter (fun p => !s.is_stale_attempt p.1 p.2)

theorem running_start (s : ReplicaState) : s.running {} = s.fence_of := by
  funext g
  simp [running, fence_of]

theorem decide_batch_spec (s : ReplicaState) (batch : List (Epoch × ReplOp)) :
    (s.decide_batch batch).accepted = verdicts s.fence_of batch ∧
      (s.decide_batch batch).to_persist = s.fresh batch ∧
      (s.decide_batch batch).advanced = established ∅ (s.passed batch) := by
  have h := s.decide_fold batch {}
  rw [running_start] at h
  exact h

theorem decide_batch_lengths (s : ReplicaState) (batch : List (Epoch × ReplOp)) :
    (s.decide_batch batch).accepted.length = batch.length ∧
      (s.decide_batch batch).stale.length = batch.length := by
  induction batch using List.reverseRecOn with
  | nil => exact ⟨rfl, rfl⟩
  | append_singleton batch p ih =>
    rw [decide_batch, List.foldl_append, ← decide_batch]
    simp only [List.foldl_cons, List.foldl_nil, decide_op]
    split
    · simp [ih.1, ih.2]
    · split <;> simp [ih.1, ih.2]

theorem apply_accepted_eq (s s' : ReplicaState) (batch : List (Epoch × ReplOp)) :
    s'.apply_accepted batch (s.decide_batch batch) =
      s'.apply_all (s.decide_batch batch).to_persist := by
  unfold apply_accepted
  induction batch using List.reverseRecOn with
  | nil => rfl
  | append_singleton batch p ih =>
    obtain ⟨h1, h2⟩ := s.decide_batch_lengths batch
    rw [decide_batch, List.foldl_append, ← decide_batch]
    simp only [List.foldl_cons, List.foldl_nil, decide_op]
    have hzip : ∀ a b : Bool, (batch ++ [p]).zip
        (((s.decide_batch batch).accepted ++ [a]).zip ((s.decide_batch batch).stale ++ [b])) =
        batch.zip ((s.decide_batch batch).accepted.zip (s.decide_batch batch).stale) ++
          [(p, a, b)] := by
      intro a b
      rw [List.zip_append (by rw [h1, h2]), List.zip_append (by simp [h1, h2])]
      rfl
    split
    · simp only [hzip, List.foldl_append, ih]
      rfl
    · split
      · simp only [hzip, List.foldl_append, ih]
        rfl
      · simp only [hzip, List.foldl_append, ih, apply_all]
        rfl

/-! ## The ops one by one -/

/-- The ops applied one at a time: the verdicts, and the state after the last. -/
def apply_each (io : Nat → Bool) (s : ReplicaState) :
    List (Epoch × ReplOp) → List Bool × ReplicaState
  | [] => ([], s)
  | p :: rest =>
    let (ok, s) := s.apply io p.1 p.2
    let (oks, s) := apply_each io s rest
    (ok :: oks, s)

/-- Every commit succeeds. -/
def allOk : Nat → Bool := fun _ => true

variable {s s' : ReplicaState}

theorem apply_in_memory_congr (hl : s'.logs = s.logs) (ht : s'.truncated = s.truncated)
    (e : Epoch) (op : ReplOp) :
    (s'.apply_in_memory e op).logs = (s.apply_in_memory e op).logs ∧
      (s'.apply_in_memory e op).truncated = (s.apply_in_memory e op).truncated := by
  cases op with
  | Append k o q r => simp [apply_in_memory, hl, ht]
  | Truncate k u => simp [apply_in_memory, watermark, hl, ht]
  | Remove k => simp [apply_in_memory, hl, ht]

/-- An op that is not refused moves the fence of its group to its epoch, and is applied in
memory unless it is stale. -/
theorem apply_passed (s : ReplicaState) (p : Epoch × ReplOp)
    (hf : ¬ p.1 < s.fence_of (op_group p.2)) :
    (s.apply allOk p.1 p.2).1 = true ∧
      (s.apply allOk p.1 p.2).2.fences = s.fences.insert (op_group p.2) p.1 ∧
      (s.apply allOk p.1 p.2).2.logs =
        (if s.is_stale_attempt p.1 p.2 then s else s.apply_in_memory p.1 p.2).logs ∧
      (s.apply allOk p.1 p.2).2.truncated =
        (if s.is_stale_attempt p.1 p.2 then s else s.apply_in_memory p.1 p.2).truncated := by
  unfold apply
  rw [if_neg hf]
  by_cases hs : s.is_stale_attempt p.1 p.2 = true
  · rw [if_pos hs, if_pos hs]
    exact ⟨rfl, by rw [Nat.max_eq_left (Nat.le_of_not_gt hf)], rfl, rfl⟩
  · rw [if_neg hs, if_neg hs]
    have hok := s.persist_batch_succeeds (s.unpersisted ((∅ : Fences).insert (op_group p.2) p.1))
      [(p.1, p.2)]
    change (s.persist_batch allOk _ _).1 = true at hok
    simp only [hok, if_true]
    refine ⟨trivial, (apply_in_memory_frame _ _ _).1, ?_, ?_⟩
    · refine (apply_in_memory_congr ?_ ?_ _ _).1 <;> rfl
    · refine (apply_in_memory_congr ?_ ?_ _ _).2 <;> rfl

theorem apply_refused (io : Nat → Bool) (s : ReplicaState) (p : Epoch × ReplOp)
    (hf : p.1 < s.fence_of (op_group p.2)) : s.apply io p.1 p.2 = (false, s) := if_pos hf

theorem fence_of_insert {p : Epoch × ReplOp} (h : s'.fences = s.fences.insert (op_group p.2) p.1) :
    s'.fence_of = raised s.fence_of p := by
  funext g
  rw [fence_of, h, BTreeMap.get_insert, raised, Function.update_apply]
  by_cases hg : g = op_group p.2
  · simp [hg]
  · simp [hg, Ne.symm hg, fence_of]

theorem apply_each_fences (s : ReplicaState) (batch : List (Epoch × ReplOp)) :
    (s.apply_each allOk batch).1 = verdicts s.fence_of batch ∧
      (s.apply_each allOk batch).2.fences = established s.fences (s.passed batch) := by
  unfold passed
  induction batch generalizing s with
  | nil => exact ⟨rfl, rfl⟩
  | cons p batch ih =>
    simp only [apply_each]
    by_cases hf : p.1 < s.fence_of (op_group p.2)
    · rw [apply_refused allOk s p hf]
      simp [verdicts, passes, hf, ih s]
    · obtain ⟨h1, h2, -, -⟩ := s.apply_passed p hf
      obtain ⟨i1, i2⟩ := ih (s.apply allOk p.1 p.2).2
      rw [fence_of_insert h2] at i1 i2
      rw [h1, i1, i2, h2]
      simp [verdicts, passes, hf, established]

variable {β : Type}

/-- What each op that passes does to a reading of the state, the ops of a batch that pass do to it
in order. -/
theorem apply_each_reads (read : ReplicaState → β) (step : β → Epoch × ReplOp → β)
    (hstep : ∀ (s : ReplicaState) p, ¬ p.1 < s.fence_of (op_group p.2) →
      read (s.apply allOk p.1 p.2).2 = step (read s) p) (s : ReplicaState)
    (batch : List (Epoch × ReplOp)) :
    read (s.apply_each allOk batch).2 = (s.passed batch).foldl step (read s) := by
  unfold passed
  induction batch generalizing s with
  | nil => rfl
  | cons p batch ih =>
    simp only [apply_each]
    by_cases hf : p.1 < s.fence_of (op_group p.2)
    · rw [apply_refused allOk s p hf]
      simp [passes, hf, ih s]
    · rw [ih, fence_of_insert (s.apply_passed p hf).2.1, hstep s p hf]
      simp [passes, hf]

theorem apply_each_truncated (s : ReplicaState) (batch : List (Epoch × ReplOp)) (key : String) :
    (s.apply_each allOk batch).2.truncated[key]? =
      (s.passed batch).foldl (lowStep 0 key) s.truncated[key]? := by
  refine apply_each_reads (fun s => s.truncated[key]?) (lowStep 0 key) (fun s p hf => ?_) s batch
  rw [(s.apply_passed p hf).2.2.2]
  obtain ⟨e, op⟩ := p
  split
  · cases op with
    | Append k o q r => rfl
    | Truncate k u => simp_all
    | Remove k => simp_all
  · exact s.truncated_apply_in_memory (e, op) key

/-! ## A slot, one by one and in a batch -/

theorem held_apply_passed (s : ReplicaState) (p : Epoch × ReplOp)
    (hf : ¬ p.1 < s.fence_of (op_group p.2)) (key : String) (offset : Offset) :
    held (s.apply allOk p.1 p.2).2.logs key offset =
      match slotEvent key offset p with
      | some ev => guarded (held s.logs key offset) ev
      | none => held s.logs key offset := by
  rw [(s.apply_passed p hf).2.2.1]
  have hmem := s.held_apply_in_memory p key offset
  obtain ⟨e, op⟩ := p
  by_cases hs : s.is_stale_attempt e op = true
  · rw [if_pos hs]
    cases op with
    | Append k o q r =>
      rw [is_stale_attempt_append] at hs
      by_cases hko : k = key ∧ o = offset
      · obtain ⟨rfl, rfl⟩ := hko
        simp [slotEvent, guarded_some, hs]
      · simp [slotEvent, hko]
    | Truncate k u => simp at hs
    | Remove k => simp at hs
  · rw [if_neg hs, hmem, slotStep]
    cases op with
    | Append k o q r =>
      rw [is_stale_attempt_append] at hs
      by_cases hko : k = key ∧ o = offset
      · obtain ⟨rfl, rfl⟩ := hko
        simp [slotEvent, guarded_some, hs]
      · simp [slotEvent, hko]
    | Truncate k u =>
      by_cases hko : k = key ∧ offset ≤ u
      · simp [slotEvent, hko, guarded]
      · simp [slotEvent, hko]
    | Remove k =>
      by_cases hk : k = key
      · simp [slotEvent, hk, guarded]
      · simp [slotEvent, hk]

def slotEvents (s : ReplicaState) (batch : List (Epoch × ReplOp)) (key : String) (offset : Offset) :
    List (Option Stored) :=
  (s.passed batch).filterMap (slotEvent key offset)

theorem apply_each_held (s : ReplicaState) (batch : List (Epoch × ReplOp)) (key : String)
    (offset : Offset) :
    held (s.apply_each allOk batch).2.logs key offset =
      (s.slotEvents batch key offset).foldl guarded (held s.logs key offset) := by
  unfold slotEvents
  rw [List.foldl_filterMap]
  refine apply_each_reads (fun s => held s.logs key offset) _ (fun s p hf => ?_) s batch
  rw [s.held_apply_passed p hf]
  rcases slotEvent key offset p with _ | ev <;> rfl

theorem fresh_held (s : ReplicaState) (batch : List (Epoch × ReplOp)) (key : String)
    (offset : Offset) :
    (s.fresh batch).foldl (slotStep key offset) (held s.logs key offset) =
      (s.slotEvents batch key offset).foldl (barred (held s.logs key offset))
        (held s.logs key offset) := by
  have h : ∀ (ops : List (Epoch × ReplOp)) (v : Option Stored),
      (ops.filter (fun p => !s.is_stale_attempt p.1 p.2)).foldl (slotStep key offset) v =
        (ops.filterMap (slotEvent key offset)).foldl (barred (held s.logs key offset)) v := by
    intro ops
    induction ops with
    | nil => exact fun v => rfl
    | cons p ops ih =>
      intro v
      rw [List.filter_cons, List.filterMap_cons]
      obtain ⟨e, op⟩ := p
      cases op with
      | Append k o q r =>
        by_cases hko : k = key ∧ o = offset
        · obtain ⟨rfl, rfl⟩ := hko
          by_cases hs : below (held s.logs k o) (tag e q, r) = true
          · simp [is_stale_attempt_append, hs, slotEvent, barred, ih]
          · simp [is_stale_attempt_append, hs, slotEvent, barred, ih, slotStep]
        · by_cases hs : s.is_stale_attempt e (.Append k o q r) = true
          · simp [hs, slotEvent, hko, ih]
          · simp [hs, slotEvent, hko, ih, slotStep]
      | Truncate k u =>
        by_cases hko : k = key ∧ offset ≤ u
        · simp [slotEvent, hko, ih, slotStep, barred]
        · simp [slotEvent, hko, ih, slotStep]
      | Remove k =>
        by_cases hk : k = key
        · simp [slotEvent, hk, ih, slotStep, barred]
        · simp [slotEvent, hk, ih, slotStep]
  exact h _ _

/-! ## A key, one by one and in a batch -/

/-- An append gives the key a log, a remove takes it. -/
def keyEvent (key : String) : Epoch × ReplOp → Option (Option (Epoch × ReplOp))
  | (e, .Append k o q r) => if k = key then some (some (e, .Append k o q r)) else none
  | (_, .Truncate _ _) => none
  | (_, .Remove k) => if k = key then some none else none

def keyEvents (s : ReplicaState) (batch : List (Epoch × ReplOp)) (key : String) :
    List (Option (Epoch × ReplOp)) :=
  (s.passed batch).filterMap (keyEvent key)

/-- Whether the key has a log after the event. -/
def present (_ : Bool) (ev : Option (Epoch × ReplOp)) : Bool := ev.isSome

/-- Whether the key has a log after the event of a batch: a stale append gives it none. -/
def presentFresh (s : ReplicaState) (b : Bool) : Option (Epoch × ReplOp) → Bool
  | none => false
  | some p => b || !s.is_stale_attempt p.1 p.2

theorem isSome_put (logs : ReplicaLogs) (k key : String) (o : Offset) (v : Stored) :
    ((put logs k o v)[key]?).isSome = (decide (k = key) || (logs[key]?).isSome) := by
  rw [put, BTreeMap.get_insert]
  by_cases hk : k = key <;> simp [hk]

theorem isSome_apply_in_memory (s : ReplicaState) (p : Epoch × ReplOp) (key : String) :
    ((s.apply_in_memory p.1 p.2).logs[key]?).isSome =
      match keyEvent key p with
      | some ev => ev.isSome
      | none => (s.logs[key]?).isSome := by
  obtain ⟨e, op⟩ := p
  cases op with
  | Append k o q r =>
    simp only [apply_in_memory, isSome_put, keyEvent]
    by_cases hk : k = key <;> simp [hk]
  | Truncate k u =>
    simp only [apply_in_memory, keyEvent]
    rcases hl : s.logs[k]? with _ | log
    · rfl
    · simp only [BTreeMap.get_insert]
      by_cases hk : k = key
      · subst hk
        simp [hl]
      · simp [hk]
  | Remove k =>
    simp only [apply_in_memory, BTreeMap.get_erase, keyEvent]
    by_cases hk : k = key <;> simp [hk]

theorem isSome_of_stale {e : Epoch} {k : String} {o : Offset} {q : Nat} {r : Bytes}
    (hs : s.is_stale_attempt e (.Append k o q r) = true) : (s.logs[k]?).isSome = true := by
  rw [is_stale_attempt_append, below_iff] at hs
  obtain ⟨h, hh, -⟩ := hs
  rcases hl : s.logs[k]? with _ | log
  · simp [held, logOf, hl] at hh
  · rfl

theorem apply_each_isSome (s : ReplicaState) (batch : List (Epoch × ReplOp)) (key : String) :
    ((s.apply_each allOk batch).2.logs[key]?).isSome =
      (s.keyEvents batch key).foldl present (s.logs[key]?).isSome := by
  unfold keyEvents
  rw [List.foldl_filterMap]
  refine apply_each_reads (fun s => (s.logs[key]?).isSome) _ (fun s p hf => ?_) s batch
  have hmem := s.isSome_apply_in_memory p key
  rw [(s.apply_passed p hf).2.2.1]
  split
  · rename_i hs
    obtain ⟨e, op⟩ := p
    cases op with
    | Append k o q r =>
      by_cases hk : k = key
      · subst hk
        simp [keyEvent, present, isSome_of_stale hs]
      · simp [keyEvent, hk]
    | Truncate k u => simp at hs
    | Remove k => simp at hs
  · rw [hmem]
    rcases keyEvent key p with _ | ev <;> rfl

theorem apply_all_isSome (s : ReplicaState) (ops : List (Epoch × ReplOp)) (key : String) :
    ((s.apply_all ops).logs[key]?).isSome =
      (ops.filterMap (keyEvent key)).foldl present (s.logs[key]?).isSome := by
  induction ops generalizing s with
  | nil => rfl
  | cons p ops ih =>
    refine (ih (s.apply_in_memory p.1 p.2)).trans ?_
    rw [isSome_apply_in_memory, List.filterMap_cons]
    rcases keyEvent key p with _ | ev <;> rfl

theorem fresh_isSome (s : ReplicaState) (batch : List (Epoch × ReplOp)) (key : String) (b : Bool) :
    ((s.fresh batch).filterMap (keyEvent key)).foldl present b =
      (s.keyEvents batch key).foldl s.presentFresh b := by
  have h : ∀ (ops : List (Epoch × ReplOp)) (b : Bool),
      ((ops.filter (fun p => !s.is_stale_attempt p.1 p.2)).filterMap (keyEvent key)).foldl present b =
        (ops.filterMap (keyEvent key)).foldl s.presentFresh b := by
    intro ops
    induction ops with
    | nil => exact fun b => rfl
    | cons p ops ih =>
      intro b
      rw [List.filter_cons]
      obtain ⟨e, op⟩ := p
      cases op with
      | Append k o q r =>
        by_cases hk : k = key
        · subst hk
          by_cases hs : s.is_stale_attempt e (.Append k o q r) = true <;>
            simp [hs, keyEvent, present, presentFresh, ih]
        · by_cases hs : s.is_stale_attempt e (.Append k o q r) = true <;>
            simp [hs, hk, keyEvent, ih]
      | Truncate k u => simp [List.filterMap_cons, keyEvent, ih]
      | Remove k =>
        by_cases hk : k = key <;>
          simp [hk, keyEvent, present, presentFresh, ih]
  exact h _ b

/-- After a remove, an append to the key comes with one that is not stale. -/
def KeyAgrees (s : ReplicaState) (batch : List (Epoch × ReplOp)) (key : String) : Prop :=
  (sinceClear (s.keyEvents batch key)).1 = true → (sinceClear (s.keyEvents batch key)).2 ≠ [] →
    ∃ p ∈ (sinceClear (s.keyEvents batch key)).2, s.is_stale_attempt p.1 p.2 = false

theorem foldl_present (b : Bool) (ps : List (Epoch × ReplOp)) :
    ps.foldl (fun b p => present b (some p)) b = (b || !ps.isEmpty) := by
  induction ps generalizing b with
  | nil => simp
  | cons p ps ih =>
    rw [List.foldl_cons, ih]
    simp [present]

theorem foldl_presentFresh (s : ReplicaState) (b : Bool) (ps : List (Epoch × ReplOp)) :
    ps.foldl (fun b p => s.presentFresh b (some p)) b =
      (b || ps.any (fun p => !s.is_stale_attempt p.1 p.2)) := by
  induction ps generalizing b with
  | nil => simp
  | cons p ps ih =>
    rw [List.foldl_cons, ih, List.any_cons, presentFresh, Bool.or_assoc]

theorem mem_sinceClear (evs : List (Option β)) : ∀ p ∈ (sinceClear evs).2, some p ∈ evs := by
  induction evs using List.reverseRecOn with
  | nil => simp [sinceClear]
  | append_singleton evs e ih =>
    intro p hp
    rw [sinceClear, List.foldl_append, ← sinceClear] at hp
    cases e with
    | none => simp [sinceClearStep] at hp
    | some x =>
      simp only [List.foldl_cons, List.foldl_nil, sinceClearStep, List.mem_append,
        List.mem_singleton] at hp
      rcases hp with hp | rfl
      · exact List.mem_append_left _ (ih p hp)
      · simp

theorem present_eq_iff (s : ReplicaState) (batch : List (Epoch × ReplOp)) (key : String) :
    (s.keyEvents batch key).foldl present (s.logs[key]?).isSome =
        (s.keyEvents batch key).foldl s.presentFresh (s.logs[key]?).isSome ↔
      s.KeyAgrees batch key := by
  have hstale : ∀ p ∈ (sinceClear (s.keyEvents batch key)).2,
      s.is_stale_attempt p.1 p.2 = true → (s.logs[key]?).isSome = true := by
    intro p hp hs
    obtain ⟨q, -, hq⟩ := List.mem_filterMap.mp (mem_sinceClear _ p hp)
    obtain ⟨e, op⟩ := q
    cases op with
    | Append k o sq r =>
      simp only [keyEvent, Option.ite_none_right_eq_some, Option.some.injEq] at hq
      obtain ⟨rfl, rfl⟩ := hq
      exact isSome_of_stale hs
    | Truncate k u => simp [keyEvent] at hq
    | Remove k => simp [keyEvent] at hq
  rw [foldl_sinceClear present false (fun _ => rfl),
    foldl_sinceClear s.presentFresh false (fun _ => rfl), foldl_present, foldl_presentFresh]
  unfold KeyAgrees
  revert hstale
  generalize (sinceClear (s.keyEvents batch key)).1 = removed
  generalize (sinceClear (s.keyEvents batch key)).2 = ps
  intro hstale
  rcases ps with _ | ⟨p, ps⟩
  · simp
  · cases removed with
    | true =>
      simp only [if_true, Bool.false_or, List.isEmpty_cons, Bool.not_false, ne_eq, reduceCtorEq,
        not_false_eq_true, forall_const]
      rw [eq_comm, List.any_eq_true]
      simp
    | false =>
      simp only [Bool.false_eq_true, if_false, false_imp_iff, iff_true]
      rcases hb : (s.logs[key]?).isSome with _ | _
      · have hp : s.is_stale_attempt p.1 p.2 = false := by
          by_contra hc
          have hs := hstale p List.mem_cons_self (by simpa using hc)
          rw [hb] at hs
          cases hs
        simp [hp]
      · simp

/-! ## A batch is its ops, and when -/

theorem apply_all_congr (hl : s'.logs = s.logs) (ht : s'.truncated = s.truncated)
    (ops : List (Epoch × ReplOp)) :
    (s'.apply_all ops).logs = (s.apply_all ops).logs ∧
      (s'.apply_all ops).truncated = (s.apply_all ops).truncated := by
  induction ops generalizing s s' with
  | nil => exact ⟨hl, ht⟩
  | cons p ops ih =>
    obtain ⟨h1, h2⟩ := apply_in_memory_congr hl ht p.1 p.2
    exact ih h1 h2

theorem fresh_low (s : ReplicaState) (batch : List (Epoch × ReplOp)) (base : Offset) (key : String)
    (v : Option Offset) :
    (s.fresh batch).foldl (lowStep base key) v = (s.passed batch).foldl (lowStep base key) v := by
  unfold fresh
  generalize s.passed batch = ops
  induction ops generalizing v with
  | nil => rfl
  | cons p ops ih =>
    obtain ⟨e, op⟩ := p
    rw [List.filter_cons]
    cases op with
    | Append k o q r =>
      by_cases hs : s.is_stale_attempt e (.Append k o q r) = true <;> simp [hs, ih, lowStep]
    | Truncate k u => simp [ih]
    | Remove k => simp [ih]

/-- What a batch leaves in memory: the fences of the ops that passed, and the fresh ops
applied. -/
structure Installed (s : ReplicaState) (batch : List (Epoch × ReplOp)) (s' : ReplicaState) :
    Prop where
  fences : s'.fences = established s.fences (s.passed batch)
  logs : s'.logs = (s.apply_all (s.fresh batch)).logs
  truncated : s'.truncated = (s.apply_all (s.fresh batch)).truncated

theorem extend_advanced (s : ReplicaState) (batch : List (Epoch × ReplOp)) :
    s.fences.extend (s.decide_batch batch).advanced = established s.fences (s.passed batch) := by
  rw [(s.decide_batch_spec batch).2.2, extend_established]
  congr 1
  ext g : 1
  simp [BTreeMap.get_extend]

theorem installed_apply_accepted (batch : List (Epoch × ReplOp)) (hl : s'.logs = s.logs)
    (ht : s'.truncated = s.truncated)
    (hf : s'.fences = s.fences.extend (s.decide_batch batch).advanced) :
    Installed s batch (s'.apply_accepted batch (s.decide_batch batch)) := by
  rw [apply_accepted_eq, (s.decide_batch_spec batch).2.1]
  obtain ⟨h1, h2⟩ := apply_all_congr hl ht (s.fresh batch)
  refine ⟨?_, h1, h2⟩
  rw [(s'.apply_all_frame _).1, hf, extend_advanced]

variable {batch : List (Epoch × ReplOp)}

theorem installed_fences (he : (s.decide_batch batch).to_persist.isEmpty = true)
    (hl : s'.logs = s.logs) (ht : s'.truncated = s.truncated)
    (hf : s'.fences = s.fences.extend (s.decide_batch batch).advanced) : Installed s batch s' := by
  rw [List.isEmpty_iff, (s.decide_batch_spec batch).2.1] at he
  refine ⟨by rw [hf, extend_advanced], ?_, ?_⟩
  · rw [he, hl]
    rfl
  · rw [he, ht]
    rfl

theorem apply_batch_installs (s : ReplicaState) (batch : List (Epoch × ReplOp)) :
    (s.apply_batch allOk batch).1 = verdicts s.fence_of batch ∧
      Installed s batch (s.apply_batch allOk batch).2 := by
  unfold apply_batch commit_decided
  simp only
  split
  · rename_i he
    exact ⟨(s.decide_batch_spec batch).1, installed_fences he rfl rfl rfl⟩
  · have hok := s.persist_batch_succeeds (s.unpersisted (s.decide_batch batch).advanced)
      (s.decide_batch batch).to_persist
    change (s.persist_batch allOk _ _).1 = true at hok
    simp only [hok, if_true]
    refine ⟨(s.decide_batch_spec batch).1, installed_apply_accepted batch ?_ ?_ ?_⟩ <;> rfl

theorem apply_batch_sharded_installs (s : ReplicaState) (shard : Nat)
    (batch : List (Epoch × ReplOp)) :
    (s.apply_batch_sharded allOk shard batch).1 = verdicts s.fence_of batch ∧
      Installed s batch (s.apply_batch_sharded allOk shard batch).2 := by
  have hops : (s.decide_shard shard batch).plan.ops = (s.decide_batch batch).to_persist := by
    simp only [decide_shard]
    rw [s.foldl_plan_op_eq]
  unfold apply_batch_sharded
  simp only [hops]
  split
  · rename_i he
    exact ⟨(s.decide_batch_spec batch).1, installed_fences he rfl rfl rfl⟩
  · have hcommit : ∃ dbs, s.commit_flight allOk (s.decide_shard shard batch) =
        (true, { s with dbs }) := by
      unfold commit_flight
      split
      · exact ⟨_, rfl⟩
      · exact ⟨s.dbs, rfl⟩
    obtain ⟨dbs, hdbs⟩ := hcommit
    rw [hdbs]
    simp only [if_true]
    refine ⟨(s.decide_batch_spec batch).1, installed_apply_accepted batch ?_ ?_ ?_⟩ <;> rfl

theorem logs_eq_iff (logs logs' : ReplicaLogs) :
    logs = logs' ↔ (∀ key offset, held logs key offset = held logs' key offset) ∧
      ∀ key : String, (logs[key]?).isSome = (logs'[key]?).isSome := by
  constructor
  · rintro rfl
    exact ⟨fun _ _ => rfl, fun _ => rfl⟩
  · rintro ⟨h1, h2⟩
    ext key : 1
    have hl : logOf logs key = logOf logs' key := logOf_ext (h1 key)
    have hs := h2 key
    unfold logOf at hl
    rcases ha : logs[key]? with _ | log <;> rcases hb : logs'[key]? with _ | log'
    · rfl
    · simp [ha, hb] at hs
    · simp [ha, hb] at hs
    · rw [ha, hb] at hl
      exact congrArg some hl

/-- The same verdicts, and the same logs, fences and low-waters. -/
def Same (a b : List Bool × ReplicaState) : Prop :=
  a.1 = b.1 ∧ a.2.logs = b.2.logs ∧ a.2.fences = b.2.fences ∧ a.2.truncated = b.2.truncated

/-- On every slot the ops that pass agree, whatever order judges them, and on every key. -/
def BatchAgrees (s : ReplicaState) (batch : List (Epoch × ReplOp)) : Prop :=
  (∀ key offset, Agrees (held s.logs key offset) (s.slotEvents batch key offset)) ∧
    ∀ key, s.KeyAgrees batch key

theorem same_iff_agrees {oks : List Bool} (hv : oks = verdicts s.fence_of batch)
    (hi : Installed s batch s') :
    Same (oks, s') (s.apply_each allOk batch) ↔ s.BatchAgrees batch := by
  have hlogs : s'.logs = (s.apply_each allOk batch).2.logs ↔ s.BatchAgrees batch := by
    rw [hi.logs, logs_eq_iff, BatchAgrees]
    refine and_congr (forall₂_congr fun key offset => ?_) (forall_congr' fun key => ?_)
    · rw [held_apply_all, fresh_held, apply_each_held, eq_comm, guarded_eq_barred_iff]
    · rw [apply_all_isSome, fresh_isSome, apply_each_isSome, eq_comm, present_eq_iff]
  have htrunc : s'.truncated = (s.apply_each allOk batch).2.truncated := by
    ext key : 1
    rw [hi.truncated, truncated_apply_all, fresh_low, apply_each_truncated]
  obtain ⟨h1, h2⟩ := s.apply_each_fences batch
  unfold Same
  rw [← hlogs]
  constructor
  · exact fun h => h.2.1
  · exact fun h => ⟨hv.trans h1.symm, h, hi.fences.trans h2.symm, htrunc⟩

/-- With every commit succeeding, a batch does what its ops do one at a time exactly when
they agree, and so does a batch of one shard's writer that runs alone. -/
theorem batch_is_its_ops_in_order_iff (s : ReplicaState) (batch : List (Epoch × ReplOp)) :
    (Same (s.apply_batch allOk batch) (s.apply_each allOk batch) ↔ s.BatchAgrees batch) ∧
      ∀ shard, (Same (s.apply_batch_sharded allOk shard batch) (s.apply_each allOk batch) ↔
        s.BatchAgrees batch) := by
  obtain ⟨h1, h2⟩ := s.apply_batch_installs batch
  refine ⟨same_iff_agrees h1 h2, fun shard => ?_⟩
  obtain ⟨h3, h4⟩ := s.apply_batch_sharded_installs shard batch
  exact same_iff_agrees h3 h4

/-- A retry under an older number of the same epoch, in the batch of the newer one: the batch
keeps the older record, one by one the newer stays. -/
theorem batch_keeps_the_older_record :
    ¬ Same (({} : ReplicaState).apply_batch allOk
        [(1, .Append "q/a" 1 5 [1]), (1, .Append "q/a" 1 3 [2])])
      (({} : ReplicaState).apply_each allOk
        [(1, .Append "q/a" 1 5 [1]), (1, .Append "q/a" 1 3 [2])]) := by
  intro h
  have hheld := congrArg (fun logs => held logs "q/a" 1) h.2.1
  revert hheld
  decide +kernel

end ReplicaState

end mqtt_cluster.cluster_log
