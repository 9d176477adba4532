-- What one step of a shard does to its table of pending publishes and to the deliveries of a
-- hand-off (`hub/shards.rs`).
import MqttBroker.Hub.Shards

namespace mqttd.hub.shards

@[simp] theorem and_ok (a : DurableOutcome) : a.and .Ok = a := by
  cases a <;> rfl

/-! ## One delivery -/

/-- A delivery of a hand-off settles at once and does not fail. -/
def settlesAtOnce (count shard : Nat) (deliver : PublishId → Nat → Delivery) (id : PublishId)
    (t : Handed) : Bool :=
  shard_of t.target.client count ≠ shard ||
    match (deliver id t.place).landing, t.target with
    | .NotHere, .Ordinary _ => true
    | .Settled out, _ => out == .Ok
    | _, _ => false

theorem deliver_target_cases (count origin : Nat) (id : PublishId)
    (deliver : PublishId → Nat → Delivery) (s : Shard) (sync : DurableOutcome) (reached : Bool)
    (t : Handed) :
    let out := Shard.deliver_target count origin id deliver (s, sync, reached) t
    let held := s.fail_held (deliver id t.place).failing
    (shard_of t.target.client count ≠ s.shard ∧ out.1 = s.note id t.place .Ok ∧ out.2.1 = sync) ∨
      (shard_of t.target.client count = s.shard ∧ ∃ res,
        out.1 = held.note id t.place res ∧ out.2.1 = sync.and res ∧
          (res = .Ok ↔ settlesAtOnce count s.shard deliver id t = true)) ∨
      (shard_of t.target.client count = s.shard ∧
        settlesAtOnce count s.shard deliver id t = false ∧
        ((out.1 = held.owe origin id t.place ∧ out.2.1 = sync) ∨
          (out.1 = (held.owe origin id t.place).end_owed id t.place .Failed false ∧
            out.2.1 = sync.and .Failed))) := by
  dsimp only
  unfold Shard.deliver_target
  dsimp only
  by_cases hown : shard_of t.target.client count = s.shard
  · refine .inr ?_
    rw [if_neg (by simpa using hown)]
    cases hl : (deliver id t.place).landing with
    | NotHere =>
      cases ht : t.target with
      | Ordinary client =>
        have hown' : shard_of client count = s.shard := by simpa [ht, ShardTarget.client] using hown
        refine .inl ⟨hown', .Ok, rfl, ?_, ?_⟩
        · simp
        · simp [settlesAtOnce, hl, ht]
      | Shared client qos =>
        have hown' : shard_of client count = s.shard := by simpa [ht, ShardTarget.client] using hown
        refine .inl ⟨hown', .Failed, rfl, rfl, ?_⟩
        simp [settlesAtOnce, hl, ht, hown', ShardTarget.client]
    | Settled out =>
      refine .inl ⟨hown, out, rfl, rfl, ?_⟩
      simp [settlesAtOnce, hl, hown]
    | Owed =>
      refine .inr ⟨hown, ?_, .inl ⟨rfl, rfl⟩⟩
      simp [settlesAtOnce, hl, hown]
    | Abandoned =>
      refine .inr ⟨hown, ?_, .inr ⟨rfl, rfl⟩⟩
      simp [settlesAtOnce, hl, hown]
  · rw [if_pos hown]
    exact .inl ⟨hown, rfl, rfl⟩

/-! ## The bits of the shards -/

/-- A shard is still owed an answer for. -/
def Outstanding (p : PendingPublish) (shard : Nat) : Prop :=
  p.shard_outstanding.getLsbD shard = true

theorem getLsbD_bit {shard : Nat} (h : shard < MAX_SHARDS) (t : Nat) :
    (Shard.bit shard).getLsbD t = decide (t = shard) := by
  unfold Shard.bit
  rw [BitVec.getLsbD_shiftLeft, BitVec.getLsbD_one]
  rw [Bool.eq_iff_iff]
  simp only [Bool.and_eq_true, Bool.not_eq_true', decide_eq_true_eq, decide_eq_false_iff_not]
  have hwidth : MAX_SHARDS = 8 := rfl
  omega

theorem and_bit_eq_zero {x : BitVec MAX_SHARDS} {shard : Nat} (h : shard < MAX_SHARDS) :
    x &&& Shard.bit shard = 0 ↔ x.getLsbD shard = false := by
  refine ⟨?_, ?_⟩
  · intro hz
    have hb := congrArg (fun y => y.getLsbD shard) hz
    simpa [getLsbD_bit h] using hb
  · intro hf
    refine BitVec.eq_of_getLsbD_eq ?_
    intro i hi
    rw [BitVec.getLsbD_and, getLsbD_bit h]
    by_cases his : i = shard
    · subst his
      simp [hf]
    · simp [his]

/-! ## The table of pending publishes -/

/-- The table is worked on: no bit changes, and a publish is accepted only when every shard has
answered for it. -/
structure Ledger (s s' : Shard) : Prop where
  entries : ∀ id p', s'.pending_publishes id = some p' →
    ∃ p, s.pending_publishes id = some p ∧ p'.shard_outstanding = p.shard_outstanding ∧
      (p'.waiting = true → p.waiting = true)
  accepted : ∀ id, (id, .Accepted) ∈ s'.told → (id, .Accepted) ∈ s.told ∨
    ∃ p, s.pending_publishes id = some p ∧ p.waiting = true ∧ p.shard_outstanding = 0
  told : ∀ x ∈ s'.told, x ∈ s.told ∨ ∃ p, s.pending_publishes x.1 = some p

/-- The table is worked on, and nothing else. -/
structure Worked (s s' : Shard) : Prop where
  shard : s'.shard = s.shard
  publish_ids : s'.publish_ids = s.publish_ids
  handoff_batches : s'.handoff_batches = s.handoff_batches
  shard_done_batches : s'.shard_done_batches = s.shard_done_batches
  gate : s'.shard_append_pending = s.shard_append_pending
  owed : s'.owed = s.owed
  settled : s'.settled = s.settled
  handed : s'.handed = s.handed
  ledger : Ledger s s'

namespace Ledger

theorem of_same {s s' : Shard} (hp : s'.pending_publishes = s.pending_publishes)
    (ht : s'.told = s.told) : Ledger s s' := by
  refine ⟨?_, fun id h => .inl (ht ▸ h), fun x h => .inl (ht ▸ h)⟩
  intro id p h
  exact ⟨p, hp ▸ h, rfl, fun h => h⟩

theorem trans {s s' s'' : Shard} (h : Ledger s s') (h' : Ledger s' s'') : Ledger s s'' := by
  refine ⟨?_, ?_, ?_⟩
  · intro id p'' hp''
    obtain ⟨p', hp', hbits', hw'⟩ := h'.entries id p'' hp''
    obtain ⟨p, hp, hbits, hw⟩ := h.entries id p' hp'
    exact ⟨p, hp, hbits'.trans hbits, fun h => hw (hw' h)⟩
  · intro id hid
    rcases h'.accepted id hid with hid | ⟨p', hp', hw', hz⟩
    · exact h.accepted id hid
    · obtain ⟨p, hp, hbits, hw⟩ := h.entries id p' hp'
      exact .inr ⟨p, hp, hw hw', hbits ▸ hz⟩
  · intro x hx
    rcases h'.told x hx with hx | ⟨p', hp'⟩
    · exact h.told x hx
    · obtain ⟨p, hp, -⟩ := h.entries x.1 p' hp'
      exact .inr ⟨p, hp⟩

end Ledger

namespace Worked

theorem refl (s : Shard) : Worked s s :=
  ⟨rfl, rfl, rfl, rfl, rfl, rfl, rfl, rfl, .of_same rfl rfl⟩

theorem trans {s s' s'' : Shard} (h : Worked s s') (h' : Worked s' s'') : Worked s s'' :=
  ⟨h'.shard.trans h.shard, h'.publish_ids.trans h.publish_ids,
    h'.handoff_batches.trans h.handoff_batches,
    h'.shard_done_batches.trans h.shard_done_batches, h'.gate.trans h.gate,
    h'.owed.trans h.owed, h'.settled.trans h.settled, h'.handed.trans h.handed,
    h.ledger.trans h'.ledger⟩

end Worked

section table

variable (s : Shard) (id : PublishId)

/-- An entry is rewritten or taken out. -/
theorem worked_put {p : PendingPublish} (hp : s.pending_publishes id = some p)
    (p' : Option PendingPublish)
    (h : ∀ q, p' = some q → q.shard_outstanding = p.shard_outstanding ∧
      (q.waiting = true → p.waiting = true)) : Worked s (s.put_pending id p') := by
  refine ⟨rfl, rfl, rfl, rfl, rfl, rfl, rfl, rfl, ?_, fun _ h => .inl h, fun _ h => .inl h⟩
  intro other q hq
  by_cases ho : other = id
  · subst ho
    simp only [Shard.put_pending, Function.update_self] at hq
    obtain ⟨hbits, hw⟩ := h q hq
    exact ⟨p, hp, hbits, hw⟩
  · simp only [Shard.put_pending, Function.update_of_ne ho] at hq
    exact ⟨q, hq, rfl, fun h => h⟩

theorem worked_drop : Worked s (s.drop_pending id) := by
  refine ⟨rfl, rfl, rfl, rfl, rfl, rfl, rfl, rfl, ?_, fun _ h => .inl h, fun _ h => .inl h⟩
  intro other q hq
  by_cases ho : other = id
  · subst ho
    simp [Shard.drop_pending, Shard.put_pending] at hq
  · simp only [Shard.drop_pending, Shard.put_pending, Function.update_of_ne ho] at hq
    exact ⟨q, hq, rfl, fun h => h⟩

theorem worked_refuse (r : PublishRefusal) : Worked s (s.refuse_pending id r) := by
  unfold Shard.refuse_pending
  cases hp : s.pending_publishes id with
  | none => exact .refl s
  | some p =>
    have hdrop := worked_drop s id
    dsimp only
    split
    · exact hdrop
    · refine ⟨rfl, rfl, rfl, rfl, rfl, rfl, rfl, rfl, hdrop.ledger.entries, ?_, ?_⟩
      · intro other ho
        simp only [List.mem_cons, Prod.mk.injEq, reduceCtorEq, and_false, false_or] at ho
        exact .inl ho
      · intro x hx
        rcases List.mem_cons.mp hx with rfl | hx
        · exact .inr ⟨p, hp⟩
        · exact .inl hx

theorem worked_change (left : Obligations) : Worked s (s.change_pending id left) := by
  unfold Shard.change_pending
  cases hp : s.pending_publishes id with
  | none => exact .refl s
  | some p =>
    refine worked_put s id hp _ ?_
    intro q hq
    cases hq
    exact ⟨rfl, fun h => h⟩

theorem worked_try : Worked s (s.try_complete_pending id) := by
  unfold Shard.try_complete_pending
  cases hp : s.pending_publishes id with
  | none => exact .refl s
  | some p =>
    dsimp only
    by_cases hdone : p.obligations_done = true
    · rw [if_neg (by simp [hdone])]
      have hz : p.shard_outstanding = 0 := by
        simp only [PendingPublish.obligations_done, Bool.and_eq_true, beq_iff_eq] at hdone
        exact hdone.1.2
      have hput : ∀ t : Shard, t.pending_publishes id = some p →
          Worked t (t.put_pending id (if !p.awaiting_settle && !(p.waiting && p.ack_awaits_settle)
            then none else some { p with waiting := p.waiting && p.ack_awaits_settle })) := by
        intro t ht
        refine worked_put t id ht _ ?_
        intro q hq
        split at hq
        · cases hq
        · cases hq
          refine ⟨rfl, ?_⟩
          intro h
          simp only [Bool.and_eq_true] at h
          exact h.1
      by_cases hans : (!p.ack_awaits_settle && p.waiting) = true
      · rw [if_pos hans]
        refine Worked.trans (?_ : Worked s { s with told := (id, .Accepted) :: s.told })
          (hput _ hp)
        refine ⟨rfl, rfl, rfl, rfl, rfl, rfl, rfl, rfl, fun _ p hp => ⟨p, hp, rfl, fun h => h⟩,
          ?_, ?_⟩
        · intro other ho
          simp only [List.mem_cons, Prod.mk.injEq, and_true] at ho
          rcases ho with rfl | ho
          · simp only [Bool.and_eq_true] at hans
            exact .inr ⟨p, hp, hans.2, hz⟩
          · exact .inl ho
        · intro x hx
          rcases List.mem_cons.mp hx with rfl | hx
          · exact .inr ⟨p, hp⟩
          · exact .inl hx
      · rw [if_neg hans]
        exact hput s hp
    · rw [if_pos (by simp [hdone])]
      exact .refl s

theorem worked_local_done : Worked s (s.pending_local_done id) := by
  unfold Shard.pending_local_done
  cases hp : s.pending_publishes id with
  | none => exact worked_try s id
  | some p =>
    refine Worked.trans ?_ (worked_try _ id)
    refine worked_put s id hp _ ?_
    intro q hq
    cases hq
    exact ⟨rfl, fun h => h⟩

end table

/-! ## The node -/

theorem shards_put (n : Node) (o t : Nat) (s : Shard) :
    (n.put o s).shards t = if t = o then s else n.shards t := by
  simp [Node.put, Function.update_apply]

theorem put_self (n : Node) (o : Nat) (s : Shard) : (n.put o s).shards o = s := by
  rw [shards_put, if_pos rfl]

theorem owe_answer_eq {s : Shard} (id : PublishId) (t : Nat) (batch : List Handed) :
    ∃ entries, s.owe_answer id t batch = { s with
      pending_publishes := entries
      handoff_inflight :=
        Function.update s.handoff_inflight t (s.handoff_inflight t + 1)
      handed := Function.update s.handed id (Function.update (s.handed id) t
        (s.handed id t ++ batch.map Handed.place)) } := by
  unfold Shard.owe_answer
  cases s.pending_publishes id with
  | none => exact ⟨_, rfl⟩
  | some p => exact ⟨_, rfl⟩

theorem step_count (n : Node) (step : Step) : (n.step step).count = n.count := by
  cases step with
  | Plain o m targets gate => cases gate <;> rfl
  | Flush o =>
    unfold Node.step
    dsimp only
    split <;> rfl
  | Dispatch t o deliver plain =>
    unfold Node.step
    dsimp only
    split <;> rfl
  | Done o t =>
    unfold Node.step
    dsimp only
    split
    · rfl
    · split <;> rfl
  | _ => rfl

end mqttd.hub.shards
