-- The credit of the hand-offs between two shards (`hub/shards.rs`): how many gated
-- hand-offs a shard still owes an answer for, and the cap at which the data lane waits.
-- The count is raised for each hand-off and lowered through the entry of its publish, so
-- it is exact while every entry stays until its last shard has answered.
import MqttBroker.Hub.ShardLedger

namespace mqttd.hub.shards

/-- A target shard is at its cap, so the data lane of this shard waits. Never with one shard or
no cap. -/
def Shard.handoff_gated (s : Shard) (count handoff_inflight_cap : Nat) : Bool :=
  decide (count > 1) && decide (handoff_inflight_cap > 0) &&
    (List.range count).any (fun shard => decide (s.handoff_inflight shard ≥ handoff_inflight_cap))

/-! ## The hand-offs without an answer -/

/-- The gated hand-offs that a step puts into the batches of a shard for another. -/
def putInto (n : Node) (step : Step) (origin target : Nat) : List PublishId :=
  ((((n.step step).shards origin).handoff_batches target).drop
    ((n.shards origin).handoff_batches target).length).filterMap ShardDeliver.gate

def arriving (n : Node) (step : Step) (origin target : Nat) : List ShardAnswer :=
  match step with
  | .Done shard from_ =>
    if origin = shard ∧ target = from_ ∧ from_ < n.count then
      (n.answers from_ shard).head?.getD []
    else []
  | _ => []

/-- A node, with the gated hand-offs of each shard to each other that were not answered. -/
structure Watched where
  node : Node
  unanswered : Nat → Nat → List PublishId

namespace Watched

def new (count : Nat) : Watched := ⟨Node.new count, fun _ _ => []⟩

def step (w : Watched) (step : Step) : Watched where
  node := w.node.step step
  unanswered origin target :=
    (w.unanswered origin target ++ putInto w.node step origin target).diff
      ((arriving w.node step origin target).map ShardAnswer.id)

def run (w : Watched) (steps : List Step) : Watched := steps.foldl step w

end Watched

/-! ## The credit of one shard -/

/-- The count of a shard for each other, its entries and the hand-offs without an answer go
together: each of these has an entry in which its bit is set. -/
structure Credit (o : Nat) (s : Shard) (unanswered : Nat → List PublishId) : Prop where
  own : s.shard = o
  keys : ∀ id p, s.pending_publishes id = some p → id.seq ≤ s.publish_ids
  once : ∀ t, (unanswered t).Nodup
  waits : ∀ t id, id ∈ unanswered t ↔ ∃ p, s.pending_publishes id = some p ∧ Outstanding p t
  counts : ∀ t, s.handoff_inflight t = (unanswered t).length

/-- The fields of the origin are as they were. -/
structure SameCredit (s s' : Shard) : Prop where
  shard : s'.shard = s.shard
  publish_ids : s'.publish_ids = s.publish_ids
  pending_publishes : s'.pending_publishes = s.pending_publishes
  handoff_batches : s'.handoff_batches = s.handoff_batches
  handoff_inflight : s'.handoff_inflight = s.handoff_inflight

namespace SameCredit

theorem refl (s : Shard) : SameCredit s s := ⟨rfl, rfl, rfl, rfl, rfl⟩

theorem trans {s s' s'' : Shard} (h : SameCredit s s') (h' : SameCredit s' s'') :
    SameCredit s s'' :=
  ⟨h'.shard.trans h.shard, h'.publish_ids.trans h.publish_ids,
    h'.pending_publishes.trans h.pending_publishes, h'.handoff_batches.trans h.handoff_batches,
    h'.handoff_inflight.trans h.handoff_inflight⟩

theorem credit {o : Nat} {s s' : Shard} {unanswered : Nat → List PublishId} (h : SameCredit s s')
    (hc : Credit o s unanswered) : Credit o s' unanswered := by
  refine ⟨h.shard.trans hc.own, ?_, hc.once, ?_, ?_⟩
  · rw [h.pending_publishes, h.publish_ids]
    exact hc.keys
  · rw [h.pending_publishes]
    exact hc.waits
  · rw [h.handoff_inflight]
    exact hc.counts

end SameCredit

namespace Credit

variable {o : Nat} {s s' : Shard} {unanswered : Nat → List PublishId}

theorem worked (hc : Credit o s unanswered) (h : Worked s s')
    (hinflight : s'.handoff_inflight = s.handoff_inflight)
    (hstay : ∀ id p, s.pending_publishes id = some p → p.shard_outstanding ≠ 0 →
      ∃ p', s'.pending_publishes id = some p') : Credit o s' unanswered := by
  refine ⟨h.shard.trans hc.own, ?_, hc.once, ?_, ?_⟩
  · intro id p' hp'
    obtain ⟨p, hp, -, -⟩ := h.ledger.entries id p' hp'
    rw [h.publish_ids]
    exact hc.keys id p hp
  · intro t id
    rw [hc.waits]
    refine ⟨?_, ?_⟩
    · rintro ⟨p, hp, hout⟩
      have hne : p.shard_outstanding ≠ 0 := by
        intro hz
        simp [Outstanding, hz] at hout
      obtain ⟨p', hp'⟩ := hstay id p hp hne
      obtain ⟨q, hq, hbits, -⟩ := h.ledger.entries id p' hp'
      obtain rfl : q = p := Option.some.inj (hq.symm.trans hp)
      exact ⟨p', hp', by rw [Outstanding, hbits]; exact hout⟩
    · rintro ⟨p', hp', hout⟩
      obtain ⟨p, hp, hbits, -⟩ := h.ledger.entries id p' hp'
      exact ⟨p, hp, by rw [Outstanding, ← hbits]; exact hout⟩
  · rw [hinflight]
    exact hc.counts

theorem try_complete (hc : Credit o s unanswered) (id : PublishId) :
    Credit o (s.try_complete_pending id) unanswered := by
  refine hc.worked (worked_try s id) ?_ ?_
  · unfold Shard.try_complete_pending
    split
    · rfl
    · dsimp only
      split
      · rfl
      · split <;> rfl
  · intro other p hp hne
    by_cases ho : other = id
    · subst ho
      have hopen : p.obligations_done = false := by
        have hbits : (p.shard_outstanding == 0) = false := by simpa using hne
        rw [PendingPublish.obligations_done, hbits]
        simp
      exact ⟨p, by simp [Shard.try_complete_pending, hp, hopen]⟩
    · refine ⟨p, ?_⟩
      unfold Shard.try_complete_pending
      split
      · exact hp
      · dsimp only
        split
        · exact hp
        · split <;> simp [Shard.put_pending, ho, hp]

theorem change (hc : Credit o s unanswered) (id : PublishId) (left : Obligations) :
    Credit o (s.change_pending id left) unanswered := by
  refine hc.worked (worked_change s id left) ?_ ?_
  · unfold Shard.change_pending
    split <;> rfl
  · intro other p hp _
    unfold Shard.change_pending
    split
    · exact ⟨p, hp⟩
    · by_cases ho : other = id
      · subst ho
        simp [Shard.put_pending]
      · exact ⟨p, by simp [Shard.put_pending, ho, hp]⟩

theorem local_done (hc : Credit o s unanswered) (id : PublishId) :
    Credit o (s.pending_local_done id) unanswered := by
  unfold Shard.pending_local_done
  cases hp : s.pending_publishes id with
  | none => exact hc.try_complete id
  | some p =>
    refine try_complete ?_ id
    refine hc.worked (worked_put s id hp _ ?_) rfl ?_
    · intro q hq
      cases hq
      exact ⟨rfl, fun h => h⟩
    · intro other q hq _
      by_cases ho : other = id
      · subst ho
        simp [Shard.put_pending]
      · exact ⟨q, by simp [Shard.put_pending, ho, hq]⟩

theorem taken_out (hc : Credit o s unanswered) (h : Worked s s')
    (hinflight : s'.handoff_inflight = s.handoff_inflight) (id : PublishId)
    (hid : ∀ p, s.pending_publishes id = some p → p.shard_outstanding = 0)
    (hothers : ∀ other ≠ id, s'.pending_publishes other = s.pending_publishes other) :
    Credit o s' unanswered := by
  refine hc.worked h hinflight ?_
  intro other p hp hne
  by_cases ho : other = id
  · subst ho
    exact absurd (hid p hp) hne
  · exact ⟨p, (hothers other ho).trans hp⟩

end Credit

theorem drop_pending_others {s : Shard} {id other : PublishId} (ho : other ≠ id) :
    (s.drop_pending id).pending_publishes other = s.pending_publishes other := by
  simp [Shard.drop_pending, Shard.put_pending, ho]

theorem refuse_pending_others {s : Shard} {id other : PublishId} {r : PublishRefusal}
    (ho : other ≠ id) :
    (s.refuse_pending id r).pending_publishes other = s.pending_publishes other := by
  unfold Shard.refuse_pending
  split
  · rfl
  · dsimp only
    split <;> simp [Shard.put_pending, ho]

theorem refuse_pending_inflight (s : Shard) (id : PublishId) (r : PublishRefusal) :
    (s.refuse_pending id r).handoff_inflight = s.handoff_inflight := by
  unfold Shard.refuse_pending
  split
  · rfl
  · dsimp only
    split <;> rfl

namespace Credit

variable {o : Nat} {s : Shard} {unanswered : Nat → List PublishId} {id : PublishId}

theorem drop (hc : Credit o s unanswered)
    (hid : ∀ p, s.pending_publishes id = some p → p.shard_outstanding = 0) :
    Credit o (s.drop_pending id) unanswered :=
  hc.taken_out (worked_drop s id) rfl id hid (fun _ ho => drop_pending_others ho)

theorem refuse (hc : Credit o s unanswered) (r : PublishRefusal)
    (hid : ∀ p, s.pending_publishes id = some p → p.shard_outstanding = 0) :
    Credit o (s.refuse_pending id r) unanswered :=
  hc.taken_out (worked_refuse s id r) (refuse_pending_inflight s id r) id hid
    (fun _ ho => refuse_pending_others ho)

/-! ## A publish -/

/-- A new entry waits for no shard. -/
theorem register (hc : Credit o s unanswered) (unsettled : Bool) :
    Credit o (s.register_pending unsettled).1 unanswered := by
  have hnew : s.pending_publishes ⟨s.shard, s.publish_ids + 1⟩ = none := by
    cases hp : s.pending_publishes ⟨s.shard, s.publish_ids + 1⟩ with
    | none => rfl
    | some p =>
      have hle := hc.keys _ p hp
      simp at hle
  refine ⟨hc.own, ?_, hc.once, ?_, hc.counts⟩
  · intro other p hp
    by_cases ho : other = ⟨s.shard, s.publish_ids + 1⟩
    · subst ho
      exact Nat.le_refl _
    · simp only [Shard.register_pending, Shard.put_pending, Function.update_of_ne ho] at hp
      exact Nat.le_succ_of_le (hc.keys other p hp)
  · intro t other
    rw [hc.waits]
    by_cases ho : other = ⟨s.shard, s.publish_ids + 1⟩
    · subst ho
      simp [Shard.register_pending, Shard.put_pending, hnew, Outstanding]
    · simp [Shard.register_pending, Shard.put_pending, ho]

variable {t : Nat} {p : PendingPublish}

theorem owe (hc : Credit o s unanswered) (batch : List Handed) (ht : t < MAX_SHARDS)
    (hp : s.pending_publishes id = some p) (hfree : id ∉ unanswered t) :
    Credit o (s.owe_answer id t batch) (Function.update unanswered t (unanswered t ++ [id])) := by
  have howe : s.owe_answer id t batch = { s with
      pending_publishes := Function.update s.pending_publishes id
        (some { p with shard_outstanding := p.shard_outstanding ||| Shard.bit t })
      handoff_inflight := Function.update s.handoff_inflight t (s.handoff_inflight t + 1)
      handed := Function.update s.handed id (Function.update (s.handed id) t
        (s.handed id t ++ batch.map Handed.place)) } := by
    simp [Shard.owe_answer, hp, Shard.put_pending]
  rw [howe]
  refine ⟨hc.own, ?_, ?_, ?_, ?_⟩
  · intro other q hq
    by_cases ho : other = id
    · subst ho
      exact hc.keys other p hp
    · simp only [Function.update_of_ne ho] at hq
      exact hc.keys other q hq
  · intro u
    by_cases hu : u = t
    · subst hu
      rw [Function.update_self, ← List.concat_eq_append]
      exact List.Nodup.concat hfree (hc.once u)
    · simp [hu, hc.once]
  · intro u other
    by_cases ho : other = id
    · subst ho
      by_cases hu : u = t
      · subst hu
        simp [Outstanding, getLsbD_bit ht]
      · simp [hu, hc.waits, hp, Outstanding, getLsbD_bit ht]
    · by_cases hu : u = t
      · subst hu
        simp [ho, hc.waits]
      · simp [ho, hu, hc.waits]
  · intro u
    by_cases hu : u = t
    · subst hu
      simp [hc.counts]
    · simp [hu, hc.counts]

theorem push (hc : Credit o s unanswered) (t : Nat) (d : ShardDeliver) :
    Credit o (s.push_handoff t d) unanswered :=
  ⟨hc.own, hc.keys, hc.once, hc.waits, hc.counts⟩

variable {count : Nat} {m : Published}

theorem flush_to {shards : List Nat} {targets : List Handed} (hcount : count ≤ MAX_SHARDS)
    (hnodup : shards.Nodup) (hshards : ∀ t ∈ shards, t < count) (hc : Credit o s unanswered)
    (hp : s.pending_publishes id = some p)
    (hfree : ∀ t ∈ shards, ∀ x ∈ targets,
      count = 2 ∨ shard_of x.target.client count = t → id ∉ unanswered t) :
    ∃ news : Nat → List ShardDeliver,
      (∀ t, (Shard.flush_to count m (some id) shards targets s).handoff_batches t =
        s.handoff_batches t ++ news t) ∧
      Credit o (Shard.flush_to count m (some id) shards targets s)
        (fun t => unanswered t ++ (news t).filterMap ShardDeliver.gate) ∧
      (∃ p', (Shard.flush_to count m (some id) shards targets s).pending_publishes id =
        some p') ∧
      (∀ t, news t ≠ [] →
        t ∈ shards ∧ ∃ x ∈ targets, count = 2 ∨ shard_of x.target.client count = t) := by
  induction shards generalizing targets s unanswered p with
  | nil => exact ⟨fun _ => [], by simp [Shard.flush_to], by simpa [Shard.flush_to] using hc,
      ⟨p, hp⟩, by simp⟩
  | cons t rest ih =>
    obtain ⟨hnot, hrest⟩ := List.nodup_cons.mp hnodup
    have hlt : t < MAX_SHARDS := Nat.lt_of_lt_of_le (hshards t (by simp)) hcount
    have hwithin : ∀ u ∈ rest, u < count := fun u hu => hshards u (List.mem_cons_of_mem _ hu)
    unfold Shard.flush_to
    dsimp only
    have hbatch : ∀ x ∈ (if count = 2 then targets
        else targets.filter (fun x => shard_of x.target.client count = t)),
        x ∈ targets ∧ (count = 2 ∨ shard_of x.target.client count = t) := by
      intro x hx
      split at hx
      · rename_i htwo
        exact ⟨hx, .inl htwo⟩
      · rw [List.mem_filter, decide_eq_true_eq] at hx
        exact ⟨hx.1, .inr hx.2⟩
    have hleft : ∀ x ∈ (if count = 2 then []
        else targets.filter (fun x => shard_of x.target.client count ≠ t)), x ∈ targets := by
      intro x hx
      split at hx
      · simp at hx
      · exact (List.mem_filter.mp hx).1
    generalize (if count = 2 then targets
      else targets.filter (fun x => shard_of x.target.client count = t)) = batch at hbatch ⊢
    generalize (if count = 2 then []
      else targets.filter (fun x => shard_of x.target.client count ≠ t)) = left at hleft ⊢
    split
    · obtain ⟨news, hnews, hcredit, hentry, hgets⟩ := ih hrest hwithin hc hp
        (fun u hu x hx => hfree u (List.mem_cons_of_mem _ hu) x (hleft x hx))
      refine ⟨news, hnews, hcredit, hentry, ?_⟩
      intro u hu
      obtain ⟨hmem, x, hx, hown⟩ := hgets u hu
      exact ⟨List.mem_cons_of_mem _ hmem, x, hleft x hx, hown⟩
    · rename_i hsome
      obtain ⟨y, hy⟩ : ∃ y, y ∈ batch := by
        cases batch with
        | nil => simp at hsome
        | cons y ys => exact ⟨y, by simp⟩
      obtain ⟨hytarget, hyown⟩ := hbatch y hy
      have howed := hc.owe batch hlt hp (hfree t (by simp) y hytarget hyown)
      obtain ⟨q, hq⟩ : ∃ q, (s.owe_answer id t batch).pending_publishes id = some q := by
        simp [Shard.owe_answer, hp, Shard.put_pending]
      have hhanded : (s.owe_answer id t batch).handoff_batches = s.handoff_batches := by
        obtain ⟨entries, heq⟩ := owe_answer_eq (s := s) id t batch
        rw [heq]
      generalize s.owe_answer id t batch = s₁ at howed hq hhanded ⊢
      have hpush := howed.push t
        { m with origin := s₁.shard, gate := some id, targets := batch }
      have hfree' : ∀ u ∈ rest, ∀ x ∈ left, count = 2 ∨ shard_of x.target.client count = u →
          id ∉ Function.update unanswered t (unanswered t ++ [id]) u := by
        intro u hu x hx hown
        have hne : u ≠ t := fun h => hnot (h ▸ hu)
        rw [Function.update_of_ne hne]
        exact hfree u (List.mem_cons_of_mem _ hu) x (hleft x hx) hown
      obtain ⟨news, hnews, hcredit, hentry, hgets⟩ := ih hrest hwithin hpush hq hfree'
      refine ⟨Function.update news t
        ({ m with origin := s₁.shard, gate := some id, targets := batch } :: news t), ?_, ?_,
        hentry, ?_⟩
      · intro u
        rw [hnews u]
        by_cases hu : u = t
        · subst hu
          simp [Shard.push_handoff, hhanded]
        · simp [Shard.push_handoff, hhanded, hu]
      · convert hcredit using 2 with u
        by_cases hu : u = t
        · subst hu
          simp
        · simp [hu]
      · intro u hu
        by_cases hut : u = t
        · subst hut
          exact ⟨by simp, y, hytarget, hyown⟩
        · rw [Function.update_of_ne hut] at hu
          obtain ⟨hmem, x, hx, hown⟩ := hgets u hu
          exact ⟨List.mem_cons_of_mem _ hmem, x, hleft x hx, hown⟩

theorem flush (hcount : count ≤ MAX_SHARDS) (hc : Credit o s unanswered) (targets : List Handed)
    (hp : s.pending_publishes id = some p)
    (hfree : ∀ t < count, t ≠ o → ∀ x ∈ targets,
      count = 2 ∨ shard_of x.target.client count = t → id ∉ unanswered t) :
    ∃ news : Nat → List ShardDeliver,
      (∀ t, (s.flush_handoffs count targets m (.Pending id)).handoff_batches t =
        s.handoff_batches t ++ news t) ∧
      Credit o (s.flush_handoffs count targets m (.Pending id))
        (fun t => unanswered t ++ (news t).filterMap ShardDeliver.gate) ∧
      (∃ p', (s.flush_handoffs count targets m (.Pending id)).pending_publishes id = some p') ∧
      (∀ t, news t ≠ [] → t < count ∧ t ≠ o ∧
        ∃ x ∈ targets, count = 2 ∨ shard_of x.target.client count = t) := by
  unfold Shard.flush_handoffs
  split
  · exact ⟨fun _ => [], by simp, by simpa using hc, ⟨p, hp⟩, by simp⟩
  · have hothers : ∀ t ∈ (List.range count).filter (· ≠ s.shard), t < count ∧ t ≠ o := by
      intro t ht
      rw [List.mem_filter, List.mem_range, decide_eq_true_eq, hc.own] at ht
      exact ht
    obtain ⟨news, hnews, hcredit, hentry, hgets⟩ := flush_to (m := m) hcount
      (List.nodup_range.filter _) (fun t ht => (hothers t ht).1) hc hp
      (fun t ht => hfree t (hothers t ht).1 (hothers t ht).2)
    refine ⟨news, hnews, hcredit, hentry, ?_⟩
    intro t ht
    obtain ⟨hmem, hx⟩ := hgets t ht
    exact ⟨(hothers t hmem).1, (hothers t hmem).2, hx⟩

/-! ## An answer -/

theorem taken_back (hc : Credit o s unanswered) (ht : t < MAX_SHARDS) {p' : PendingPublish}
    (hp : s.pending_publishes id = some p) (hout : Outstanding p t)
    (hbits : p'.shard_outstanding = p.shard_outstanding &&& ~~~Shard.bit t) :
    Credit o ({ s with
      handoff_inflight := Function.update s.handoff_inflight t
        (s.handoff_inflight t - 1) }.put_pending id (some p'))
      (Function.update unanswered t ((unanswered t).erase id)) := by
  have hmem : id ∈ unanswered t := (hc.waits t id).mpr ⟨p, hp, hout⟩
  have hclear : ∀ u, Outstanding p' u ↔ Outstanding p u ∧ u ≠ t := by
    intro u
    unfold Outstanding
    rw [hbits, BitVec.getLsbD_and, BitVec.getLsbD_not, getLsbD_bit ht]
    by_cases hu : u < MAX_SHARDS
    · simp [hu]
    · simp [hu, BitVec.getLsbD_of_ge _ _ (Nat.le_of_not_lt hu)]
  refine ⟨hc.own, ?_, ?_, ?_, ?_⟩
  · intro other q hq
    by_cases ho : other = id
    · subst ho
      exact hc.keys other p hp
    · simp only [Shard.put_pending, Function.update_of_ne ho] at hq
      exact hc.keys other q hq
  · intro u
    by_cases hu : u = t
    · subst hu
      rw [Function.update_self]
      exact (hc.once u).erase id
    · rw [Function.update_of_ne hu]
      exact hc.once u
  · intro u other
    by_cases ho : other = id
    · subst ho
      by_cases hu : u = t
      · subst hu
        simp [Shard.put_pending, (hc.once u).mem_erase_iff, hclear]
      · simp [Shard.put_pending, hu, hc.waits, hp, hclear]
    · by_cases hu : u = t
      · subst hu
        simp [Shard.put_pending, (hc.once u).mem_erase_iff, ho, hc.waits]
      · simp [Shard.put_pending, ho, hu, hc.waits]
  · intro u
    by_cases hu : u = t
    · subst hu
      simp [Shard.put_pending, hc.counts, List.length_erase_of_mem hmem]
    · simp [Shard.put_pending, hu, hc.counts]

end Credit

/-- Where an answer takes the entry of its publish out, it is the last one. -/
def LastOut (s : Shard) (shard : Nat) (a : ShardAnswer) : Prop :=
  a.outcome = .Ok ∨ ∀ p ∈ s.pending_publishes a.id,
    p.shard_outstanding &&& ~~~Shard.bit shard = 0

instance (s : Shard) (shard : Nat) (a : ShardAnswer) : Decidable (LastOut s shard a) :=
  inferInstanceAs (Decidable (_ ∨ ∀ p ∈ s.pending_publishes a.id, _))

/-- The same for each answer of a command, as it is read. -/
def LastsOut (s : Shard) (shard : Nat) : List ShardAnswer → Prop
  | [] => True
  | a :: rest => LastOut s shard a ∧ LastsOut (s.shard_done shard a) shard rest

instance decidableLastsOut (s : Shard) (shard : Nat) :
    (answers : List ShardAnswer) → Decidable (LastsOut s shard answers)
  | [] => inferInstanceAs (Decidable True)
  | a :: rest =>
    have := decidableLastsOut (s.shard_done shard a) shard rest
    inferInstanceAs (Decidable (LastOut s shard a ∧ LastsOut (s.shard_done shard a) shard rest))

namespace Credit

variable {o : Nat} {s : Shard} {unanswered : Nat → List PublishId}

/-- An answer that no entry waits for takes nothing back. -/
theorem unheard (hc : Credit o s unanswered) {t : Nat} {id : PublishId}
    (hout : ∀ p, s.pending_publishes id = some p → ¬ Outstanding p t) :
    Credit o s (Function.update unanswered t ((unanswered t).erase id)) := by
  have hnot : id ∉ unanswered t := by
    rw [hc.waits]
    rintro ⟨p, hp, h⟩
    exact hout p hp h
  rw [List.erase_of_not_mem hnot, Function.update_eq_self]
  exact hc

theorem answer (hc : Credit o s unanswered) {t : Nat} (ht : t < MAX_SHARDS) {a : ShardAnswer}
    (hlast : LastOut s t a) :
    Credit o (s.shard_done t a) (Function.update unanswered t ((unanswered t).erase a.id)) := by
  unfold Shard.shard_done
  cases hp : s.pending_publishes a.id with
  | none => exact hc.unheard (by simp [hp])
  | some p =>
    have hmin : min t 7 = t := by
      have hwidth : MAX_SHARDS = 8 := rfl
      omega
    simp only [hmin]
    by_cases hbit : p.shard_outstanding &&& Shard.bit t = 0
    · rw [if_pos hbit]
      refine hc.unheard ?_
      intro q hq
      obtain rfl : p = q := Option.some.inj (hp.symm.trans hq)
      simp [Outstanding, (and_bit_eq_zero ht).mp hbit]
    · rw [if_neg hbit]
      have hout : Outstanding p t := by
        rw [and_bit_eq_zero ht] at hbit
        simpa [Outstanding] using hbit
      have hgone : a.outcome ≠ .Ok → p.shard_outstanding &&& ~~~Shard.bit t = 0 :=
        fun hne => hlast.resolve_left hne p hp
      cases hoc : a.outcome with
      | Ok =>
        refine try_complete ?_ a.id
        exact hc.taken_back ht hp hout rfl
      | Failed =>
        refine drop (hc.taken_back ht hp hout rfl) ?_
        intro q hq
        simp only [Shard.put_pending, Function.update_self, Option.some.injEq] at hq
        rw [← hq]
        exact hgone (by simp [hoc])
      | Refused r =>
        refine refuse (hc.taken_back ht hp hout rfl) r ?_
        intro q hq
        simp only [Shard.put_pending, Function.update_self, Option.some.injEq] at hq
        rw [← hq]
        exact hgone (by simp [hoc])

theorem answers (hc : Credit o s unanswered) {t : Nat} (ht : t < MAX_SHARDS)
    {done : List ShardAnswer} (hlast : LastsOut s t done) :
    Credit o (done.foldl (fun s a => s.shard_done t a) s)
      (Function.update unanswered t ((unanswered t).diff (done.map ShardAnswer.id))) := by
  induction done generalizing s unanswered with
  | nil => simpa using hc
  | cons a rest ih =>
    have hnext := ih (hc.answer ht hlast.1) hlast.2
    simpa [List.diff_cons] using hnext

end Credit

/-! ## The target of a hand-off -/

section target

variable (s : Shard)

theorem sameCredit_settle (id : PublishId) (out : DurableOutcome) (reached : Bool) :
    SameCredit s (s.settle_shard id out reached) := by
  unfold Shard.settle_shard
  split
  · exact .refl s
  · dsimp only
    split <;> exact ⟨rfl, rfl, rfl, rfl, rfl⟩

theorem sameCredit_end_owed (id : PublishId) (place : Nat) (out : DurableOutcome)
    (reached : Bool) : SameCredit s (s.end_owed id place out reached) := by
  unfold Shard.end_owed
  split
  · refine SameCredit.trans ?_ (sameCredit_settle _ id out reached)
    exact ⟨rfl, rfl, rfl, rfl, rfl⟩
  · exact .refl s

theorem sameCredit_fail_held (failing : List (PublishId × Nat)) :
    SameCredit s (s.fail_held failing) := by
  unfold Shard.fail_held
  induction failing generalizing s with
  | nil => exact .refl s
  | cons x rest ih => exact (sameCredit_end_owed s x.1 x.2 .Failed false).trans (ih _)

theorem sameCredit_target (count origin : Nat) (id : PublishId)
    (deliver : PublishId → Nat → Delivery) (sync : DurableOutcome) (reached : Bool) (t : Handed) :
    SameCredit s (Shard.deliver_target count origin id deliver (s, sync, reached) t).1 := by
  have hheld := sameCredit_fail_held s (deliver id t.place).failing
  rcases deliver_target_cases count origin id deliver s sync reached t with
    ⟨-, h, -⟩ | ⟨-, res, h, -, -⟩ | ⟨-, -, ⟨h, -⟩ | ⟨h, -⟩⟩
  · rw [h]
    exact ⟨rfl, rfl, rfl, rfl, rfl⟩
  · rw [h]
    exact hheld.trans ⟨rfl, rfl, rfl, rfl, rfl⟩
  · rw [h]
    exact hheld.trans ⟨rfl, rfl, rfl, rfl, rfl⟩
  · rw [h]
    refine (hheld.trans ?_).trans (sameCredit_end_owed _ id t.place .Failed false)
    exact ⟨rfl, rfl, rfl, rfl, rfl⟩

theorem sameCredit_targets (count origin : Nat) (id : PublishId)
    (deliver : PublishId → Nat → Delivery) (targets : List Handed) (sync : DurableOutcome)
    (reached : Bool) :
    SameCredit s
      (targets.foldl (Shard.deliver_target count origin id deliver) (s, sync, reached)).1 := by
  induction targets generalizing s sync reached with
  | nil => exact .refl s
  | cons t rest ih =>
    exact (sameCredit_target s count origin id deliver sync reached t).trans (ih _ _ _)

theorem sameCredit_verdict (origin : Nat) (id : PublishId) (sync : DurableOutcome)
    (reached : Bool) : SameCredit s (s.finish_shard_verdict origin id sync reached) := by
  unfold Shard.finish_shard_verdict
  split <;> exact ⟨rfl, rfl, rfl, rfl, rfl⟩

theorem sameCredit_deliver (count : Nat) (deliver : PublishId → Nat → Delivery)
    (plain : List (PublishId × Nat)) (d : ShardDeliver) :
    SameCredit s (s.dispatch_shard_deliver count deliver plain d) := by
  unfold Shard.dispatch_shard_deliver
  split
  · exact sameCredit_fail_held s plain
  · exact (sameCredit_targets s count d.origin _ deliver d.targets .Ok false).trans
      (sameCredit_verdict _ d.origin _ _ _)

theorem sameCredit_batch (count : Nat) (deliver : PublishId → Nat → Delivery)
    (plain : Nat → List (PublishId × Nat)) (i : Nat) (batch : List ShardDeliver) :
    SameCredit s (Shard.dispatch_shard_batch count deliver plain i batch s) := by
  induction batch generalizing s i with
  | nil => exact .refl s
  | cons d rest ih => exact (sameCredit_deliver s count deliver (plain i) d).trans (ih _ _)

end target

/-! ## Fan-outs -/

/-- No other shard is handed both an ordinary subscriber and a shared member. -/
def Apart (count shard : Nat) (ordinary shared : List ShardTarget) : Prop :=
  ∀ a ∈ ordinary, ∀ b ∈ shared, shard_of a.client count = shard_of b.client count →
    shard_of a.client count = shard

instance (count shard : Nat) (ordinary shared : List ShardTarget) :
    Decidable (Apart count shard ordinary shared) :=
  inferInstanceAs (Decidable (∀ a ∈ ordinary, ∀ b ∈ shared, _))

theorem shard_of_lt (client : String) {count : Nat} (h : 2 ≤ count) :
    shard_of client count < count := by
  unfold shard_of
  rw [if_neg (by omega)]
  exact Nat.mod_lt _ (by omega)

theorem Apart.batch {count o t : Nat} {ordinary shared : List ShardTarget}
    (hapart : Apart count o ordinary shared) (ho : o < count) {a b : ShardTarget}
    (ha : a ∈ ordinary) (hb : b ∈ shared) (hane : shard_of a.client count ≠ o)
    (hbne : shard_of b.client count ≠ o) (hat : count = 2 ∨ shard_of a.client count = t)
    (hbt : count = 2 ∨ shard_of b.client count = t) : False := by
  refine hane (hapart a ha b hb ?_)
  by_cases htwo : count = 2
  · have halt := shard_of_lt a.client (by omega : 2 ≤ count)
    have hblt := shard_of_lt b.client (by omega : 2 ≤ count)
    omega
  · rw [hat.resolve_left htwo, hbt.resolve_left htwo]

theorem mem_foreign {s : Shard} {count place : Nat} {targets : List ShardTarget} {x : Handed}
    (hx : x ∈ s.foreign count place targets) :
    x.target ∈ targets ∧ shard_of x.target.client count ≠ s.shard := by
  unfold Shard.foreign at hx
  simp only [List.mem_filter, List.mem_map, decide_eq_true_eq] at hx
  obtain ⟨⟨⟨target, k⟩, hmem, rfl⟩, hne⟩ := hx
  exact ⟨(List.mem_zipIdx hmem).2.2 ▸ List.getElem_mem _, hne⟩

namespace Credit

variable {o : Nat} {s : Shard} {unanswered : Nat → List PublishId} {count : Nat} {m : Published}

theorem unowed (hc : Credit o s unanswered) {id : PublishId} (hno : ∀ t, id ∉ unanswered t)
    (p : PendingPublish) (hp : s.pending_publishes id = some p) : p.shard_outstanding = 0 := by
  apply BitVec.eq_of_getLsbD_eq
  intro t _
  have hout : ¬ Outstanding p t := fun h => hno t ((hc.waits t id).mpr ⟨p, hp, h⟩)
  simpa [Outstanding] using hout

theorem register_fresh (hc : Credit o s unanswered) (unsettled : Bool) (t : Nat) :
    (s.register_pending unsettled).2 ∉ unanswered t := by
  intro hmem
  obtain ⟨p, hp, -⟩ := (hc.waits t _).mp hmem
  have hle := hc.keys _ p hp
  simp [Shard.register_pending] at hle

/-- A publish whose fan-out leaves its entry in the table, or hands nothing over. -/
theorem publish (hcount : count ≤ MAX_SHARDS) (hc : Credit o s unanswered) (ho : o < count)
    {ordinary shared : List ShardTarget} (hapart : Apart count o ordinary shared)
    (unsettled : Bool) (left : Obligations) {durable : DurableOutcome}
    (hdurable : durable = .Ok ∨ ∀ x ∈ ordinary ++ shared, shard_of x.client count = o) :
    ∃ news : Nat → List ShardDeliver,
      (∀ t, (s.publish count m ordinary shared unsettled left durable).handoff_batches t =
        s.handoff_batches t ++ news t) ∧
      Credit o (s.publish count m ordinary shared unsettled left durable)
        (fun t => unanswered t ++ (news t).filterMap ShardDeliver.gate) := by
  have hfresh := hc.register_fresh unsettled
  have hentry : ∃ p, (s.register_pending unsettled).1.pending_publishes
      (s.register_pending unsettled).2 = some p := by
    simp [Shard.register_pending, Shard.put_pending]
  have hbatches : (s.register_pending unsettled).1.handoff_batches = s.handoff_batches := rfl
  have hc₁ := hc.register unsettled
  unfold Shard.publish
  dsimp only
  generalize s.register_pending unsettled = r at hfresh hentry hbatches hc₁ ⊢
  obtain ⟨s₁, id⟩ := r
  dsimp only at hfresh hentry hbatches hc₁ ⊢
  obtain ⟨p₁, hp₁⟩ := hentry
  -- the ordinary subscribers
  obtain ⟨news₁, hnews₁, hc₂, ⟨p₂, hp₂⟩, hgets₁⟩ := hc₁.flush (m := m) hcount
    (s₁.foreign count 0 ordinary) hp₁ (fun t _ _ _ _ _ => hfresh t)
  have hgets₁ : ∀ t, news₁ t ≠ [] → ∃ a ∈ ordinary, shard_of a.client count ≠ o ∧
      (count = 2 ∨ shard_of a.client count = t) := by
    intro t ht
    obtain ⟨-, -, x, hx, hown⟩ := hgets₁ t ht
    obtain ⟨hmem, hne⟩ := mem_foreign hx
    exact ⟨x.target, hmem, hc₁.own ▸ hne, hown⟩
  generalize s₁.flush_handoffs count (s₁.foreign count 0 ordinary) m (.Pending id) = s₂
    at hnews₁ hc₂ hp₂ ⊢
  have hmine : ∀ t, id ∉ unanswered t ++ (news₁ t).filterMap ShardDeliver.gate ∨
      ∃ a ∈ ordinary, shard_of a.client count ≠ o ∧
        (count = 2 ∨ shard_of a.client count = t) := by
    intro t
    by_cases hnil : news₁ t = []
    · exact .inl (by simpa [hnil] using hfresh t)
    · exact .inr (hgets₁ t hnil)
  -- the shared members
  obtain ⟨news₂, hnews₂, hc₃, -, hgets₂⟩ := hc₂.flush (m := { m with retain := false })
    hcount (s₂.foreign count ordinary.length shared) hp₂ (by
      intro t ht hto x hx hown
      obtain ⟨hmem, hne⟩ := mem_foreign hx
      rw [hc₂.own] at hne
      refine (hmine t).resolve_right ?_
      rintro ⟨a, ha, hane, haown⟩
      exact hapart.batch ho ha hmem hane hne haown hown)
  have hnone : durable ≠ .Ok → ∀ t, news₁ t = [] ∧ news₂ t = [] := by
    intro hne t
    have hall := hdurable.resolve_left hne
    refine ⟨?_, ?_⟩
    · by_contra hnil
      obtain ⟨a, ha, hane, -⟩ := hgets₁ t hnil
      exact hane (hall a (List.mem_append_left _ ha))
    · by_contra hnil
      obtain ⟨-, -, x, hx, -⟩ := hgets₂ t hnil
      obtain ⟨hmem, hxne⟩ := mem_foreign hx
      rw [hc₂.own] at hxne
      exact hxne (hall x.target (List.mem_append_right _ hmem))
  generalize s₂.flush_handoffs count (s₂.foreign count ordinary.length shared)
    { m with retain := false } (.Pending id) = s₃ at hnews₂ hc₃ ⊢
  have hchange := worked_change s₃ id left
  have hc₄ := hc₃.change id left
  generalize s₃.change_pending id left = s₄ at hchange hc₄ ⊢
  have hput : ∀ s', Worked s₄ s' → ∀ t,
      s'.handoff_batches t = s.handoff_batches t ++ (news₁ t ++ news₂ t) := by
    intro s' hw t
    rw [hw.handoff_batches, hchange.handoff_batches, hnews₂, hnews₁, hbatches, List.append_assoc]
  have hsum : (fun t => unanswered t ++ (news₁ t ++ news₂ t).filterMap ShardDeliver.gate) =
      fun t => (unanswered t ++ (news₁ t).filterMap ShardDeliver.gate) ++
        (news₂ t).filterMap ShardDeliver.gate := by
    funext t
    rw [List.filterMap_append, List.append_assoc]
  have hfree : durable ≠ .Ok → ∀ p, s₄.pending_publishes id = some p →
      p.shard_outstanding = 0 := by
    intro hne
    refine hc₄.unowed ?_
    intro t
    obtain ⟨h₁, h₂⟩ := hnone hne t
    simpa [h₁, h₂] using hfresh t
  refine ⟨fun t => news₁ t ++ news₂ t, ?_⟩
  rw [hsum]
  cases durable with
  | Ok => exact ⟨hput _ (worked_local_done s₄ id), hc₄.local_done id⟩
  | Failed => exact ⟨hput _ (worked_drop s₄ id), hc₄.drop (hfree (by simp))⟩
  | Refused r => exact ⟨hput _ (worked_refuse s₄ id r), hc₄.refuse r (hfree (by simp))⟩

theorem plain (hc : Credit o s unanswered) (shards : List Nat) (targets : List Handed) :
    ∃ news : Nat → List ShardDeliver,
      (∀ t, (Shard.flush_to count m none shards targets s).handoff_batches t =
        s.handoff_batches t ++ news t) ∧
      (∀ t, (news t).filterMap ShardDeliver.gate = []) ∧
      Credit o (Shard.flush_to count m none shards targets s) unanswered := by
  induction shards generalizing targets s with
  | nil => exact ⟨fun _ => [], by simp [Shard.flush_to], by simp, hc⟩
  | cons t rest ih =>
    unfold Shard.flush_to
    dsimp only
    generalize (if count = 2 then targets
      else targets.filter (fun x => shard_of x.target.client count = t)) = batch
    generalize (if count = 2 then []
      else targets.filter (fun x => shard_of x.target.client count ≠ t)) = left
    split
    · exact ih hc left
    · obtain ⟨news, hnews, hgates, hcredit⟩ := ih
        (hc.push t { m with origin := s.shard, gate := none, targets := batch }) left
      refine ⟨Function.update news t
        ({ m with origin := s.shard, gate := none, targets := batch } :: news t), ?_, ?_, hcredit⟩
      · intro u
        rw [hnews u]
        by_cases hu : u = t
        · subst hu
          simp [Shard.push_handoff]
        · simp [Shard.push_handoff, hu]
      · intro u
        by_cases hu : u = t
        · subst hu
          simpa using hgates u
        · simpa [hu] using hgates u

theorem flush_plain (hc : Credit o s unanswered) (targets : List Handed) {gate : AppendGate}
    (hgate : ∀ id, gate ≠ .Pending id) :
    ∃ news : Nat → List ShardDeliver,
      (∀ t, (s.flush_handoffs count targets m gate).handoff_batches t =
        s.handoff_batches t ++ news t) ∧
      (∀ t, (news t).filterMap ShardDeliver.gate = []) ∧
      Credit o (s.flush_handoffs count targets m gate) unanswered := by
  unfold Shard.flush_handoffs
  split
  · exact ⟨fun _ => [], by simp, by simp, hc⟩
  · cases gate with
    | Pending id => exact absurd rfl (hgate id)
    | Replay id => exact ⟨fun _ => [], by simp, by simp, hc⟩
    | Peer | Shard | None | LiveOnly => exact hc.plain _ targets

end Credit

/-! ## The steps of the node -/

/-- The entry, if there is one, waits for no shard. -/
def Unowed (s : Shard) (id : PublishId) : Prop :=
  ∀ p ∈ s.pending_publishes id, p.shard_outstanding = 0

instance (s : Shard) (id : PublishId) : Decidable (Unowed s id) :=
  inferInstanceAs (Decidable (∀ p ∈ s.pending_publishes id, _))

/-- The condition on a step: a publish hands each shard one list of targets, and an entry leaves
the table only when no other shard owes an answer for it. -/
def Clean (n : Node) : Step → Prop
  | .Publish shard _ ordinary shared _ _ durable =>
    shard < n.count ∧ Apart n.count shard ordinary shared ∧
      (durable = .Ok ∨ ∀ x ∈ ordinary ++ shared, shard_of x.client n.count = shard)
  | .Done shard target =>
    ∀ done ∈ (n.answers target shard).head?, LastsOut (n.shards shard) target done
  | .Drop shard id => Unowed (n.shards shard) id
  | .Refuse shard id _ => Unowed (n.shards shard) id
  | _ => True

instance (n : Node) (step : Step) : Decidable (Clean n step) :=
  match step with
  | .Publish .. => inferInstanceAs (Decidable (_ ∧ _ ∧ (_ ∨ ∀ x ∈ _ ++ _, _)))
  | .Done shard target => inferInstanceAs (Decidable
      (∀ done ∈ (n.answers target shard).head?, LastsOut (n.shards shard) target done))
  | .Drop shard id => inferInstanceAs (Decidable (Unowed (n.shards shard) id))
  | .Refuse shard id _ => inferInstanceAs (Decidable (Unowed (n.shards shard) id))
  | .Plain .. | .Flush .. | .Dispatch .. | .Settle .. | .Change .. | .Try .. =>
    inferInstanceAs (Decidable True)

def Conserved (w : Watched) : Prop := ∀ o, Credit o (w.node.shards o) (w.unanswered o)

theorem conserved_new (count : Nat) : Conserved (Watched.new count) := by
  intro o
  refine ⟨rfl, ?_, ?_, ?_, ?_⟩
  · intro id p hp
    cases hp
  · exact fun t => List.nodup_nil
  · intro t id
    simp [Watched.new, Node.new]
  · exact fun t => rfl

section steps

variable {w : Watched} {step : Step}

variable {o : Nat}

theorem unanswered_same
    (hbatches : ∀ t, ((w.node.step step).shards o).handoff_batches t =
      (w.node.shards o).handoff_batches t ∨
      ((w.node.step step).shards o).handoff_batches t = [])
    (hnone : ∀ t, arriving w.node step o t = []) : (w.step step).unanswered o = w.unanswered o := by
  funext t
  have hput : putInto w.node step o t = [] := by
    unfold putInto
    rcases hbatches t with h | h
    · simp [h]
    · simp [h]
  simp [Watched.step, hput, hnone t]

theorem unanswered_put (news : Nat → List ShardDeliver)
    (hnews : ∀ t, ((w.node.step step).shards o).handoff_batches t =
      (w.node.shards o).handoff_batches t ++ news t) (hnone : ∀ t, arriving w.node step o t = []) :
    (w.step step).unanswered o =
      fun t => w.unanswered o t ++ (news t).filterMap ShardDeliver.gate := by
  funext t
  simp [Watched.step, putInto, hnews t, hnone t]

variable {s : Shard}

theorem conserved_at (hw : Conserved w)
    (hshards : (w.node.step step).shards = (w.node.put o s).shards)
    (hnone : ∀ other ≠ o, ∀ t, arriving w.node step other t = [])
    (h : Credit o s ((w.step step).unanswered o)) : Conserved (w.step step) := by
  intro other
  have hother : (w.step step).node.shards other = if other = o then s else w.node.shards other := by
    rw [← shards_put, ← hshards]
    rfl
  by_cases ho : other = o
  · subst ho
    rw [hother, if_pos rfl]
    exact h
  · rw [hother, if_neg ho, unanswered_same (fun t => .inl ?_) (hnone other ho)]
    · exact hw other
    · rw [hshards, shards_put, if_neg ho]

theorem conserved_work (hw : Conserved w)
    (hshards : (w.node.step step).shards = (w.node.put o s).shards)
    (hnone : ∀ other t, arriving w.node step other t = [])
    (hbatches : s.handoff_batches = (w.node.shards o).handoff_batches)
    (h : Credit o s (w.unanswered o)) : Conserved (w.step step) := by
  refine conserved_at hw hshards (fun other _ => hnone other) ?_
  rw [unanswered_same (fun t => .inl ?_) (hnone o)]
  · exact h
  · rw [hshards, put_self, hbatches]

theorem shard_done_handoff_batches (s : Shard) (t : Nat) (a : ShardAnswer) :
    (s.shard_done t a).handoff_batches = s.handoff_batches := by
  unfold Shard.shard_done
  split
  · rfl
  · dsimp only
    split
    · rfl
    · cases a.outcome with
      | Ok => exact (worked_try _ a.id).handoff_batches
      | Failed => rfl
      | Refused r => exact (worked_refuse _ a.id r).handoff_batches

theorem answers_handoff_batches (s : Shard) (t : Nat) (done : List ShardAnswer) :
    (done.foldl (fun s a => s.shard_done t a) s).handoff_batches = s.handoff_batches := by
  induction done generalizing s with
  | nil => rfl
  | cons a rest ih => exact (ih _).trans (shard_done_handoff_batches s t a)

variable {m : Published}

theorem conserved_publish {ordinary shared : List ShardTarget} {unsettled : Bool}
    {left : Obligations} {durable : DurableOutcome} (hw : Conserved w)
    (hcount : w.node.count ≤ MAX_SHARDS)
    (hclean : Clean w.node (.Publish o m ordinary shared unsettled left durable)) :
    Conserved (w.step (.Publish o m ordinary shared unsettled left durable)) := by
  obtain ⟨ho, hapart, hdurable⟩ := hclean
  obtain ⟨news, hnews, hcredit⟩ := (hw o).publish (m := m) hcount ho hapart unsettled left hdurable
  refine conserved_at hw rfl (fun _ _ _ => rfl) ?_
  rw [unanswered_put news ?_ (fun _ => rfl)]
  · exact hcredit
  · intro t
    rw [← hnews t]
    exact congrArg (fun s => s.handoff_batches t) (put_self _ _ _)

theorem conserved_plain {targets : List ShardTarget} {gate : AppendGate} (hw : Conserved w) :
    Conserved (w.step (.Plain o m targets gate)) := by
  by_cases hgate : ∃ id, gate = .Pending id
  · obtain ⟨id, rfl⟩ := hgate
    refine conserved_work (o := o) (s := w.node.shards o) hw ?_ (fun _ _ => rfl) rfl (hw o)
    simp [Node.step, Node.put]
  · have hstep : w.node.step (.Plain o m targets gate) = w.node.put o
        ((w.node.shards o).flush_handoffs w.node.count
          ((w.node.shards o).foreign w.node.count 0 targets) m gate) := by
      cases gate with
      | Pending id => exact absurd ⟨id, rfl⟩ hgate
      | Replay id | Peer | Shard | None | LiveOnly => rfl
    obtain ⟨news, hnews, hgates, hcredit⟩ := (hw o).flush_plain (m := m)
      ((w.node.shards o).foreign w.node.count 0 targets) (fun id h => hgate ⟨id, h⟩)
    refine conserved_at hw (congrArg Node.shards hstep) (fun _ _ _ => rfl) ?_
    rw [unanswered_put news ?_ (fun _ => rfl)]
    · simp only [hgates, List.append_nil]
      exact hcredit
    · intro t
      rw [← hnews t, hstep, put_self]

theorem conserved_flush (hw : Conserved w) : Conserved (w.step (.Flush o)) := by
  by_cases hone : w.node.count ≤ 1
  · refine conserved_work (o := o) (s := w.node.shards o) hw ?_ (fun _ _ => rfl) rfl (hw o)
    simp [Node.step, hone, Node.put]
  · have hstep : w.node.step (.Flush o) = w.node.flush_shard_batches o := if_neg hone
    refine conserved_at (o := o) hw ((congrArg Node.shards hstep).trans rfl)
      (fun _ _ _ => rfl) ?_
    rw [unanswered_same ?_ (fun _ => rfl)]
    · exact ⟨(hw o).own, (hw o).keys, (hw o).once, (hw o).waits, (hw o).counts⟩
    · intro t
      rw [hstep, Node.flush_shard_batches]
      dsimp only
      rw [put_self]
      dsimp only
      split
      · exact .inr rfl
      · exact .inl rfl

theorem conserved_done {t : Nat} (hw : Conserved w) (hcount : w.node.count ≤ MAX_SHARDS)
    (hclean : Clean w.node (.Done o t)) : Conserved (w.step (.Done o t)) := by
  have helse : ∀ other ≠ o, ∀ u, arriving w.node (.Done o t) other u = [] := by
    intro other ho u
    exact if_neg (fun h => ho h.1)
  have hstill : (w.node.step (.Done o t)).shards = w.node.shards →
      (∀ u, arriving w.node (.Done o t) o u = []) → Conserved (w.step (.Done o t)) := by
    intro hshards hnone
    refine conserved_at (o := o) (s := w.node.shards o) hw ?_ helse ?_
    · simp [hshards, Node.put]
    · rw [unanswered_same (fun u => .inl ?_) hnone]
      · exact hw o
      · rw [hshards]
  by_cases hout : w.node.count ≤ t
  · refine hstill ?_ ?_
    · simp [Node.step, hout]
    · intro u
      exact if_neg (fun h => Nat.not_lt.mpr hout h.2.2)
  · cases ha : w.node.answers t o with
    | nil =>
      refine hstill ?_ ?_
      · simp [Node.step, hout, ha]
      · intro u
        simp [arriving, ha]
    | cons done rest =>
      have ht : t < MAX_SHARDS := by omega
      have hlast : LastsOut (w.node.shards o) t done := hclean done (by simp [ha])
      have hshards : (w.node.step (.Done o t)).shards = (w.node.put o
          (done.foldl (fun s a => s.shard_done t a) (w.node.shards o))).shards := by
        simp [Node.step, hout, ha]
      refine conserved_at hw hshards helse ?_
      have hnow : (w.step (.Done o t)).unanswered o = Function.update (w.unanswered o) t
          ((w.unanswered o t).diff (done.map ShardAnswer.id)) := by
        funext u
        have hput : putInto w.node (.Done o t) o u = [] := by
          rw [putInto, hshards, put_self, answers_handoff_batches]
          simp
        have hlt : t < w.node.count := by omega
        by_cases hu : u = t
        · subst hu
          simp [Watched.step, hput, arriving, ha, hlt]
        · simp [Watched.step, hput, arriving, hu]
      rw [hnow]
      exact (hw o).answers ht hlast

theorem conserved_step (hw : Conserved w) (hcount : w.node.count ≤ MAX_SHARDS)
    (hclean : Clean w.node step) : Conserved (w.step step) := by
  cases step with
  | Publish o m ordinary shared unsettled left durable =>
    exact conserved_publish hw hcount hclean
  | Plain o m targets gate => exact conserved_plain hw
  | Flush o => exact conserved_flush hw
  | Dispatch o from_ deliver plain =>
    cases hb : w.node.batches from_ o with
    | nil =>
      refine conserved_work (o := o) (s := w.node.shards o) hw ?_ (fun _ _ => rfl) rfl (hw o)
      simp [Node.step, hb, Node.put]
    | cons batch rest =>
      have hsame := sameCredit_batch (w.node.shards o) w.node.count deliver plain 0 batch
      refine conserved_work (o := o) hw ?_ (fun _ _ => rfl) hsame.handoff_batches
        (hsame.credit (hw o))
      simp only [Node.step, hb]
  | Settle o id place out reached =>
    have hsame := sameCredit_end_owed (w.node.shards o) id place out reached
    exact conserved_work hw rfl (fun _ _ => rfl) hsame.handoff_batches (hsame.credit (hw o))
  | Done o t => exact conserved_done hw hcount hclean
  | Change o id left =>
    exact conserved_work hw rfl (fun _ _ => rfl) (worked_change _ id left).handoff_batches
      ((hw o).change id left)
  | Try o id =>
    exact conserved_work hw rfl (fun _ _ => rfl) (worked_try _ id).handoff_batches
      ((hw o).try_complete id)
  | Drop o id => exact conserved_work hw rfl (fun _ _ => rfl) rfl ((hw o).drop hclean)
  | Refuse o id r =>
    exact conserved_work hw rfl (fun _ _ => rfl) (worked_refuse _ id r).handoff_batches
      ((hw o).refuse r hclean)

end steps

/-! ## Runs -/

def CleanRun : Node → List Step → Prop
  | _, [] => True
  | n, step :: rest => Clean n step ∧ CleanRun (n.step step) rest

instance decidableCleanRun : (n : Node) → (steps : List Step) → Decidable (CleanRun n steps)
  | _, [] => inferInstanceAs (Decidable True)
  | n, step :: rest =>
    have := decidableCleanRun (n.step step) rest
    inferInstanceAs (Decidable (Clean n step ∧ CleanRun (n.step step) rest))

theorem conserved_run {w : Watched} (hw : Conserved w) (hcount : w.node.count ≤ MAX_SHARDS)
    (steps : List Step) (hclean : CleanRun w.node steps) : Conserved (w.run steps) := by
  induction steps generalizing w with
  | nil => exact hw
  | cons step rest ih =>
    refine ih (conserved_step hw hcount hclean.1) ?_ hclean.2
    rw [Watched.step, step_count]
    exact hcount

/-- What the count of a shard is for, and that the data lane moves once everything is
answered. -/
def CreditHolds (w : Watched) (cap : Nat) : Prop :=
  ∀ o, (∀ t, (w.node.shards o).handoff_inflight t = (w.unanswered o t).length) ∧
    ((∀ t, w.unanswered o t = []) →
      (∀ t, (w.node.shards o).handoff_inflight t = 0) ∧
        (w.node.shards o).handoff_gated w.node.count cap = false)

/-- In every run in which each shard is handed a publish once, and an entry leaves the table only
when no other shard owes an answer for it, a shard counts the hand-offs without an answer; when
all are answered the count is zero and the data lane is open. -/
theorem handoff_credit_is_conserved (count : Nat) (hcount : count ≤ MAX_SHARDS) (cap : Nat)
    (steps : List Step) (hclean : CleanRun (Node.new count) steps) :
    CreditHolds ((Watched.new count).run steps) cap := by
  have hw := conserved_run (conserved_new count) hcount steps hclean
  intro o
  refine ⟨(hw o).counts, ?_⟩
  intro hall
  have hzero : ∀ t, (((Watched.new count).run steps).node.shards o).handoff_inflight t = 0 := by
    intro t
    rw [(hw o).counts t, hall t]
    rfl
  refine ⟨hzero, ?_⟩
  by_cases hcap : cap = 0
  · simp [Shard.handoff_gated, hcap]
  · simp [Shard.handoff_gated, hzero, hcap]

/-- A publish to subscribers of two other shards, handed over, delivered and answered by both:
the first subscriber is served as it is, the second one at once. -/
def toBoth (first : DurableOutcome) : List Step :=
  [.Publish 0 ⟨"t", [], .AtLeastOnce, false, none, {}⟩ [.Ordinary "e", .Ordinary "a"] [] false {}
      .Ok,
    .Flush 0,
    .Dispatch 1 0 (fun _ _ => { landing := .Settled first }) (fun _ => []), .Flush 1, .Done 0 1,
    .Dispatch 2 0 (fun _ _ => { landing := .Settled .Ok }) (fun _ => []), .Flush 2, .Done 0 2]

theorem both_answers_give_the_credit_back :
    CleanRun (Node.new 3) (toBoth .Ok) ∧ CreditHolds ((Watched.new 3).run (toBoth .Ok)) 1 := by
  have hclean : CleanRun (Node.new 3) (toBoth .Ok) := by decide +kernel
  exact ⟨hclean, handoff_credit_is_conserved 3 (by decide) 1 _ hclean⟩

/-- The first answer is a failure: the publish is dropped, and the answer of the other shard
finds no entry. Its credit stays, and with a cap of one the data lane stops for good. -/
theorem a_failed_answer_keeps_the_credit_of_the_other : ¬ ∀ (count : Nat), count ≤ MAX_SHARDS →
    ∀ (cap : Nat) (steps : List Step), CreditHolds ((Watched.new count).run steps) cap := by
  intro h
  have hcounts := (h 3 (by decide) 1 (toBoth .Failed) 0).1 2
  exact absurd hcounts (by decide +kernel)

end mqttd.hub.shards
