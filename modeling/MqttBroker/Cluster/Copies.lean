-- One owner's key and the copies of its replica set, with each op delivered,
-- refused or lost at each copy. A quorum append is recovered from a majority
-- exactly when the copies of the majority have no hole below it.
import MqttBroker.Cluster.PipelineRuns
import MqttBroker.Cluster.Merge
import MqttBroker.Cluster.BatchLaws
import MqttBroker.Lib.Majority

namespace mqtt_cluster.cluster_log

open placement mqtt_storage.repl TaggedRegister

/-! ## An op at a copy -/

namespace ReplicaState

/-- An op leaves the logs as they were, or is applied in memory. An op that is acknowledged was
applied, or there is a newer attempt. -/
theorem apply_cases (io : Nat → Bool) (s : ReplicaState) (e : Epoch) (op : ReplOp) :
    ((s.apply io e op).2.logs = s.logs ∧ (s.apply io e op).2.truncated = s.truncated ∧
        ((s.apply io e op).1 = true → s.is_stale_attempt e op = true)) ∨
      ((s.apply io e op).1 = true ∧ s.is_stale_attempt e op = false ∧
        (s.apply io e op).2.logs = (s.apply_in_memory e op).logs ∧
        (s.apply io e op).2.truncated = (s.apply_in_memory e op).truncated) := by
  by_cases hf : e < s.fence_of (op_group op)
  · have h : s.apply io e op = (false, s) := if_pos hf
    rw [h]
    exact Or.inl ⟨rfl, rfl, by simp⟩
  · by_cases hs : s.is_stale_attempt e op = true
    · have h : s.apply io e op = (true, { s with
          fences := s.fences.insert (op_group op) (max e (s.fence_of (op_group op))) }) :=
        (if_neg hf).trans (if_pos hs)
      rw [h]
      exact Or.inl ⟨rfl, rfl, fun _ => hs⟩
    · rcases hp : s.persist_batch io (s.unpersisted ((∅ : Fences).insert (op_group op) e)) [(e, op)]
        with ⟨ok, dbs⟩
      have h : s.apply io e op = if ok then
          (true, { s with
            dbs
            persisted_fences := s.persisted_fences.extend
              (s.unpersisted ((∅ : Fences).insert (op_group op) e))
            fences := s.fences.insert (op_group op) e }.apply_in_memory e op)
          else (false, { s with dbs }) := by
        rw [apply, if_neg hf, if_neg hs]
        simp only [hp]
      rw [h]
      cases ok with
      | false => exact Or.inl ⟨rfl, rfl, by simp⟩
      | true =>
        refine Or.inr ⟨rfl, by simpa using hs, ?_, ?_⟩
        · cases op <;> rfl
        · cases op <;> rfl

/-- What an append leaves at a copy of its key: a version at least as new as the one before, and
as itself when it is acknowledged. -/
theorem held_apply_append (io : Nat → Bool) (s : ReplicaState) (e : Epoch) (key : String)
    (o : Offset) (q : Nat) (r : Bytes) :
    (s.apply io e (.Append key o q r)).2.watermark key = s.watermark key ∧
      (∀ o' v, held (s.apply io e (.Append key o q r)).2.logs key o' = some v →
        held s.logs key o' = some v ∨ (o' = o ∧ v = (tag e q, r))) ∧
      (∀ o' v, held s.logs key o' = some v →
        ∃ v', held (s.apply io e (.Append key o q r)).2.logs key o' = some v' ∧ v.1 ≤ v'.1) ∧
      ((s.apply io e (.Append key o q r)).1 = true →
        ∃ v, held (s.apply io e (.Append key o q r)).2.logs key o = some v ∧ tag e q ≤ v.1) := by
  rcases apply_cases io s e (.Append key o q r) with ⟨hl, ht, hs⟩ | ⟨hok, hs, hl, ht⟩
  · refine ⟨by rw [watermark, ht, watermark], fun o' v h => ?_, fun o' v h => ?_, fun hok => ?_⟩
    · rw [hl] at h
      exact Or.inl h
    · rw [hl]
      exact ⟨v, h, le_refl _⟩
    · rw [hl]
      have hstale := hs hok
      rw [is_stale_attempt_append, below_iff] at hstale
      obtain ⟨v, hv, hlt⟩ := hstale
      exact ⟨v, hv, le_of_lt hlt⟩
  · have hslot : ∀ o', held (s.apply io e (.Append key o q r)).2.logs key o' =
        if o = o' then some (tag e q, r) else held s.logs key o' := by
      intro o'
      rw [hl]
      have hstep := s.held_apply_in_memory (e, .Append key o q r) key o'
      rw [hstep]
      by_cases ho : o = o' <;> simp [slotStep, slotEvent, ho]
    refine ⟨by rw [watermark, ht]; rfl, fun o' v h => ?_, fun o' v h => ?_, fun _ => ?_⟩
    · rw [hslot] at h
      split at h
      · rename_i ho
        cases h
        exact Or.inr ⟨ho.symm, rfl⟩
      · exact Or.inl h
    · rw [hslot]
      by_cases ho : o = o'
      · subst ho
        rw [if_pos rfl]
        refine ⟨_, rfl, le_of_not_gt (fun hlt => ?_)⟩
        have hstale : s.is_stale_attempt e (.Append key o q r) = true := by
          rw [is_stale_attempt_append, below_iff]
          exact ⟨v, h, hlt⟩
        rw [hstale] at hs
        cases hs
      · rw [if_neg ho]
        exact ⟨v, h, le_refl _⟩
    · rw [hslot, if_pos rfl]
      exact ⟨_, rfl, le_refl _⟩

theorem held_apply_truncate (io : Nat → Bool) (s : ReplicaState) (e : Epoch) (key : String)
    (u : Offset) :
    ((s.apply io e (.Truncate key u)).2.watermark key = s.watermark key ∧
        ∀ o, held (s.apply io e (.Truncate key u)).2.logs key o = held s.logs key o) ∨
      ((s.apply io e (.Truncate key u)).1 = true ∧
        (s.apply io e (.Truncate key u)).2.watermark key = max (s.watermark key) u ∧
        ∀ o, held (s.apply io e (.Truncate key u)).2.logs key o =
          if o ≤ u then none else held s.logs key o) := by
  rcases apply_cases io s e (.Truncate key u) with ⟨hl, ht, -⟩ | ⟨hok, -, hl, ht⟩
  · left
    exact ⟨by rw [watermark, ht, watermark], fun o => by rw [hl]⟩
  · right
    refine ⟨hok, ?_, fun o => ?_⟩
    · have hstep := s.truncated_apply_in_memory (e, .Truncate key u) key
      rw [watermark, ht, hstep]
      simp [lowStep, watermark]
    · rw [hl]
      have hstep := s.held_apply_in_memory (e, .Truncate key u) key o
      rw [hstep]
      by_cases ho : o ≤ u <;> simp [slotStep, slotEvent, ho]

end ReplicaState

/-! ## One owner and the copies of its set -/

/-- The pipeline of the key on its owner, the copies of the members of the set (the owner's
first, then those of the followers), which copy acknowledged which append, and the truncates
that were sent. -/
structure Spread where
  pipe : Pipeline := {}
  copies : List ReplicaState
  accepted : List (Nat × Nat) := []
  sent : List Offset := []

/-- `io` says of each shard of a copy whether its commit succeeds, and `heard` whether the
owner gets the answer of a copy. -/
inductive Move
  | Submit (record : Bytes) (tier : DurabilityTier)
  | Deliver (i r : Nat) (io : Nat → Bool)
  | Own (i : Nat) (heard : Bool)
  | Follower (i f : Nat) (heard : Bool)
  | Resolve (i : Nat)
  | Truncate (up_to : Offset)
  | TruncateDurable (up_to : Offset)
  | TruncateAcked (k : Nat) (own : Bool) (acked : List Nat)
  | DeliverTruncate (up_to : Offset) (r : Nat) (io : Nat → Bool)

namespace Spread

variable (log : ClusterLog) (epoch : Epoch) (key : String)

/-- The truncates that a step sends: never past the watermark. -/
def sends (s : Pipeline) : Step → List Offset
  | .Truncate up_to => (s.key.map (fun ks => min up_to ks.committed)).toList
  | .TruncateDurable up_to => (s.key.filter (fun ks => up_to ≤ ks.committed)).map (fun _ => up_to) |>.toList
  | _ => []

def pipe_step (w : Spread) (step : Step) : Spread :=
  { w with pipe := Pipeline.step log w.pipe step, sent := w.sent ++ sends w.pipe step }

def deliver (w : Spread) (r : Nat) (io : Nat → Bool) (op : ReplOp) : Bool × List ReplicaState :=
  match w.copies[r]? with
  | none => (false, w.copies)
  | some c => ((c.apply io epoch op).1, w.copies.set r (c.apply io epoch op).2)

def move (w : Spread) : Move → Spread
  | .Submit record tier => w.pipe_step log (.Submit record tier)
  | .Deliver i r io => match w.pipe.appends[i]? with
    | none => w
    | some a =>
      let (ok, copies) := w.deliver epoch r io (.Append key a.offset a.seq a.record)
      { w with copies, accepted := if ok then w.accepted ++ [(i, r)] else w.accepted }
  | .Own i heard => w.pipe_step log (.Own i (heard && decide ((i, 0) ∈ w.accepted)))
  | .Follower i f heard => w.pipe_step log (.Follower i f (heard && decide ((i, f + 1) ∈ w.accepted)))
  | .Resolve i => w.pipe_step log (.Resolve i)
  | .Truncate up_to => w.pipe_step log (.Truncate up_to)
  | .TruncateDurable up_to => w.pipe_step log (.TruncateDurable up_to)
  | .TruncateAcked k own acked => w.pipe_step log (.TruncateAcked k own acked)
  | .DeliverTruncate up_to r io =>
    if up_to ∈ w.sent then { w with copies := (w.deliver epoch r io (.Truncate key up_to)).2 }
    else w

def moves (w : Spread) (ms : List Move) : Spread := ms.foldl (move log epoch key) w

/-- What the copies of some members answer a recovery read with. -/
def reads (w : Spread) (members : List Nat) : List ReplicaRead :=
  members.filterMap (fun r => w.copies[r]?.map (fun c => c.read key true))

/-! ## What every move keeps -/

/-- An ack that was counted was given; a copy that gave one has the attempt, or a newer one, or
was truncated past it; and whatever a copy has is an attempt of the owner. -/
structure Kept (w : Spread) : Prop where
  sound : Pipeline.Sound log w.pipe
  seqs : ∀ (i j : Nat) a b, w.pipe.appends[i]? = some a → w.pipe.appends[j]? = some b → i < j →
    a.seq < b.seq
  seq_le : ∀ (i : Nat) a, w.pipe.appends[i]? = some a → a.seq ≤ w.pipe.ks.seq ∧ 0 < a.offset
  own : ∀ (i : Nat) a, w.pipe.appends[i]? = some a → a.own = true → (i, 0) ∈ w.accepted
  acked : ∀ (i : Nat) a, w.pipe.appends[i]? = some a → ∀ f ∈ a.acked, (i, f + 1) ∈ w.accepted
  stored : ∀ p ∈ w.accepted, ∃ a c, w.pipe.appends[p.1]? = some a ∧ w.copies[p.2]? = some c ∧
    ((∃ v, held c.logs key a.offset = some v ∧ tag epoch a.seq ≤ v.1) ∨ a.offset ≤ c.watermark key)
  origin : ∀ (r : Nat) c, w.copies[r]? = some c → ∀ o v, held c.logs key o = some v →
    ∃ (i : Nat) (a : Append), w.pipe.appends[i]? = some a ∧ a.offset = o ∧
      v = (tag epoch a.seq, a.record)
  lows : ∀ (r : Nat) c, w.copies[r]? = some c → c.watermark key = 0 ∨ c.watermark key ∈ w.sent

def Given (w : Spread) : Step → Prop
  | .Own i true => (i, 0) ∈ w.accepted
  | .Follower i f true => (i, f + 1) ∈ w.accepted
  | _ => True

variable {w : Spread}

theorem kept_pipe (h : Kept log epoch key w) (step : Step) (hg : w.Given step) :
    Kept log epoch key (w.pipe_step log step) := by
  have horigin : ∀ {i : Nat} {b : Append}, (w.pipe_step log step).pipe.appends[i]? = some b → _ :=
    fun hi => Pipeline.step_origin log h.sound.toCounts step hi
  have hkeeps : ∀ {i : Nat} {a : Append}, w.pipe.appends[i]? = some a → _ :=
    fun hi => Pipeline.step_keeps_op log h.sound.toCounts step hi
  have hseq : w.pipe.ks.seq ≤ (w.pipe_step log step).pipe.ks.seq := Pipeline.step_seq log w.pipe step
  refine ⟨Pipeline.sound_step log h.sound step, ?_, ?_, ?_, ?_, ?_, ?_, ?_⟩
  · intro i j b b' hi hj hlt
    rcases horigin hi with ⟨a, ha, hop⟩ | ⟨record, tier, -, hlen, -⟩
    · rcases horigin hj with ⟨a', ha', hop'⟩ | ⟨record, tier, -, -, rfl⟩
      · rw [hop.seq, hop'.seq]
        exact h.seqs i j a a' ha ha' hlt
      · rw [hop.seq]
        exact Nat.lt_succ_of_le (h.seq_le i a ha).1
    · rcases horigin hj with ⟨a', ha', -⟩ | ⟨record, tier, -, hlen', -⟩
      · have := (List.getElem?_eq_some_iff.mp ha').1
        omega
      · omega
  · intro i b hi
    rcases horigin hi with ⟨a, ha, hop⟩ | ⟨record, tier, hstep, -, rfl⟩
    · rw [hop.seq, hop.offset]
      exact ⟨Nat.le_trans (h.seq_le i a ha).1 hseq, (h.seq_le i a ha).2⟩
    · subst hstep
      exact ⟨Nat.le_refl _, Nat.lt_of_le_of_lt (Nat.zero_le _) (Pipeline.stage_offset _ record).2⟩
  · intro i b hi hown
    rcases horigin hi with ⟨a, ha, hfrom⟩ | ⟨record, tier, -, -, rfl⟩
    · rcases hfrom.own hown with hold | rfl
      · exact h.own i a ha hold
      · exact hg
    · cases hown
  · intro i b hi f hf
    rcases horigin hi with ⟨a, ha, hfrom⟩ | ⟨record, tier, -, -, rfl⟩
    · rcases hfrom.acked f hf with hold | rfl
      · exact h.acked i a ha f hold
      · exact hg
    · cases hf
  · intro p hp
    obtain ⟨a, c, ha, hc, hcase⟩ := h.stored p hp
    obtain ⟨b, hb, hop⟩ := hkeeps ha
    refine ⟨b, c, hb, hc, ?_⟩
    rw [hop.offset, hop.seq]
    exact hcase
  · intro r c hc o v hv
    obtain ⟨i, a, ha, ho, rfl⟩ := h.origin r c hc o v hv
    obtain ⟨b, hb, hop⟩ := hkeeps ha
    exact ⟨i, b, hb, hop.offset.trans ho, by rw [hop.seq, hop.record]⟩
  · intro r c hc
    exact (h.lows r c hc).imp id (fun hm => List.mem_append_left _ hm)

variable {r j : Nat} {c : ReplicaState}

theorem get_deliver {io : Nat → Bool} {op : ReplOp} (h : (w.deliver epoch r io op).2[j]? = some c) :
    w.copies[j]? = some c ∨
      (r = j ∧ ∃ c0, w.copies[j]? = some c0 ∧ c = (c0.apply io epoch op).2) := by
  unfold deliver at h
  split at h
  · exact Or.inl h
  · rename_i c0 hc0
    rw [List.getElem?_set] at h
    split at h
    · rename_i hrj
      subst hrj
      split at h
      · cases h
        exact Or.inr ⟨rfl, c0, hc0, rfl⟩
      · cases h
    · exact Or.inl h

theorem deliver_get (r : Nat) (io : Nat → Bool) (op : ReplOp) (h : w.copies[j]? = some c) :
    (r ≠ j ∧ (w.deliver epoch r io op).2[j]? = some c) ∨
      (r = j ∧ (w.deliver epoch r io op).1 = (c.apply io epoch op).1 ∧
        (w.deliver epoch r io op).2[j]? = some (c.apply io epoch op).2) := by
  have hlt := (List.getElem?_eq_some_iff.mp h).1
  by_cases hrj : r = j
  · subst hrj
    right
    unfold deliver
    rw [h]
    exact ⟨rfl, rfl, by simp [hlt]⟩
  · left
    refine ⟨hrj, ?_⟩
    unfold deliver
    split
    · exact h
    · rw [List.getElem?_set, if_neg hrj]
      exact h

theorem kept_deliver (h : Kept log epoch key w) (i r : Nat) (io : Nat → Bool) :
    Kept log epoch key (w.move log epoch key (.Deliver i r io)) := by
  unfold move
  dsimp only
  split
  · exact h
  rename_i a hi
  set op : ReplOp := .Append key a.offset a.seq a.record with hop
  have hcopy : ∀ c0 : ReplicaState, _ := fun c0 =>
    ReplicaState.held_apply_append io c0 epoch key a.offset a.seq a.record
  have hmem : ∀ p, p ∈ (if (w.deliver epoch r io op).1 = true then w.accepted ++ [(i, r)]
      else w.accepted) → p ∈ w.accepted ∨ (p = (i, r) ∧ (w.deliver epoch r io op).1 = true) := by
    intro p hp
    split at hp
    · rename_i hok
      rcases List.mem_append.mp hp with hp | hp
      · exact Or.inl hp
      · exact Or.inr ⟨List.mem_singleton.mp hp, hok⟩
    · exact Or.inl hp
  have hsub : ∀ p ∈ w.accepted, p ∈ (if (w.deliver epoch r io op).1 = true then
      w.accepted ++ [(i, r)] else w.accepted) := by
    intro p hp
    split
    · exact List.mem_append_left _ hp
    · exact hp
  refine ⟨h.sound, h.seqs, h.seq_le, fun k b hk hown => hsub _ (h.own k b hk hown),
    fun k b hk f hf => hsub _ (h.acked k b hk f hf), ?_, ?_, ?_⟩
  · intro p hp
    rcases hmem p hp with hp | ⟨rfl, hok⟩
    · obtain ⟨b, c, hb, hc, hcase⟩ := h.stored p hp
      rcases deliver_get epoch r io op hc with ⟨-, hc'⟩ | ⟨-, -, hc'⟩
      · exact ⟨b, c, hb, hc', hcase⟩
      · refine ⟨b, _, hb, hc', ?_⟩
        obtain ⟨hw, -, hmono, -⟩ := hcopy c
        rcases hcase with ⟨v, hv, hle⟩ | hlow
        · obtain ⟨v', hv', hle'⟩ := hmono _ v hv
          exact Or.inl ⟨v', hv', le_trans hle hle'⟩
        · exact Or.inr (by rw [hw]; exact hlow)
    · rcases hc : w.copies[r]? with _ | c
      · simp [deliver, hc] at hok
      · rcases deliver_get epoch r io op hc with ⟨hne, -⟩ | ⟨-, hsame, hc'⟩
        · exact absurd rfl hne
        · rw [hsame] at hok
          obtain ⟨v, hv, hle⟩ := (hcopy c).2.2.2 hok
          exact ⟨a, _, hi, hc', Or.inl ⟨v, hv, hle⟩⟩
  · intro j c hc o v hv
    rcases get_deliver epoch hc with hc | ⟨-, c0, hc0, rfl⟩
    · exact h.origin j c hc o v hv
    · rcases (hcopy c0).2.1 o v hv with hold | ⟨rfl, rfl⟩
      · exact h.origin j c0 hc0 o v hold
      · exact ⟨i, a, hi, rfl, rfl⟩
  · intro j c hc
    rcases get_deliver epoch hc with hc | ⟨-, c0, hc0, rfl⟩
    · exact h.lows j c hc
    · rw [(hcopy c0).1]
      exact h.lows j c0 hc0

theorem kept_deliver_truncate (h : Kept log epoch key w) (u : Offset) (r : Nat) (io : Nat → Bool) :
    Kept log epoch key (w.move log epoch key (.DeliverTruncate u r io)) := by
  unfold move
  dsimp only
  split
  · rename_i hsent
    have hcopy : ∀ c0 : ReplicaState, _ := fun c0 =>
      ReplicaState.held_apply_truncate io c0 epoch key u
    refine ⟨h.sound, h.seqs, h.seq_le, h.own, h.acked, ?_, ?_, ?_⟩
    · intro p hp
      obtain ⟨b, c, hb, hc, hcase⟩ := h.stored p hp
      rcases deliver_get epoch r io (.Truncate key u) hc with ⟨-, hc'⟩ | ⟨-, -, hc'⟩
      · exact ⟨b, c, hb, hc', hcase⟩
      · refine ⟨b, _, hb, hc', ?_⟩
        rcases hcopy c with ⟨hw, hh⟩ | ⟨-, hw, hh⟩
        · rw [hw, hh]
          exact hcase
        · rw [hw, hh]
          by_cases hle : b.offset ≤ u
          · exact Or.inr (Nat.le_trans hle (Nat.le_max_right _ _))
          · rw [if_neg hle]
            exact hcase.imp id (fun hlow => Nat.le_trans hlow (Nat.le_max_left _ _))
    · intro j c hc o v hv
      rcases get_deliver epoch hc with hc | ⟨-, c0, hc0, rfl⟩
      · exact h.origin j c hc o v hv
      · rcases hcopy c0 with ⟨-, hh⟩ | ⟨-, -, hh⟩
        · rw [hh] at hv
          exact h.origin j c0 hc0 o v hv
        · rw [hh] at hv
          split at hv
          · cases hv
          · exact h.origin j c0 hc0 o v hv
    · intro j c hc
      rcases get_deliver epoch hc with hc | ⟨-, c0, hc0, rfl⟩
      · exact h.lows j c hc
      · rcases hcopy c0 with ⟨hw, -⟩ | ⟨-, hw, -⟩
        · rw [hw]
          exact h.lows j c0 hc0
        · rw [hw]
          rcases Nat.le_total (c0.watermark key) u with hle | hle
          · rw [Nat.max_eq_right hle]
            exact Or.inr hsent
          · rw [Nat.max_eq_left hle]
            exact h.lows j c0 hc0
  · exact h

theorem kept_move (h : Kept log epoch key w) (m : Move) :
    Kept log epoch key (w.move log epoch key m) := by
  cases m with
  | Submit record tier => exact kept_pipe log epoch key h _ trivial
  | Deliver i r io => exact kept_deliver log epoch key h i r io
  | Own i heard =>
    refine kept_pipe log epoch key h _ ?_
    rcases hb : (heard && decide ((i, 0) ∈ w.accepted)) with _ | _
    · trivial
    · have hm : (i, 0) ∈ w.accepted := of_decide_eq_true (Bool.and_eq_true_iff.mp hb).2
      exact hm
  | Follower i f heard =>
    refine kept_pipe log epoch key h _ ?_
    rcases hb : (heard && decide ((i, f + 1) ∈ w.accepted)) with _ | _
    · trivial
    · have hm : (i, f + 1) ∈ w.accepted := of_decide_eq_true (Bool.and_eq_true_iff.mp hb).2
      exact hm
  | Resolve i => exact kept_pipe log epoch key h _ trivial
  | Truncate up_to => exact kept_pipe log epoch key h _ trivial
  | TruncateDurable up_to => exact kept_pipe log epoch key h _ trivial
  | TruncateAcked k own acked => exact kept_pipe log epoch key h _ trivial
  | DeliverTruncate up_to r io => exact kept_deliver_truncate log epoch key h up_to r io

theorem kept_moves (h : Kept log epoch key w) (ms : List Move) :
    Kept log epoch key (w.moves log epoch key ms) := by
  induction ms generalizing w with
  | nil => exact h
  | cons m ms ih => exact ih (kept_move log epoch key h m)

def Blank (copies : List ReplicaState) : Prop :=
  ∀ c ∈ copies, c.watermark key = 0 ∧ ∀ o, held c.logs key o = none

theorem kept_start {copies : List ReplicaState} (h : Blank key copies) :
    Kept log epoch key { copies } := by
  refine ⟨Pipeline.sound_start log, by simp, by simp, by simp, by simp, by simp, ?_, ?_⟩
  · intro r c hc o v hv
    rw [(h c (List.mem_of_getElem? hc)).2] at hv
    cases hv
  · exact fun r c hc => Or.inl (h c (List.mem_of_getElem? hc)).1

/-! ## A quorum append at a majority -/

variable {members : List Nat}

theorem mem_reads {read : ReplicaRead} :
    read ∈ w.reads key members ↔ ∃ r ∈ members, ∃ c, w.copies[r]? = some c ∧ read = c.read key true := by
  unfold reads
  rw [List.mem_filterMap]
  constructor
  · rintro ⟨r, hr, h⟩
    obtain ⟨c, hc, rfl⟩ := Option.map_eq_some_iff.mp h
    exact ⟨r, hr, c, hc, rfl⟩
  · rintro ⟨r, hr, c, hc, rfl⟩
    exact ⟨r, hr, by rw [hc]; rfl⟩

theorem low_water_sent (h : Kept log epoch key w) (members : List Nat) :
    low_water (w.reads key members) = 0 ∨ low_water (w.reads key members) ∈ w.sent := by
  rcases low_water_mem (w.reads key members) with hz | ⟨read, hread, hw⟩
  · exact Or.inl hz
  · obtain ⟨r, -, c, hc, rfl⟩ := (mem_reads key).mp hread
    rw [← hw]
    exact h.lows r c hc

/-- The members that gave the acks counted for an append, the owner as member 0. -/
def givers (a : Append) : List Nat := (if a.own then [0] else []) ++ a.acked.map (fun f => f + 1)

theorem givers_length (a : Append) : (givers a).length = (log.tally_of a.own a.acked).all := by
  rw [ClusterLog.tally_of_all]
  unfold givers
  cases a.own <;> simp [Nat.add_comm]

variable {a : Append}

theorem givers_nodup (h : a.acked.Nodup) : (givers a).Nodup := by
  unfold givers
  have hmap : (a.acked.map (fun f => f + 1)).Nodup := h.map (fun x y hxy => by simpa using hxy)
  cases a.own with
  | false => simpa using hmap
  | true => simpa using hmap

variable {i : Nat}

theorem mem_givers (h : Kept log epoch key w) (hi : w.pipe.appends[i]? = some a)
    (hr : r ∈ givers a) : (i, r) ∈ w.accepted ∧ r < log.followers.length + 1 := by
  unfold givers at hr
  rcases List.mem_append.mp hr with hr | hr
  · by_cases ho : a.own = true
    · rw [if_pos ho, List.mem_singleton] at hr
      subst hr
      exact ⟨h.own i a hi ho, Nat.succ_pos _⟩
    · simp [ho] at hr
  · obtain ⟨f, hf, rfl⟩ := List.mem_map.mp hr
    have hlt := (h.sound.tallied i a hi).members f hf
    exact ⟨h.acked i a hi f hf, Nat.succ_lt_succ hlt⟩

/-- The newest version of the offset of an append that committed, at any majority: that of the
append. -/
theorem newest_of_quorum (h : Kept log epoch key w)
    (hq : log.quorum = .majority (log.followers.length + 1)) (hnodup : members.Nodup)
    (hlt : ∀ r ∈ members, r < log.followers.length + 1)
    (hmaj : (log.followers.length + 1) / 2 + 1 ≤ members.length)
    (hi : w.pipe.appends[i]? = some a) (htier : a.tier ≠ .Local) {q : Offset}
    (hok : a.phase = .Done (.ok q)) (hsent : ∀ u ∈ w.sent, u < q) :
    (newest (w.reads key members))[q]? = some (tag epoch a.seq, a.record) := by
  have ha := h.sound.tallied i a hi
  have hoff : a.offset = q := (h.sound.acked i a q hi hok).1
  have hpos : 0 < q := hoff ▸ (h.seq_le i a hi).2
  have hlow : low_water (w.reads key members) < q := by
    rcases low_water_sent log epoch key h members with hz | hm
    · rw [hz]
      exact hpos
    · exact hsent _ hm
  -- The members that gave acks are a majority, so one of them is read.
  have hmet := ha.met (Or.inr ⟨q, hok⟩)
  have hneed : (log.followers.length + 1) / 2 + 1 ≤ (givers a).length := by
    rw [givers_length log]
    unfold ClusterLog.met_now at hmet
    split at hmet
    · rename_i heq
      exact absurd heq htier
    · rw [hq] at hmet
      simp only [Quorum.met, Quorum.majority, Bool.and_eq_true] at hmet
      exact of_decide_eq_true hmet.1
  obtain ⟨r, hgave, hread⟩ := Majority.meet_lt (givers_nodup ha.distinct) hnodup
    (fun r hr => (mem_givers log epoch key h hi hr).2) hlt hneed hmaj
  obtain ⟨a', c, ha', hc, hcase⟩ := h.stored (i, r) (mem_givers log epoch key h hi hgave).1
  rw [hi] at ha'
  cases ha'
  have hmem : c.read key true ∈ w.reads key members := (mem_reads key).mpr ⟨r, hread, c, hc, rfl⟩
  have hspec := newest_spec (w.reads key members)
  rcases hcase with ⟨v, hv, hle⟩ | htrunc
  · rw [hoff] at hv
    have hhas : Has (w.reads key members) (EpochEntry.of q v) :=
      ⟨_, hmem, (c.mem_epoch_entries key _).mpr hv⟩
    obtain ⟨x, hx, hge⟩ := hspec.ge _ hhas hlow
    rw [EpochEntry.of_offset] at hx
    rw [EpochEntry.of_tag] at hge
    -- Whatever is newest there is an attempt of the owner at the offset, none later than this.
    obtain ⟨-, read, hread', hentry⟩ := hspec.mem q x hx
    obtain ⟨r', -, c', hc', rfl⟩ := (mem_reads key).mp hread'
    have hheld := (c'.mem_epoch_entries key _).mp hentry
    obtain ⟨j, b, hj, hob, hxb⟩ := h.origin r' c' hc' _ _ hheld
    simp only [EpochEntry.of_offset, EpochEntry.of_tag, EpochEntry.of_record] at hob hxb
    have hxb' : x = (tag epoch b.seq, b.record) := hxb
    have hseq : a.seq ≤ b.seq := by
      have hle' : tag epoch a.seq ≤ x.1 := le_trans hle hge
      rw [hxb'] at hle'
      rcases (tag_le_iff _ _ _ _).mp hle' with hlt' | ⟨-, hle'⟩
      · exact absurd hlt' (Nat.lt_irrefl _)
      · exact hle'
    have hji : j = i := by
      rcases Nat.lt_trichotomy j i with hji | hji | hji
      · have := h.seqs j i b a hj hi hji
        omega
      · exact hji
      · have hoffs := h.sound.ordered i j a b hi hj hji (Append.not_failed_of_ok hok)
        rw [hoff, hob] at hoffs
        exact absurd hoffs (Nat.lt_irrefl _)
    subst hji
    rw [hi] at hj
    cases hj
    rw [hx, hxb']
  · rw [hoff] at htrunc
    have hle : c.watermark key ≤ low_water (w.reads key members) := low_water_le hmem
    exact absurd hlow (Nat.not_lt.mpr (Nat.le_trans htrunc hle))

/-- Over every sequence of appends of both tiers by one owner to a key, with every outcome at
every copy: a quorum append that resolved ok and was not truncated is in the merge of the copies
of a majority exactly when these have no hole below it. -/
theorem a_quorum_append_survives_iff {owner : NodeId} {replica_set : List NodeId}
    (hown : owner ∈ replica_set) (hset : replica_set.Nodup) {copies : List ReplicaState}
    (hblank : Blank key copies) (ms : List Move) {members : List Nat} (hnodup : members.Nodup)
    (hlt : ∀ r ∈ members, r < replica_set.length)
    (hmaj : replica_set.length / 2 + 1 ≤ members.length) {i : Nat} {a : Append} {q : Offset}
    (hi : (moves (.new owner replica_set) epoch key { copies } ms).pipe.appends[i]? = some a)
    (htier : a.tier ≠ .Local) (hok : a.phase = .Done (.ok q))
    (hsent : ∀ u ∈ (moves (.new owner replica_set) epoch key { copies } ms).sent, u < q) :
    { offset := q, record := a.record } ∈ merge_replica_logs
        ((moves (.new owner replica_set) epoch key { copies } ms).reads key members) ↔
      HoleFree ((moves (.new owner replica_set) epoch key { copies } ms).reads key members) q := by
  obtain ⟨hquorum, hfollowers⟩ := ClusterLog.new_quorum hown hset
  rw [← hfollowers] at hquorum hlt hmaj
  have hkept := kept_moves _ epoch key (kept_start (.new owner replica_set) epoch key hblank) ms
  have hnew := newest_of_quorum _ epoch key hkept hquorum hnodup hlt hmaj hi htier hok hsent
  unfold merge_replica_logs
  rw [List.mem_map]
  constructor
  · rintro ⟨e, he, heq⟩
    have hoff : e.offset = q := congrArg LogEntry.offset heq
    have h := ((mem_merge _ e).mp he).2
    rwa [hoff] at h
  · intro hfree
    refine ⟨{ epoch, seq := a.seq, offset := q, record := a.record }, ?_, rfl⟩
    exact (mem_merge _ _).mpr ⟨hnew, hfree⟩

/-- An append that reaches the copies of some members, whose acks are heard. -/
def appendTo (i : Nat) (tier : DurabilityTier) (members : List Nat) : List Move :=
  .Submit [UInt8.ofNat i] tier :: members.map (fun r => .Deliver i r (fun _ => true)) ++
    [.Own i true, .Follower i 0 true, .Follower i 1 true, .Resolve i]

/-- Three appends on a set of three: a quorum one, a local one that reaches some copies, and a
quorum one. -/
def mixed (members : List Nat) : Spread :=
  moves (.new "a" ["a", "b", "c"]) 1 "q/a" { copies := [{}, {}, {}] }
    (appendTo 0 .Quorum [0, 1, 2] ++ appendTo 1 .Local members ++ appendTo 2 .Quorum [0, 1, 2])

/-- The local append is on its owner only, and the merge of the followers' copies ends below
it: the quorum append above is lost. -/
theorem a_quorum_append_is_lost_above_a_local_one :
    ((mixed [0]).pipe.appends[2]?.map (fun a => (a.tier, a.phase, a.record))) =
        some (.Quorum, .Done (.ok 3), [2]) ∧
      (mixed [0]).sent = [] ∧
      { offset := 3, record := [2] } ∉ merge_replica_logs ((mixed [0]).reads "q/a" [1, 2]) := by
  refine ⟨by decide +kernel, by decide +kernel, by decide +kernel⟩

/-- Where the local append also reached one of the followers, there is no hole. -/
theorem a_quorum_append_survives_above_a_spread_one :
    { offset := 3, record := [2] } ∈ merge_replica_logs ((mixed [0, 1]).reads "q/a" [1, 2]) ∧
      HoleFree ((mixed [0, 1]).reads "q/a" [1, 2]) 3 := by
  have hmerge : { offset := 3, record := [2] } ∈
      merge_replica_logs ((mixed [0, 1]).reads "q/a" [1, 2]) := by decide +kernel
  refine ⟨hmerge, ?_⟩
  have hblank : Blank "q/a" [{}, {}, {}] := by
    intro c hc
    simp only [List.mem_cons, List.not_mem_nil, or_false, or_self] at hc
    subst hc
    exact ⟨rfl, fun o => by simp⟩
  have happ : (mixed [0, 1]).pipe.appends[2]? = some
      { offset := 3, seq := 3, record := [2], tier := .Quorum, own := true, acked := [0]
        phase := .Done (.ok 3) } := by
    decide +kernel
  have hsent : (mixed [0, 1]).sent = [] := by decide +kernel
  exact (a_quorum_append_survives_iff 1 "q/a" (by decide) (by decide) hblank _ (by decide) (by decide)
    (by decide) happ (by decide) rfl (fun u hu => by
      change u ∈ (mixed [0, 1]).sent at hu
      rw [hsent] at hu
      simp at hu)).mp hmerge

end Spread

end mqtt_cluster.cluster_log
