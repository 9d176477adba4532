-- What holds of one key over every interleaving of its appends, their acks, its
-- truncates and its seeding: commits go in offset order and leave no gap, a
-- failure takes the staged tail with it, and reads stay below the watermark.
import MqttBroker.Cluster.PipelineLaws

namespace mqtt_cluster.cluster_log

open mqtt_storage.repl

namespace Pipeline

/-! ## The acks of an append -/

variable (log : ClusterLog)

/-- The acks that were counted are those of different followers, and enough for the tier when
the append stopped counting with success. -/
structure Tallied (a : Append) : Prop where
  distinct : a.acked.Nodup
  members : ∀ f ∈ a.acked, f < log.followers.length
  unasked : a.phase = .Own → a.acked = []
  left : ∀ acks left, a.phase = .Fanout acks left → acks = log.tally_of a.own a.acked ∧
    left.Nodup ∧ ∀ f ∈ left, f < log.followers.length ∧ f ∉ a.acked
  met : (a.phase = .Counted true ∨ ∃ o, a.phase = .Done (.ok o)) →
    log.met_now a.tier (log.tally_of a.own a.acked) = true

/-- Everything that the loop over the followers can do next. -/
theorem wait_cases (tier : DurabilityTier) (acks : Tally) (left : List Nat) :
    (log.wait tier acks left = .Counted true ∧ log.met_now tier acks = true) ∨
      log.wait tier acks left = .Counted false ∨ log.wait tier acks left = .Fanout acks left := by
  unfold ClusterLog.wait
  split
  · rename_i h
    exact Or.inl ⟨rfl, h⟩
  · split
    · exact Or.inr (Or.inl rfl)
    · exact Or.inr (Or.inr rfl)

theorem wait_unresolved (a : Append) (tier : DurabilityTier) (acks : Tally) (left : List Nat)
    (h : a.phase = log.wait tier acks left) : a.unresolved = true := by
  unfold Append.unresolved
  rcases wait_cases log tier acks left with ⟨hw, -⟩ | hw | hw <;> rw [h, hw]

variable {a : Append}

theorem tallied_wait {left : List Nat} (hd : a.acked.Nodup)
    (hm : ∀ f ∈ a.acked, f < log.followers.length) (hl : left.Nodup)
    (hf : ∀ f ∈ left, f < log.followers.length ∧ f ∉ a.acked)
    (hp : a.phase = log.wait a.tier (log.tally_of a.own a.acked) left) : Tallied log a := by
  rcases wait_cases log a.tier (log.tally_of a.own a.acked) left with ⟨hw, hmet⟩ | hw | hw
  · rw [hw] at hp
    refine ⟨hd, hm, fun h => ?_, fun acks l h => ?_, fun _ => hmet⟩
    · rw [hp] at h
      cases h
    · rw [hp] at h
      cases h
  · rw [hw] at hp
    refine ⟨hd, hm, fun h => ?_, fun acks l h => ?_, fun h => ?_⟩
    · rw [hp] at h
      cases h
    · rw [hp] at h
      cases h
    · rw [hp] at h
      rcases h with h | ⟨o, h⟩ <;> cases h
  · rw [hw] at hp
    refine ⟨hd, hm, fun h => ?_, fun acks l h => ?_, fun h => ?_⟩
    · rw [hp] at h
      cases h
    · rw [hp] at h
      cases h
      exact ⟨rfl, hl, hf⟩
    · rw [hp] at h
      rcases h with h | ⟨o, h⟩ <;> cases h

theorem tallied_own (h : Tallied log a) (ok : Bool) : Tallied log (log.own_done a ok) := by
  unfold ClusterLog.own_done
  split
  · rename_i hp
    have hnil := h.unasked hp
    apply tallied_wait log
    · exact h.distinct
    · exact h.members
    · exact @List.nodup_range log.followers.length
    · intro f hf
      rw [hnil]
      exact ⟨List.mem_range.mp hf, List.not_mem_nil⟩
    · dsimp only
      rw [hnil]
      rfl
  · exact h

theorem tallied_follower (h : Tallied log a) (f : Nat) (ok : Bool) :
    Tallied log (log.follower_done a f ok) := by
  unfold ClusterLog.follower_done
  split
  · rename_i acks left hp
    obtain ⟨hacks, hnodup, hleft⟩ := h.left acks left hp
    split
    · rename_i hf
      cases ok with
      | false =>
        apply tallied_wait log
        · exact h.distinct
        · exact h.members
        · exact hnodup.erase f
        · exact fun g hg => hleft g (List.mem_of_mem_erase hg)
        · simp [hacks]
      | true =>
        apply tallied_wait log
        · refine List.nodup_append.mpr ⟨h.distinct, List.nodup_singleton f, ?_⟩
          rintro x hx y hy rfl
          rw [List.mem_singleton] at hy
          subst hy
          exact (hleft x hf).2 hx
        · intro g hg
          rcases List.mem_append.mp hg with hg | hg
          · exact h.members g hg
          · rw [List.mem_singleton.mp hg]
            exact (hleft f hf).1
        · exact hnodup.erase f
        · intro g hg
          obtain ⟨hlt, hno⟩ := hleft g (List.mem_of_mem_erase hg)
          refine ⟨hlt, fun hmem => ?_⟩
          rcases List.mem_append.mp hmem with hm | hm
          · exact hno hm
          · rw [List.mem_singleton] at hm
            subst hm
            exact hnodup.not_mem_erase hg
        · simp [hacks, ClusterLog.tally_of, List.foldl_append]
    · exact h
  · exact h

theorem own_done_keeps (a : Append) (ok : Bool) : AckKeeps a (log.own_done a ok) := by
  unfold ClusterLog.own_done
  split
  · rename_i hp
    have hu : a.unresolved = true := by
      unfold Append.unresolved
      rw [hp]
    refine ⟨rfl, rfl, rfl, rfl, ?_, fun hf => ?_⟩
    · rw [hu]
      exact wait_unresolved log _ _ _ _ rfl
    · rw [hu] at hf
      cases hf
  · exact AckKeeps.refl a

theorem follower_done_keeps (a : Append) (f : Nat) (ok : Bool) :
    AckKeeps a (log.follower_done a f ok) := by
  unfold ClusterLog.follower_done
  split
  · rename_i acks left hp
    have hu : a.unresolved = true := by
      unfold Append.unresolved
      rw [hp]
    split
    · refine ⟨rfl, rfl, rfl, rfl, ?_, fun hf => ?_⟩
      · rw [hu]
        exact wait_unresolved log _ _ _ _ rfl
      · rw [hu] at hf
        cases hf
    · exact AckKeeps.refl a
  · exact AckKeeps.refl a

variable {s : Pipeline} {i : Nat}

theorem tallied_modify {f : Append → Append}
    (h : ∀ (i : Nat) a, s.appends[i]? = some a → Tallied log a)
    (hf : ∀ a, Tallied log a → Tallied log (f a)) :
    ∀ (j : Nat) b, (s.appends.modify i f)[j]? = some b → Tallied log b := by
  intro j b hj
  obtain ⟨a, ha, ⟨-, rfl⟩ | ⟨-, rfl⟩⟩ := get_modify hj
  · exact hf a (h j a ha)
  · exact h j b ha

/-! ## The steps that leave the appends -/

theorem truncate_durable_frame (s : Pipeline) (up_to : Offset) :
    (Pipeline.step log s (.TruncateDurable up_to)).appends = s.appends ∧
      (Pipeline.step log s (.TruncateDurable up_to)).key = s.key := by
  unfold Pipeline.step truncate_durable
  dsimp only
  split
  · rename_i s' hok
    split at hok
    · cases hok
    · split at hok
      · cases hok
      · cases hok
        exact ⟨rfl, rfl⟩
  · exact ⟨rfl, rfl⟩

theorem truncate_durable_appends (s : Pipeline) (up_to : Offset) :
    (Pipeline.step log s (.TruncateDurable up_to)).appends = s.appends :=
  (truncate_durable_frame log s up_to).1

theorem truncate_acked_appends (s : Pipeline) (k : Nat) (own : Bool) (acked : List Nat) :
    (Pipeline.step log s (.TruncateAcked k own acked)).appends = s.appends := by
  change (truncate_acked log s k own acked).appends = s.appends
  unfold truncate_acked
  split <;> rfl

theorem seed_key_appends (s : Pipeline) (entries : List EpochEntry) (floor : Offset)
    (seq_floor : Nat) :
    (Pipeline.step log s (.Seed entries floor seq_floor)).appends = s.appends := by
  change (s.seed_key entries floor seq_floor).appends = s.appends
  unfold seed_key
  split
  · rfl
  · split <;> rfl

/-! ## A step -/

/-- The appends of a pipeline are tallied, and its offsets are where they belong. -/
structure Sound (s : Pipeline) : Prop extends Counts s where
  tallied : ∀ (i : Nat) a, s.appends[i]? = some a → Tallied log a

variable {outcome : Except ReplError Offset}

theorem tallied_finish (h : ∀ (i : Nat) a, s.appends[i]? = some a → Tallied log a)
    (hi : s.appends[i]? = some a) (hmet : (∃ o, outcome = .ok o) → a.phase = .Counted true) :
    ∀ (j : Nat) b, (s.finish i outcome)[j]? = some b → Tallied log b := by
  intro j b hj
  rcases (s.get_finish i outcome j b).mp hj with ⟨-, hj'⟩ | ⟨rfl, c, hc, rfl⟩
  · exact h j b hj'
  · rw [hi] at hc
    cases hc
    have ha := h i a hi
    refine ⟨ha.distinct, ha.members, nofun, nofun, fun hp => ?_⟩
    rcases hp with hp | ⟨o, hp⟩
    · cases hp
    · cases hp
      exact ha.met (Or.inl (hmet ⟨o, rfl⟩))

theorem sound_step (h : Sound log s) (step : Step) : Sound log (Pipeline.step log s step) := by
  cases step with
  | Submit record tier =>
    refine ⟨counts_submit h.toCounts record tier, fun i a hi => ?_⟩
    change (s.appends ++ [_])[i]? = some a at hi
    rcases (get_snoc _ _ _ _).mp hi with hi | ⟨-, rfl⟩
    · exact h.tallied i a hi
    · exact ⟨List.nodup_nil, by simp, fun _ => rfl, nofun, by simp⟩
  | Own i ok =>
    refine ⟨counts_acks h.toCounts i _ (fun a => own_done_keeps log a ok), fun j b hj => ?_⟩
    exact tallied_modify log h.tallied (fun a ha => tallied_own log ha ok) j b hj
  | Follower i f ok =>
    refine ⟨counts_acks h.toCounts i _ (fun a => follower_done_keeps log a f ok), fun j b hj => ?_⟩
    exact tallied_modify log h.tallied (fun a ha => tallied_follower log ha f ok) j b hj
  | Resolve i =>
    refine ⟨counts_resolve h.toCounts i, ?_⟩
    change ∀ (j : Nat) b, (s.resolve i).appends[j]? = some b → Tallied log b
    rcases resolve_spec h.toCounts i with heq | ⟨a, ks1, hi, -, -, hcase⟩
    · rw [heq]
      exact h.tallied
    · rcases hcase with ⟨met, -, -, -, -, -, heq⟩ | ⟨hp, -, -, -, heq⟩
      · rw [heq]
        exact tallied_finish log h.tallied hi (fun ⟨o, ho⟩ => by cases ho)
      · rw [heq]
        exact tallied_finish log h.tallied hi (fun _ => hp)
  | Truncate up_to =>
    rcases hkey : s.key with _ | ks
    · have heq : Pipeline.step log s (.Truncate up_to) = s := by
        change { s with key := s.key.map _ } = s
        rw [hkey, Option.map_none, ← hkey]
      rw [heq]
      exact h
    · have heq : Pipeline.step log s (.Truncate up_to) =
          { s with key := some (ks.drop_to (min up_to ks.committed)) } := by
        simp [Pipeline.step, hkey, KeyState.truncate]
      rw [heq]
      exact ⟨counts_drop h.toCounts hkey (Nat.min_le_right _ _), h.tallied⟩
  | TruncateDurable up_to =>
    rcases hkey : s.key with _ | ks
    · have heq : Pipeline.step log s (.TruncateDurable up_to) = s := by
        simp [Pipeline.step, truncate_durable, hkey]
      rw [heq]
      exact h
    · by_cases hlt : ks.committed < up_to
      · have heq : Pipeline.step log s (.TruncateDurable up_to) = s := by
          simp [Pipeline.step, truncate_durable, hkey, hlt]
        rw [heq]
        exact h
      · have heq : Pipeline.step log s (.TruncateDurable up_to) =
            { s with truncates := s.truncates ++ [up_to] } := by
          simp [Pipeline.step, truncate_durable, hkey, hlt]
        rw [heq]
        refine ⟨⟨⟨h.staged, h.above, h.acked, h.ordered, h.below, h.tail, h.present, h.filled, ?_⟩,
          h.absent, h.pending, h.drained⟩, h.tallied⟩
        intro u hu
        rcases List.mem_append.mp hu with hu | hu
        · exact h.waiting u hu
        · rw [List.mem_singleton.mp hu]
          have hks : s.ks = ks := by simp [Pipeline.ks, hkey]
          change up_to ≤ s.ks.committed
          rw [hks]
          exact Nat.le_of_not_lt hlt
  | TruncateAcked k own acked =>
    change Sound log (truncate_acked log s k own acked)
    unfold truncate_acked
    split
    · exact h
    · rename_i up_to hk
      have hmem := List.mem_of_getElem? hk
      have herase : Counts { s with truncates := s.truncates.eraseIdx k } :=
        ⟨⟨h.staged, h.above, h.acked, h.ordered, h.below, h.tail, h.present, h.filled,
          fun u hu => h.waiting u (List.mem_of_mem_eraseIdx hu)⟩, h.absent, h.pending, h.drained⟩
      split
      · rcases hkey : s.key with _ | ks
        · refine ⟨?_, h.tallied⟩
          rw [hkey] at herase
          exact herase
        · have hks : s.ks = ks := by simp [Pipeline.ks, hkey]
          have hle := h.waiting up_to hmem
          rw [hks] at hle
          exact ⟨counts_drop herase hkey hle, h.tallied⟩
      · exact ⟨herase, h.tallied⟩
  | Seed entries floor seq_floor =>
    refine ⟨counts_seed h.toCounts entries floor seq_floor, fun j b hj => ?_⟩
    rw [seed_key_appends] at hj
    exact h.tallied j b hj

theorem sound_start : Sound log {} := by
  refine ⟨⟨⟨?_, ?_, ?_, ?_, ?_, ?_, ?_, ?_, ?_⟩, fun _ => rfl, rfl, fun _ => Nat.le_refl _⟩, ?_⟩
  all_goals simp [Pipeline.ks]
  exact fun o hlt hz => absurd hlt (by rw [hz]; exact Nat.lt_irrefl _)

theorem sound_run (h : Sound log s) (steps : List Step) : Sound log (run log s steps) := by
  induction steps generalizing s with
  | nil => exact h
  | cons step steps ih => exact ih (sound_step log h step)

/-! ## The op of an append -/

structure SameOp (a b : Append) : Prop where
  offset : b.offset = a.offset
  seq : b.seq = a.seq
  record : b.record = a.record
  tier : b.tier = a.tier

theorem own_done_own (a : Append) (ok : Bool) (h : (log.own_done a ok).own = true) :
    a.own = true ∨ ok = true := by
  unfold ClusterLog.own_done at h
  split at h
  · exact Or.inr h
  · exact Or.inl h

theorem own_done_acked (a : Append) (ok : Bool) : (log.own_done a ok).acked = a.acked := by
  unfold ClusterLog.own_done
  split <;> rfl

theorem follower_done_own (a : Append) (f : Nat) (ok : Bool) :
    (log.follower_done a f ok).own = a.own := by
  unfold ClusterLog.follower_done
  split
  · split <;> rfl
  · rfl

theorem follower_done_acked (a : Append) (f : Nat) (ok : Bool) {g : Nat}
    (h : g ∈ (log.follower_done a f ok).acked) : g ∈ a.acked ∨ (g = f ∧ ok = true) := by
  unfold ClusterLog.follower_done at h
  split at h
  · split at h
    · cases ok with
      | true =>
        rcases List.mem_append.mp h with h | h
        · exact Or.inl h
        · exact Or.inr ⟨List.mem_singleton.mp h, rfl⟩
      | false => exact Or.inl h
    · exact Or.inl h
  · exact Or.inl h

variable {b : Append}

/-- Append `i` after a step: it keeps its op, and an ack that it has was there or is the one that
the step brings. -/
structure Follows (step : Step) (i : Nat) (a b : Append) : Prop extends SameOp a b where
  own : b.own = true → a.own = true ∨ step = .Own i true
  acked : ∀ f ∈ b.acked, f ∈ a.acked ∨ step = .Follower i f true

theorem follows_of_acks (step : Step) (i : Nat) {a : Append} (hop : SameOp a b)
    (hown : b.own = a.own) (hacked : b.acked = a.acked) : Follows step i a b :=
  ⟨hop, fun ho => Or.inl (hown ▸ ho), fun _ hf => Or.inl (hacked ▸ hf)⟩

/-- Where an append comes from: it was there, or the step submits it. -/
theorem step_origin (h : Counts s) (step : Step)
    (hi : (Pipeline.step log s step).appends[i]? = some b) :
    (∃ a, s.appends[i]? = some a ∧ Follows step i a b) ∨
      ∃ record tier, step = .Submit record tier ∧ i = s.appends.length ∧
        b = { offset := (s.ks.stage record).1, seq := s.ks.seq + 1, record, tier } := by
  have hsame : s.appends[i]? = some b → ∃ a, s.appends[i]? = some a ∧ Follows step i a b := fun hb =>
    ⟨b, hb, follows_of_acks step i ⟨rfl, rfl, rfl, rfl⟩ rfl rfl⟩
  cases step with
  | Submit record tier =>
    rcases (get_snoc _ _ _ _).mp hi with hi | ⟨hlen, rfl⟩
    · exact Or.inl (hsame hi)
    · exact Or.inr ⟨record, tier, rfl, hlen, rfl⟩
  | Own k ok =>
    left
    obtain ⟨a, ha, ⟨rfl, rfl⟩ | ⟨-, rfl⟩⟩ := get_modify hi
    · have hk := own_done_keeps log a ok
      refine ⟨a, ha, ⟨hk.offset, hk.seq, hk.record, hk.tier⟩, ?_, ?_⟩
      · intro ho
        rcases own_done_own log a ok ho with ho | rfl
        · exact Or.inl ho
        · exact Or.inr rfl
      · intro f hf
        rw [own_done_acked] at hf
        exact Or.inl hf
    · exact hsame ha
  | Follower k g ok =>
    left
    obtain ⟨a, ha, ⟨rfl, rfl⟩ | ⟨-, rfl⟩⟩ := get_modify hi
    · have hk := follower_done_keeps log a g ok
      refine ⟨a, ha, ⟨hk.offset, hk.seq, hk.record, hk.tier⟩, ?_, ?_⟩
      · intro ho
        rw [follower_done_own] at ho
        exact Or.inl ho
      · intro f hf
        rcases follower_done_acked log a g ok hf with hf | ⟨rfl, rfl⟩
        · exact Or.inl hf
        · exact Or.inr rfl
    · exact hsame ha
  | Resolve k =>
    left
    change (s.resolve k).appends[i]? = some b at hi
    have hfinish : ∀ outcome, (s.finish k outcome)[i]? = some b →
        ∃ a, s.appends[i]? = some a ∧ Follows (.Resolve k) i a b := by
      intro outcome hb
      rcases (s.get_finish k outcome i b).mp hb with ⟨-, hb⟩ | ⟨-, a, ha, rfl⟩
      · exact hsame hb
      · exact ⟨a, ha, follows_of_acks _ i ⟨rfl, rfl, rfl, rfl⟩ rfl rfl⟩
    rcases resolve_spec h k with heq | ⟨a, ks1, -, -, -, hcase⟩
    · rw [heq] at hi
      exact hsame hi
    · rcases hcase with ⟨met, -, -, -, -, -, heq⟩ | ⟨-, -, -, -, heq⟩
      · rw [heq] at hi
        exact hfinish _ hi
      · rw [heq] at hi
        exact hfinish _ hi
  | Truncate up_to => exact Or.inl (hsame hi)
  | TruncateDurable up_to =>
    rw [truncate_durable_appends] at hi
    exact Or.inl (hsame hi)
  | TruncateAcked k own acked =>
    rw [truncate_acked_appends] at hi
    exact Or.inl (hsame hi)
  | Seed entries floor seq_floor =>
    rw [seed_key_appends] at hi
    exact Or.inl (hsame hi)

/-! ## What fails with a failure -/

theorem step_frame (s : Pipeline) (step : Step) (hne : ∀ i, step ≠ .Resolve i) :
    (∀ (j : Nat) b, s.appends[j]? = some b →
        ∃ b', (Pipeline.step log s step).appends[j]? = some b' ∧ AckKeeps b b') ∧
      ∀ o, s.ks.Floored o → (Pipeline.step log s step).ks.Floored o := by
  have hacks : ∀ (i : Nat) (f : Append → Append), (∀ a, AckKeeps a (f a)) →
      ∀ (j : Nat) b, s.appends[j]? = some b →
        ∃ b', (s.appends.modify i f)[j]? = some b' ∧ AckKeeps b b' := by
    intro i f hf j b hj
    refine ⟨if i = j then f b else b, ?_, ?_⟩
    · rw [List.getElem?_modify, hj]
      rfl
    · split
      · exact hf b
      · exact AckKeeps.refl b
  cases step with
  | Submit record tier =>
    refine ⟨fun j b hj => ⟨b, ?_, AckKeeps.refl b⟩, fun o ho => ho⟩
    exact (get_snoc _ _ _ _).mpr (Or.inl hj)
  | Own i ok => exact ⟨hacks i _ (fun a => own_done_keeps log a ok), fun o ho => ho⟩
  | Follower i f ok => exact ⟨hacks i _ (fun a => follower_done_keeps log a f ok), fun o ho => ho⟩
  | Resolve i => exact absurd rfl (hne i)
  | Truncate up_to =>
    refine ⟨fun j b hj => ⟨b, hj, AckKeeps.refl b⟩, fun o ho => ?_⟩
    unfold Pipeline.ks at ho ⊢
    change KeyState.Floored ((s.key.map _).getD {}) o
    rcases hkey : s.key with _ | ks
    · rw [hkey] at ho
      exact ho
    · rw [hkey] at ho
      exact ho
  | TruncateDurable up_to =>
    have heq := truncate_durable_frame log s up_to
    refine ⟨fun j b hj => ⟨b, ?_, AckKeeps.refl b⟩, fun o ho => ?_⟩
    · rw [heq.1]
      exact hj
    · unfold Pipeline.ks at ho ⊢
      rw [heq.2]
      exact ho
  | TruncateAcked k own acked =>
    change (∀ (j : Nat) b, s.appends[j]? = some b →
      ∃ b', (truncate_acked log s k own acked).appends[j]? = some b' ∧ AckKeeps b b') ∧
      ∀ o, s.ks.Floored o → (truncate_acked log s k own acked).ks.Floored o
    unfold truncate_acked
    split
    · exact ⟨fun j b hj => ⟨b, hj, AckKeeps.refl b⟩, fun o ho => ho⟩
    · refine ⟨fun j b hj => ⟨b, hj, AckKeeps.refl b⟩, fun o ho => ?_⟩
      unfold Pipeline.ks at ho ⊢
      rcases hkey : s.key with _ | ks
      · rw [hkey] at ho
        split <;> exact ho
      · rw [hkey] at ho
        split <;> exact ho
  | Seed entries floor seq_floor =>
    change (∀ (j : Nat) b, s.appends[j]? = some b →
      ∃ b', (s.seed_key entries floor seq_floor).appends[j]? = some b' ∧ AckKeeps b b') ∧
      ∀ o, s.ks.Floored o → (s.seed_key entries floor seq_floor).ks.Floored o
    unfold seed_key
    split
    · exact ⟨fun j b hj => ⟨b, hj, AckKeeps.refl b⟩, fun o ho => ho⟩
    · split
      · exact ⟨fun j b hj => ⟨b, hj, AckKeeps.refl b⟩, fun o ho => ho⟩
      · refine ⟨fun j b hj => ⟨b, hj, AckKeeps.refl b⟩, fun o ⟨fl, hfl, hle⟩ => ⟨fl, ?_, hle⟩⟩
        exact (seed_fold entries s.ks).2.2.2.1.trans hfl

theorem seed_fold_seq (es : List EpochEntry) (ks : KeyState) :
    ks.seq ≤ (es.foldl KeyState.seed_entry ks).seq := by
  induction es generalizing ks with
  | nil => exact Nat.le_refl _
  | cons e es ih => exact Nat.le_trans (Nat.le_max_left _ _) (ih (ks.seed_entry e))

theorem step_keeps_op (h : Counts s) (step : Step) (hi : s.appends[i]? = some a) :
    ∃ b, (Pipeline.step log s step).appends[i]? = some b ∧ SameOp a b := by
  by_cases hne : ∀ k, step ≠ .Resolve k
  · obtain ⟨b, hb, hk⟩ := (step_frame log s step hne).1 i a hi
    exact ⟨b, hb, hk.offset, hk.seq, hk.record, hk.tier⟩
  · simp only [not_forall, not_not] at hne
    obtain ⟨k, rfl⟩ := hne
    have hfinish : ∀ outcome, ∃ b, (s.finish k outcome)[i]? = some b ∧ SameOp a b := by
      intro outcome
      by_cases hki : k = i
      · exact ⟨_, (s.get_finish k outcome i _).mpr (Or.inr ⟨hki, a, hi, rfl⟩), rfl, rfl, rfl, rfl⟩
      · exact ⟨a, (s.get_finish k outcome i a).mpr (Or.inl ⟨hki, hi⟩), rfl, rfl, rfl, rfl⟩
    change ∃ b, (s.resolve k).appends[i]? = some b ∧ SameOp a b
    rcases resolve_spec h k with heq | ⟨c, ks1, -, -, -, hcase⟩
    · rw [heq]
      exact ⟨a, hi, rfl, rfl, rfl, rfl⟩
    · rcases hcase with ⟨met, -, -, -, -, -, heq⟩ | ⟨-, -, -, -, heq⟩
      · rw [heq]
        exact hfinish _
      · rw [heq]
        exact hfinish _

/-- The count of the attempts never goes down. -/
theorem step_seq (s : Pipeline) (step : Step) : s.ks.seq ≤ (Pipeline.step log s step).ks.seq := by
  cases step with
  | Submit record tier => exact Nat.le_succ _
  | Own i ok => exact Nat.le_refl _
  | Follower i f ok => exact Nat.le_refl _
  | Resolve i =>
    change s.ks.seq ≤ (s.resolve i).ks.seq
    unfold resolve
    split
    · exact Nat.le_refl _
    · rename_i a hi
      split
      · exact Nat.le_refl _
      · rename_i met ks hphase hkey
        have hks : s.ks = ks := by simp [Pipeline.ks, hkey]
        rcases hr : ks.resolve a.offset met with ⟨r, ks'⟩
        have hseq : ks'.seq = ks.seq := by
          rcases KeyState.resolve_cases hr with ⟨-, -, rfl⟩ | ⟨-, -, -, rfl⟩ | ⟨-, -, -, -, rfl⟩ |
            ⟨-, -, -, rfl⟩
          · exact KeyState.pipeline_resolved_seq _
          · exact KeyState.pipeline_resolved_seq _
          · exact KeyState.pipeline_resolved_seq _
          · rfl
        rcases r with _ | outcome
        · exact Nat.le_refl _
        · rw [hks, ← hseq]
          exact Nat.le_refl _
      · exact Nat.le_refl _
  | Truncate up_to =>
    rcases hkey : s.key with _ | ks
    · simp [Pipeline.ks, Pipeline.step, hkey]
    · simp [Pipeline.ks, Pipeline.step, hkey, KeyState.truncate, KeyState.drop_to]
  | TruncateDurable up_to =>
    unfold Pipeline.ks
    rw [(truncate_durable_frame log s up_to).2]
  | TruncateAcked k own acked =>
    change s.ks.seq ≤ (truncate_acked log s k own acked).ks.seq
    unfold truncate_acked
    split
    · exact Nat.le_refl _
    · rcases hkey : s.key with _ | ks
      · simp [Pipeline.ks, hkey]
      · simp only [Pipeline.ks, hkey]
        split <;> exact Nat.le_refl _
  | Seed entries floor seq_floor =>
    change s.ks.seq ≤ (s.seed_key entries floor seq_floor).ks.seq
    unfold seed_key
    split
    · exact Nat.le_refl _
    · split
      · exact Nat.le_refl _
      · exact Nat.le_trans (seed_fold_seq entries s.ks) (Nat.le_max_left _ _)

/-- An append that failed, or whose turn will fail it. -/
def Lost (s : Pipeline) (j : Nat) : Prop :=
  ∃ b, s.appends[j]? = some b ∧
    (b.failed = true ∨ b.unresolved = true ∧ s.ks.Floored b.offset)

variable {j : Nat} {o : Offset}

theorem floored_finish (h : Counts s) (hi : s.appends[i]? = some a) (ha : a.unresolved = true)
    {ks1 : KeyState} (hp : ks1.pending = s.ks.pending) (hj : (s.finish i outcome)[j]? = some b)
    (hb : b.unresolved = true) (ho : ks1.Floored o) : ks1.pipeline_resolved.Floored o := by
  rcases ks1.pipeline_resolved_rest with ⟨hz, -⟩ | ⟨-, -, hfloor⟩
  · rw [hp, h.pending, countP_finish hi ha outcome, Nat.add_sub_cancel] at hz
    rw [List.countP_eq_zero] at hz
    exact absurd hb (hz b (List.mem_of_getElem? hj))
  · unfold KeyState.Floored at ho ⊢
    rw [hfloor]
    exact ho

theorem lost_of_failure (h : Sound log s) (step : Step) {a' : Append}
    (hi : s.appends[i]? = some a) (ha : a.unresolved = true)
    (hi' : (Pipeline.step log s step).appends[i]? = some a') (ha' : a'.failed = true)
    (hj : (Pipeline.step log s step).appends[j]? = some b) (hb : b.unresolved = true)
    (hlt : a.offset < b.offset) : Lost (Pipeline.step log s step) j := by
  by_cases hne : ∀ k, step ≠ .Resolve k
  · -- No other step ends an append.
    obtain ⟨c, hc, hk⟩ := (step_frame log s step hne).1 i a hi
    rw [hi'] at hc
    cases hc
    have hu := hk.unresolved.trans ha
    rw [Append.not_failed_of_unresolved hu] at ha'
    cases ha'
  · simp only [not_forall, not_not] at hne
    obtain ⟨k, rfl⟩ := hne
    change (s.resolve k).appends[i]? = some a' at hi'
    change (s.resolve k).appends[j]? = some b at hj
    change Lost (s.resolve k) j
    rcases resolve_spec h.toCounts k with heq | ⟨c, ks1, hk, hc, hp, hcase⟩
    · rw [heq, hi] at hi'
      cases hi'
      rw [Append.not_failed_of_unresolved ha] at ha'
      cases ha'
    · rcases hcase with ⟨met, -, -, -, hfloor, -, heq⟩ | ⟨-, -, -, -, heq⟩
      · rw [heq] at hi' hj ⊢
        rcases (s.get_finish k _ i a').mp hi' with ⟨-, hsame⟩ | ⟨rfl, d, hd, -⟩
        · rw [hi] at hsame
          cases hsame
          rw [Append.not_failed_of_unresolved ha] at ha'
          cases ha'
        · rw [hi] at hk
          cases hk
          refine ⟨b, hj, Or.inr ⟨hb, ?_⟩⟩
          obtain ⟨floor, hf, hle⟩ := hfloor
          exact floored_finish h.toCounts hi ha hp hj hb ⟨floor, hf, Nat.le_of_lt (Nat.lt_of_le_of_lt hle hlt)⟩
      · rw [heq] at hi'
        rcases (s.get_finish k _ i a').mp hi' with ⟨-, hsame⟩ | ⟨-, d, -, rfl⟩
        · rw [hi] at hsame
          cases hsame
          rw [Append.not_failed_of_unresolved ha] at ha'
          cases ha'
        · cases ha'

theorem lost_step (h : Sound log s) (step : Step) (hl : Lost s j) :
    Lost (Pipeline.step log s step) j := by
  obtain ⟨b, hj, hb⟩ := hl
  by_cases hne : ∀ k, step ≠ .Resolve k
  · obtain ⟨hframe, hfloor⟩ := step_frame log s step hne
    obtain ⟨c, hc, hk⟩ := hframe j b hj
    refine ⟨c, hc, ?_⟩
    rcases hb with hb | ⟨hu, hf⟩
    · have hu : b.unresolved = false := by
        by_contra hu
        rw [Append.not_failed_of_unresolved (by simpa using hu)] at hb
        cases hb
      rw [hk.ended hu]
      exact Or.inl hb
    · exact Or.inr ⟨hk.unresolved.trans hu, by rw [hk.offset]; exact hfloor _ hf⟩
  · simp only [not_forall, not_not] at hne
    obtain ⟨k, rfl⟩ := hne
    change Lost (s.resolve k) j
    rcases resolve_spec h.toCounts k with heq | ⟨a, ks1, hk, ha, hp, hcase⟩
    · rw [heq]
      exact ⟨b, hj, hb⟩
    · by_cases hkj : k = j
      · subst hkj
        rw [hk] at hj
        cases hj
        rcases hb with hb | ⟨-, hf⟩
        · rw [Append.not_failed_of_unresolved ha] at hb
          cases hb
        · rcases hcase with ⟨met, -, -, -, -, -, heq⟩ | ⟨-, hnf, -, -, -⟩
          · rw [heq]
            exact ⟨_, (s.get_finish k _ k _).mpr (Or.inr ⟨rfl, b, hk, rfl⟩), Or.inl rfl⟩
          · exact absurd hf hnf
      · have hstay : ∀ outcome, (s.finish k outcome)[j]? = some b := fun outcome =>
          (s.get_finish k outcome j b).mpr (Or.inl ⟨hkj, hj⟩)
        rcases hcase with ⟨met, -, -, -, -, hmore, heq⟩ | ⟨-, -, -, hmore, heq⟩
        · rw [heq]
          refine ⟨b, hstay _, hb.imp id (fun ⟨hu, hf⟩ => ⟨hu, ?_⟩)⟩
          exact floored_finish h.toCounts hk ha hp (hstay (.error .NoQuorum)) hu (hmore _ hf)
        · rw [heq]
          refine ⟨b, hstay _, hb.imp id (fun ⟨hu, hf⟩ => ⟨hu, ?_⟩)⟩
          exact floored_finish h.toCounts hk ha hp (hstay (.ok a.offset)) hu (hmore _ hf)

theorem lost_run (h : Sound log s) (steps : List Step) (hl : Lost s j) :
    Lost (run log s steps) j := by
  induction steps generalizing s with
  | nil => exact hl
  | cons step steps ih => exact ih (sound_step log h step) (lost_step log h step hl)

theorem resolve_lost (h : Sound log s) (hl : Lost s j) {met : Bool} (hj : s.appends[j]? = some b)
    (hp : b.phase = .Counted met) : ∃ c, (s.resolve j).appends[j]? = some c ∧ c.failed = true := by
  obtain ⟨b', hj', hb'⟩ := hl
  rw [hj] at hj'
  cases hj'
  have hu : b.unresolved = true := by
    unfold Append.unresolved
    rw [hp]
  rcases hb' with hf | ⟨-, hf⟩
  · rw [Append.not_failed_of_unresolved hu] at hf
    cases hf
  · rcases hkey : s.key with _ | ks
    · rw [h.absent hkey] at hj
      simp at hj
    · have hks : s.ks = ks := by simp [Pipeline.ks, hkey]
      rw [hks] at hf
      have hres : ks.resolve b.offset met =
          (some (.error .NoQuorum), (ks.tail_fail b.offset).pipeline_resolved) := by
        unfold KeyState.resolve
        rw [if_pos ((ks.floored_iff b.offset).mpr hf)]
      refine ⟨{ b with phase := .Done (.error .NoQuorum) }, ?_, rfl⟩
      unfold resolve
      simp only [hj, hp, hkey, hres]
      exact (s.get_finish j _ j _).mpr (Or.inr ⟨rfl, b, hj, rfl⟩)

/-! ## The rule of a tier -/

/-- What the ack of an append means: the owner's own copy for `Local`, else a quorum of the
owner and of different followers. -/
def TierRule (a : Append) : Prop :=
  (a.tier = .Local → a.own = true) ∧
    (a.tier ≠ .Local → log.quorum.met (log.tally_of a.own a.acked) = true) ∧
    a.acked.Nodup ∧ ∀ f ∈ a.acked, f < log.followers.length

/-- A follower's ack is not counted for a `Local` append. -/
def OwnCopyOnly (s : Pipeline) : Step → Prop
  | .Follower i _ true => ∀ a, s.appends[i]? = some a → a.tier ≠ .Local
  | _ => True

def RunOwnCopyOnly (s : Pipeline) : List Step → Prop
  | [] => True
  | step :: steps => s.OwnCopyOnly step ∧ RunOwnCopyOnly (Pipeline.step log s step) steps

/-- No follower was counted for a `Local` append. -/
def LocalAlone (s : Pipeline) : Prop :=
  ∀ (i : Nat) a, s.appends[i]? = some a → a.tier = .Local → a.acked = []

theorem localAlone_step (h : Sound log s) (hl : LocalAlone s) (step : Step)
    (hs : s.OwnCopyOnly step) : LocalAlone (Pipeline.step log s step) := by
  intro j b hj htier
  rcases step_origin log h.toCounts step hj with ⟨a, ha, hfrom⟩ | ⟨record, tier, -, -, rfl⟩
  · have htier' : a.tier = .Local := hfrom.tier ▸ htier
    rw [List.eq_nil_iff_forall_not_mem]
    intro f hf
    rcases hfrom.acked f hf with hf | rfl
    · rw [hl j a ha htier'] at hf
      simp at hf
    · exact hs a ha htier'
  · rfl

theorem localAlone_run (h : Sound log s) (hl : LocalAlone s) (steps : List Step)
    (hs : RunOwnCopyOnly log s steps) : LocalAlone (run log s steps) := by
  induction steps generalizing s with
  | nil => exact hl
  | cons step steps ih =>
    exact ih (sound_step log h step) (localAlone_step log h hl step hs.1) hs.2

theorem tierRule_of_tallied (hl : LocalAlone s) (hi : s.appends[i]? = some a) (h : Tallied log a)
    (hp : a.phase = .Done (.ok o)) : TierRule log a := by
  have hmet := h.met (Or.inr ⟨o, hp⟩)
  refine ⟨fun htier => ?_, fun htier => ?_, h.distinct, h.members⟩
  · rw [htier, hl i a hi htier] at hmet
    unfold ClusterLog.met_now at hmet
    simp only [decide_eq_true_eq, ClusterLog.tally_of_all, List.length_nil, Nat.add_zero] at hmet
    rcases hown : a.own with _ | _
    · rw [hown] at hmet
      exact absurd hmet (by decide)
    · rfl
  · unfold ClusterLog.met_now at hmet
    split at hmet
    · rename_i heq
      exact absurd heq htier
    · exact hmet

/-! ## The pipeline in order -/

/-- What a key owes its callers, in every state. -/
structure InOrder (s : Pipeline) : Prop where
  /-- An append that resolved ok met its tier's rule. -/
  rule : ∀ (i : Nat) a o, s.appends[i]? = some a → a.phase = .Done (.ok o) →
    a.offset = o ∧ TierRule log a
  /-- Every offset below it that is still retained is committed, and so is every one above
  what recovery brought. -/
  committed : ∀ (i : Nat) a o, s.appends[i]? = some a → a.phase = .Done (.ok o) →
    o ≤ s.ks.committed ∧ (∀ low r, low < o → s.ks.entries[low]? = some r → s.Committed low r) ∧
      ∀ low, s.base < low → low < o →
        ∃ (k : Nat) (b : Append), s.appends[k]? = some b ∧ b.phase = .Done (.ok low)
  /-- Ok outcomes are ordered as submitted. -/
  ordered : ∀ (i j : Nat) a b x y, i < j → s.appends[i]? = some a → s.appends[j]? = some b →
    a.phase = .Done (.ok x) → b.phase = .Done (.ok y) → x < y
  /-- With nothing pending the next offset is right above the watermark. -/
  next : (∀ a ∈ s.appends, a.unresolved = false) →
    ∀ record, (s.ks.stage record).1 = s.ks.committed + 1
  /-- A read gives committed records only. -/
  reads : ∀ after limit es, s.ks.read after limit = some es →
    ∀ e ∈ es, e.offset ≤ s.ks.committed ∧ s.Committed e.offset e.record

theorem inOrder_of_sound (h : Sound log s) (hl : LocalAlone s) : InOrder log s := by
  refine ⟨fun i a o hi hp => ⟨(h.acked i a o hi hp).1, tierRule_of_tallied log hl hi (h.tallied i a hi) hp⟩,
    fun i a o hi hp => ?_, fun i j a b x y hlt hi hj ha hb => ?_, fun hnone record => ?_,
    fun after limit es hes e he => ?_⟩
  · have hle := (h.acked i a o hi hp).2
    refine ⟨hle, fun low r hlt hr => h.below low r hr ?_, fun low hbase hlt => h.filled low hbase ?_⟩
    · exact Nat.le_trans (Nat.le_of_lt hlt) hle
    · exact Nat.le_trans (Nat.le_of_lt hlt) hle
  · rw [← (h.acked i a x hi ha).1, ← (h.acked j b y hj hb).1]
    exact h.ordered i j a b hi hj hlt (Append.not_failed_of_ok ha)
  · have hz : s.ks.pending = 0 := by
      rw [h.pending, List.countP_eq_zero]
      intro a ha
      simp [hnone a ha]
    have hle := h.drained hz
    unfold KeyState.stage
    dsimp only
    split
    · rfl
    · have heq : s.ks.assigned = s.ks.committed := by
        unfold Offset at *
        omega
      rw [heq]
  · unfold KeyState.read at hes
    split at hes
    · cases hes
    · cases hes
      obtain ⟨x, hx, rfl⟩ := List.mem_map.mp he
      obtain ⟨hmem, hrange⟩ := List.mem_filter.mp (List.mem_of_mem_take hx)
      simp only [Bool.and_eq_true, decide_eq_true_eq] at hrange
      exact ⟨hrange.2, h.below x.1 x.2 ((BTreeMap.mem_toList _ _ _).mp hmem) hrange.2⟩

theorem run_append (s : Pipeline) (xs ys : List Step) :
    run log s (xs ++ ys) = run log (run log s xs) ys := List.foldl_append

/-- Over every interleaving of submits, acks and failures, turns, truncates and seeds on a key
that count no follower for a `Local` append: commits go in order and with a quorum, and when an
append fails, every append in flight above it does not commit after that, and fails at its
turn. -/
theorem pipelined_appends_commit_in_order (steps : List Step) (hs : RunOwnCopyOnly log {} steps) :
    InOrder log (run log {} steps) ∧
      ∀ (before after : List Step) (step : Step), steps = before ++ step :: after →
        ∀ (i j : Nat) a a' b, (run log {} before).appends[i]? = some a → a.unresolved = true →
          (run log {} (before ++ [step])).appends[i]? = some a' → a'.failed = true →
          (run log {} (before ++ [step])).appends[j]? = some b → b.unresolved = true →
          a.offset < b.offset →
          ∃ c, (run log {} steps).appends[j]? = some c ∧
            (c.failed = true ∨ c.unresolved = true) ∧
            ∀ met, c.phase = .Counted met →
              ∃ d, ((run log {} steps).resolve j).appends[j]? = some d ∧ d.failed = true := by
  have hstart := sound_start log
  have hend := sound_run log hstart steps
  refine ⟨inOrder_of_sound log hend (localAlone_run log hstart (by simp [LocalAlone]) _ hs), ?_⟩
  intro before after step hsteps i j a a' b hi ha hi' ha' hj hb hlt
  have hmid := sound_run log hstart before
  rw [run_append] at hi' hj
  have hlost := lost_run log (sound_step log hmid step) after
    (lost_of_failure log hmid step hi ha hi' ha' hj hb hlt)
  have hrun : run log {} steps = run log (Pipeline.step log (run log {} before) step) after := by
    rw [hsteps, run_append]
    rfl
  rw [← hrun] at hlost
  obtain ⟨c, hc, hcase⟩ := hlost
  refine ⟨c, hc, hcase.imp id And.left, fun met hp => ?_⟩
  exact resolve_lost log hend ⟨c, hc, hcase⟩ hc hp

def ownerOfThree : ClusterLog := ClusterLog.new "a" ["a", "b", "c"]

/-- The owner's own copy of a `Local` append fails, a follower's delivery does not: the append
resolves ok with no copy on the owner. -/
theorem a_local_append_commits_on_a_follower :
    ∃ a, (run ownerOfThree {} [.Submit [1] .Local, .Own 0 false, .Follower 0 0 true,
        .Resolve 0]).appends[0]? = some a ∧
      a.phase = .Done (.ok 1) ∧ ¬ TierRule ownerOfThree a := by
  refine ⟨{ offset := 1, seq := 1, record := [1], tier := .Local, own := false, acked := [0]
            phase := .Done (.ok 1) }, by decide +kernel, rfl, fun h => ?_⟩
  exact absurd (h.1 rfl) (by decide)

/-- Three appends: the second fails, with the third staged above it, and is submitted again. -/
def failAndRetry : List Step :=
  [.Submit [1] .Quorum, .Submit [2] .Local, .Submit [3] .Quorum,
    .Own 0 true, .Own 1 false, .Own 2 true, .Follower 2 1 true, .Follower 0 0 true,
    .Follower 1 0 false, .Follower 1 1 false, .Resolve 2, .Resolve 1, .Resolve 0, .Resolve 2,
    .Submit [4] .Quorum]

theorem pipelined_appends_commit_in_order_with_a_failure :
    InOrder ownerOfThree (run ownerOfThree {} failAndRetry) ∧
      (run ownerOfThree {} failAndRetry).appends.map (fun a => (a.offset, a.phase)) =
        [(1, .Done (.ok 1)), (2, .Done (.error .NoQuorum)), (3, .Done (.error .NoQuorum)),
          (2, .Own)] := by
  refine ⟨(pipelined_appends_commit_in_order ownerOfThree failAndRetry ?_).1, by decide +kernel⟩
  refine ⟨trivial, trivial, trivial, trivial, trivial, trivial, ?_, ?_, trivial, trivial, trivial,
    trivial, trivial, trivial, trivial, trivial⟩
  · intro a ha
    change ([_, _, _] : List Append)[2]? = some a at ha
    cases ha
    decide +kernel
  · intro a ha
    change ([_, _, _] : List Append)[0]? = some a at ha
    cases ha
    decide +kernel

end Pipeline

end mqtt_cluster.cluster_log
