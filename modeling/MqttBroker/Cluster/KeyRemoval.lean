-- A key that is removed while its appends are in flight (`ClusterLog::remove`). A future looks
-- its key up by name when its turn comes, so it may find the log that was made after the
-- remove, at the same offsets.
import MqttBroker.Cluster.PipelineRecords

namespace mqtt_cluster.cluster_log

open mqtt_storage.repl

namespace Pipeline

/-! ## What an append waits for -/

/-- Every offset that was handed out above the watermark is that of an append in flight, or bound
to fail. -/
def Gapless (s : Pipeline) : Prop :=
  ∀ o, s.ks.committed < o → o ≤ s.ks.assigned → ¬ s.ks.Floored o →
    ∃ (i : Nat) (a : Append), s.appends[i]? = some a ∧ a.unresolved = true ∧ a.offset = o

variable {s : Pipeline}

/-- Nothing is handed out above the watermark of a pipeline that drains. -/
theorem pipeline_resolved_open {ks : KeyState} {o : Offset}
    (hlt : ks.pipeline_resolved.committed < o) (hle : o ≤ ks.pipeline_resolved.assigned)
    (hnf : ¬ ks.pipeline_resolved.Floored o) :
    ks.committed < o ∧ o ≤ ks.assigned ∧ ¬ ks.Floored o := by
  rw [KeyState.pipeline_resolved_committed] at hlt
  unfold KeyState.pipeline_resolved at hle hnf
  dsimp only at hle hnf
  split at hle
  · exact absurd hlt (Nat.not_lt.mpr hle)
  · rename_i hne
    rw [if_neg hne] at hnf
    exact ⟨hlt, hle, hnf⟩

theorem gapless_turn (hg : Gapless s) {i : Nat} {a : Append} {ks' : KeyState}
    {outcome : Except ReplError Offset} (hi : s.appends[i]? = some a)
    (hassigned : ks'.assigned = s.ks.assigned) (hcommitted : s.ks.committed ≤ ks'.committed)
    (hopen : ∀ o, ks'.committed < o → ¬ ks'.Floored o → ¬ s.ks.Floored o ∧ o ≠ a.offset) :
    Gapless { s with key := some ks'.pipeline_resolved, appends := s.finish i outcome } := by
  intro o hlt hle hnf
  obtain ⟨hlt', hle', hnf'⟩ := pipeline_resolved_open hlt hle hnf
  obtain ⟨hold, hne⟩ := hopen o hlt' hnf'
  obtain ⟨j, b, hj, hb, ho⟩ := hg o (Nat.lt_of_le_of_lt hcommitted hlt') (hassigned ▸ hle') hold
  refine ⟨j, b, (s.get_finish i outcome j b).mpr (.inl ⟨?_, hj⟩), hb, ho⟩
  rintro rfl
  rw [hi] at hj
  cases hj
  exact hne ho.symm

theorem gapless_resolve (hg : Gapless s) (i : Nat) : Gapless (s.resolve i) := by
  unfold resolve
  split
  · exact hg
  rename_i a hi
  split
  · -- the key is gone, and nothing is handed out
    rename_i hkey
    intro o hlt hle
    have hks : s.ks = {} := by simp [Pipeline.ks, hkey]
    rw [Pipeline.ks, hkey] at hle hlt
    exact absurd hlt (Nat.not_lt.mpr hle)
  · rename_i met ks hphase hkey
    have hks : s.ks = ks := by simp [Pipeline.ks, hkey]
    rcases hres : ks.resolve a.offset met with ⟨r, ks'⟩
    rcases KeyState.resolve_cases hres with
      ⟨hfl, rfl, rfl⟩ | ⟨hfl, -, rfl, rfl⟩ | ⟨hfl, -, hnext, rfl, rfl⟩ | ⟨-, -, rfl, rfl⟩
    · refine gapless_turn hg hi (by rw [hks]; rfl) (by rw [hks]; exact Nat.le_refl _) ?_
      rw [hks]
      exact fun o _ hnf => ⟨hnf, fun heq => hnf (heq ▸ hfl)⟩
    · refine gapless_turn hg hi (by rw [hks]; rfl) (by rw [hks]; exact Nat.le_refl _) ?_
      rw [hks]
      intro o _ hnf
      rw [KeyState.floored_abort_from, not_or] at hnf
      exact ⟨hnf.1, fun heq => hnf.2 (Nat.le_of_eq heq.symm)⟩
    · refine gapless_turn hg hi (by rw [hks]) (by rw [hks, ← hnext]; exact Nat.le_succ _) ?_
      rw [hks]
      exact fun o hlt hnf => ⟨hnf, Nat.ne_of_gt hlt⟩
    · exact hg
  · exact hg

theorem gapless_submit (hg : Gapless s) (record : Bytes) (tier : DurabilityTier) :
    Gapless (s.submit_tiered record tier) := by
  intro o hlt hle hnf
  have hnew : (s.submit_tiered record tier).ks.assigned = (s.ks.stage record).1 := rfl
  by_cases ho : o = (s.ks.stage record).1
  · exact ⟨s.appends.length, _, (get_snoc _ _ _ _).mpr (.inr ⟨rfl, rfl⟩), rfl, ho.symm⟩
  · have hstage : (s.ks.stage record).1 ≤ max s.ks.assigned s.ks.committed + 1 := by
      simp only [KeyState.stage]
      split
      · exact Nat.succ_le_succ (Nat.le_max_right _ _)
      · exact Nat.succ_le_succ (Nat.le_max_left _ _)
    have hbelow : o ≤ s.ks.assigned := by
      have hcommitted : s.ks.committed < o := hlt
      rw [hnew] at hle
      unfold Offset at *
      omega
    obtain ⟨j, b, hj, hb, hbo⟩ := hg o hlt hbelow hnf
    exact ⟨j, b, (get_snoc _ _ _ _).mpr (.inl hj), hb, hbo⟩

theorem gapless_acks (hg : Gapless s) (i : Nat) {f : Append → Append}
    (hf : ∀ a, AckKeeps a (f a)) : Gapless { s with appends := s.appends.modify i f } := by
  intro o hlt hle hnf
  obtain ⟨j, b, hj, hb, hbo⟩ := hg o hlt hle hnf
  refine ⟨j, if i = j then f b else b, ?_, ?_, ?_⟩
  · simp [List.getElem?_modify, hj]
  · split
    · exact (hf b).unresolved.trans hb
    · exact hb
  · split
    · exact (hf b).offset.trans hbo
    · exact hbo

/-- A key that hands out the next offsets as before, with a watermark that may be higher. -/
structure HandsOut (ks ks' : KeyState) : Prop where
  assigned : ks'.assigned = ks.assigned
  committed : ks.committed ≤ ks'.committed
  floor : ks'.abort_floor = ks.abort_floor

theorem handsOut_refl (ks : KeyState) : HandsOut ks ks := ⟨rfl, Nat.le_refl _, rfl⟩

theorem handsOut_drop (key : Option KeyState) (up_to : KeyState → Offset) :
    HandsOut (key.getD {}) ((key.map (fun ks => ks.drop_to (up_to ks))).getD {}) := by
  rcases key with _ | ks
  · exact handsOut_refl {}
  · exact ⟨rfl, Nat.le_refl _, rfl⟩

theorem gapless_of_handsOut (hg : Gapless s) {s' : Pipeline} (happends : s'.appends = s.appends)
    (hout : HandsOut s.ks s'.ks) : Gapless s' := by
  intro o hlt hle hnf
  rw [happends]
  refine hg o (Nat.lt_of_le_of_lt hout.committed hlt) (hout.assigned ▸ hle) (fun hfl => hnf ?_)
  unfold KeyState.Floored at hfl ⊢
  rw [hout.floor]
  exact hfl

theorem gapless_step (log : ClusterLog) (hg : Gapless s) (step : Step) :
    Gapless (Pipeline.step log s step) := by
  cases step with
  | Submit record tier => exact gapless_submit hg record tier
  | Own i ok => exact gapless_acks hg i (fun a => own_done_keeps log a ok)
  | Follower i f ok => exact gapless_acks hg i (fun a => follower_done_keeps log a f ok)
  | Resolve i => exact gapless_resolve hg i
  | Truncate up_to =>
    exact gapless_of_handsOut hg rfl (handsOut_drop s.key (fun ks => min up_to ks.committed))
  | TruncateDurable up_to =>
    obtain ⟨happends, hkey⟩ := truncate_durable_frame log s up_to
    refine gapless_of_handsOut hg happends ?_
    rw [Pipeline.ks, Pipeline.ks, hkey]
    exact handsOut_refl _
  | TruncateAcked k own acked =>
    refine gapless_of_handsOut hg (truncate_acked_appends log s k own acked) ?_
    simp only [Pipeline.step, truncate_acked]
    split
    · exact handsOut_refl _
    · rename_i up_to _
      simp only [Pipeline.ks]
      split
      · exact handsOut_drop s.key (fun _ => up_to)
      · exact handsOut_refl _
  | Seed entries floor seq_floor =>
    refine gapless_of_handsOut hg (seed_key_appends log s entries floor seq_floor) ?_
    simp only [Pipeline.step, seed_key]
    split
    · exact handsOut_refl _
    · split
      · exact handsOut_refl _
      · obtain ⟨hcommitted, hassigned, -, hfloor, -⟩ := seed_fold entries s.ks
        exact ⟨hassigned, Nat.le_trans hcommitted (Nat.le_max_left _ _), hfloor⟩

theorem waits_below (h : Counts s) (hg : Gapless s) {j : Nat} {b : Append} {met : Bool}
    (hj : s.appends[j]? = some b) (hphase : b.phase = .Counted met) :
    (∃ outcome, (s.resolve j).appends = s.finish j outcome) ∨
      ∃ (i : Nat) (a : Append), i < j ∧ s.appends[i]? = some a ∧ a.unresolved = true := by
  have hb : b.unresolved = true := by simp [Append.unresolved, hphase]
  rcases hkey : s.key with _ | ks
  · exact .inl ⟨.error .NoQuorum, by simp only [resolve, hj, hphase, hkey]⟩
  have hks : s.ks = ks := by simp [Pipeline.ks, hkey]
  rcases hres : ks.resolve b.offset met with ⟨_ | outcome, ks'⟩
  · right
    rcases KeyState.resolve_cases hres with
      ⟨-, hr, -⟩ | ⟨-, -, hr, -⟩ | ⟨-, -, -, hr, -⟩ | ⟨hnf, rfl, -, -⟩
    · cases hr
    · cases hr
    · cases hr
    · have hne : ks.committed + 1 ≠ b.offset := by
        intro heq
        have hany : ks.abort_floor.any (fun floor => floor ≤ b.offset) ≠ true :=
          fun hany => hnf ((ks.floored_iff b.offset).mp hany)
        rw [KeyState.resolve, if_neg hany, if_neg (by simp), if_pos heq] at hres
        cases hres
      have habove : ks.committed < b.offset := by
        have := h.above j b hj hb
        rw [hks] at this
        exact this.resolve_right hnf
      have hstaged := h.staged j b hj hb
      rw [hks] at hstaged
      -- the offset after the watermark is that of an append in flight
      obtain ⟨i, a, hi, ha, ho⟩ := hg (ks.committed + 1) (by rw [hks]; exact Nat.lt_succ_self _)
        (by rw [hks]; exact Nat.le_trans habove hstaged) (by
          rw [hks]
          rintro ⟨f, hf, hle⟩
          exact hnf ⟨f, hf, Nat.le_trans hle habove⟩)
      refine ⟨i, a, ?_, hi, ha⟩
      rcases Nat.lt_trichotomy i j with hlt | rfl | hgt
      · exact hlt
      · rw [hi] at hj
        cases hj
        exact absurd ho.symm hne
      · have hlt := h.ordered j i b a hj hi hgt (Append.not_failed_of_unresolved hb)
        rw [ho] at hlt
        exact absurd habove (Nat.not_lt.mpr (Nat.le_of_lt_succ hlt))
  · exact .inl ⟨outcome, by simp only [resolve, hj, hphase, hkey, hres]⟩

end Pipeline

/-! ## A key and its removals -/

/-- One key of a log over its removals, with the number of appends that were submitted before the
key was last removed. -/
structure KeyLife where
  pipe : Pipeline := {}
  before : Nat := 0

inductive KeyMove
  | On (step : Step)
  | Remove

namespace KeyLife

variable (log : ClusterLog)

/-- The state of the key goes. What is in flight stays. -/
def remove (s : KeyLife) : KeyLife :=
  { pipe := { s.pipe with key := none, seeded := [], base := 0 }
    before := s.pipe.appends.length }

def step (s : KeyLife) : KeyMove → KeyLife
  | .On step => { s with pipe := Pipeline.step log s.pipe step }
  | .Remove => s.remove

def run (s : KeyLife) (moves : List KeyMove) : KeyLife := moves.foldl (step log) s

/-- A key without state has nothing to read. -/
def read (s : KeyLife) (after : Offset) (limit : Nat) : Option (List LogEntry) :=
  match s.pipe.key with
  | none => some []
  | some ks => ks.read after limit

/-! ## The log since the remove -/

/-- Nothing of the removed log is in flight. -/
def Drained (s : KeyLife) : Prop :=
  (∀ a ∈ s.pipe.appends, a.unresolved = false) ∧ s.pipe.truncates = []

/-- A step that makes the key anew finds nothing in flight. -/
def Clear (s : KeyLife) : KeyMove → Prop
  | .On (.Submit ..) => s.pipe.key = none → s.Drained
  | .On (.Seed ..) => s.pipe.key = none → s.Drained
  | _ => True

def RunClear (s : KeyLife) : List KeyMove → Prop
  | [] => True
  | move :: moves => s.Clear move ∧ RunClear (s.step log move) moves

instance (s : KeyLife) : Decidable s.Drained := inferInstanceAs (Decidable (_ ∧ _))

instance (s : KeyLife) (move : KeyMove) : Decidable (s.Clear move) :=
  match move with
  | .On (.Submit ..) => inferInstanceAs (Decidable (s.pipe.key = none → s.Drained))
  | .On (.Seed ..) => inferInstanceAs (Decidable (s.pipe.key = none → s.Drained))
  | .On (.Own ..) | .On (.Follower ..) | .On (.Resolve ..) | .On (.Truncate ..)
  | .On (.TruncateDurable ..) | .On (.TruncateAcked ..) | .Remove => inferInstanceAs (Decidable True)

instance runClearDecidable (s : KeyLife) : (moves : List KeyMove) → Decidable (s.RunClear log moves)
  | [] => inferInstanceAs (Decidable True)
  | move :: moves =>
    have := runClearDecidable (s.step log move) moves
    inferInstanceAs (Decidable (_ ∧ _))

/-- The log that was made after the remove, with the appends that were submitted since. -/
def since (s : KeyLife) : Pipeline :=
  match s.pipe.key with
  | none => {}
  | some _ => { s.pipe with appends := s.pipe.appends.drop s.before }

/-- A step as the log since the remove sees it, if it does. -/
def later (n : Nat) : Step → Option Step
  | .Own i ok => if n ≤ i then some (.Own (i - n) ok) else none
  | .Follower i f ok => if n ≤ i then some (.Follower (i - n) f ok) else none
  | .Resolve i => if n ≤ i then some (.Resolve (i - n)) else none
  | step => some step

/-- The appends from before the remove have ended once there is a key again, and a key that was
not made again has no appends since. -/
structure Parted (s : KeyLife) : Prop where
  sound : Pipeline.Sound log s.since
  gapless : s.since.Gapless
  ended : ∀ (i : Nat) a, s.pipe.key ≠ none → i < s.before → s.pipe.appends[i]? = some a →
    a.unresolved = false
  within : s.before ≤ s.pipe.appends.length
  gone : s.pipe.key = none →
    s.before = s.pipe.appends.length ∧ s.pipe.seeded = [] ∧ s.pipe.base = 0

variable {log} {s : KeyLife}

theorem since_of_none (h : s.pipe.key = none) : s.since = {} := by
  unfold since
  rw [h]

variable {ks : KeyState}

theorem since_of_some (h : s.pipe.key = some ks) :
    s.since = { s.pipe with appends := s.pipe.appends.drop s.before } := by
  unfold since
  rw [h]

@[simp] theorem since_ks (s : KeyLife) : s.since.ks = s.pipe.ks := by
  rcases h : s.pipe.key with _ | ks
  · rw [since_of_none h]
    simp [Pipeline.ks, h]
  · rw [since_of_some h]
    rfl

/-! ## A step -/

def cut (n : Nat) (p : Pipeline) : Pipeline := { p with appends := p.appends.drop n }

variable {p : Pipeline} {n i : Nat}

theorem resolve_cut (hi : n ≤ i) : (cut n p).resolve (i - n) = cut n (p.resolve i) := by
  have hget : (p.appends.drop n)[i - n]? = p.appends[i]? := by
    rw [List.getElem?_drop, Nat.add_sub_cancel' hi]
  have hfinish : ∀ outcome, (cut n p).finish (i - n) outcome = (p.finish i outcome).drop n :=
    fun outcome => (List.drop_modify_of_ge _ i n p.appends hi).symm
  have hi' : (cut n p).appends[i - n]? = p.appends[i]? := hget
  rcases ha : p.appends[i]? with _ | a
  · rw [ha] at hi'
    simp only [Pipeline.resolve, ha, hi']
  · rw [ha] at hi'
    rcases hphase : a.phase with _ | _ | met | _
    · simp only [Pipeline.resolve, ha, hi', hphase]
    · simp only [Pipeline.resolve, ha, hi', hphase]
    · rcases hkey : p.key with _ | ks
      · have hkey' : (cut n p).key = none := hkey
        simp only [Pipeline.resolve, ha, hi', hphase, hkey, hkey', hfinish]
        rfl
      · have hkey' : (cut n p).key = some ks := hkey
        simp only [Pipeline.resolve, ha, hi', hphase, hkey, hkey', hfinish]
        rcases ks.resolve a.offset met with ⟨_ | outcome, ks'⟩ <;> rfl
    · simp only [Pipeline.resolve, ha, hi', hphase]

theorem resolve_ended (h : ∀ a, p.appends[i]? = some a → a.unresolved = false) :
    p.resolve i = p := by
  rcases hi : p.appends[i]? with _ | a
  · simp only [Pipeline.resolve, hi]
  have ha := h a hi
  unfold Append.unresolved at ha
  rcases hphase : a.phase with _ | _ | met | outcome
  · rw [hphase] at ha
    cases ha
  · rw [hphase] at ha
    cases ha
  · rw [hphase] at ha
    cases ha
  · simp only [Pipeline.resolve, hi, hphase]

theorem cut_step (hn : n ≤ p.appends.length)
    (hended : ∀ (i : Nat) a, i < n → p.appends[i]? = some a → a.unresolved = false) (step : Step) :
    cut n (Pipeline.step log p step) =
      match later n step with
      | some step => Pipeline.step log (cut n p) step
      | none => cut n p := by
  cases step with
  | Submit record tier =>
    simp only [later, Pipeline.step, Pipeline.submit_tiered, cut]
    rw [List.drop_append_of_le_length hn]
    rfl
  | Own i ok =>
    simp only [later, Pipeline.step, cut]
    by_cases hle : n ≤ i
    · simp only [hle, if_true, List.drop_modify_of_ge _ i n p.appends hle]
    · simp only [hle, if_false, List.drop_modify_of_lt _ i n p.appends (Nat.not_le.mp hle)]
  | Follower i f ok =>
    simp only [later, Pipeline.step, cut]
    by_cases hle : n ≤ i
    · simp only [hle, if_true, List.drop_modify_of_ge _ i n p.appends hle]
    · simp only [hle, if_false, List.drop_modify_of_lt _ i n p.appends (Nat.not_le.mp hle)]
  | Resolve i =>
    simp only [later, Pipeline.step]
    by_cases hle : n ≤ i
    · simp only [hle, if_true]
      exact (resolve_cut hle).symm
    · simp only [hle, if_false]
      rw [resolve_ended (fun a => hended i a (Nat.not_le.mp hle))]
  | Truncate up_to => rfl
  | TruncateDurable up_to =>
    obtain ⟨_ | ks, appends, truncates, seeded, base⟩ := p
    · rfl
    · by_cases hlt : ks.committed < up_to
      · simp [later, Pipeline.step, Pipeline.truncate_durable, cut, hlt]
      · simp [later, Pipeline.step, Pipeline.truncate_durable, cut, hlt]
  | TruncateAcked k own acked =>
    have hk : (cut n p).truncates[k]? = p.truncates[k]? := rfl
    rcases ht : p.truncates[k]? with _ | up_to
    · simp only [later, Pipeline.step, Pipeline.truncate_acked, hk, ht]
    · simp only [later, Pipeline.step, Pipeline.truncate_acked, hk, ht]
      rfl
  | Seed entries floor seq_floor =>
    simp only [later, Pipeline.step, Pipeline.seed_key]
    have hks : (cut n p).ks = p.ks := rfl
    rw [hks]
    split
    · rfl
    · split <;> rfl

/-- What makes a key that has no state. -/
def Makes : Step → Prop
  | .Submit .. | .Seed .. => True
  | _ => False

variable {step : Step}

theorem makes_of_later {step' : Step} (h : later n step = some step') (hm : Makes step') :
    Makes step := by
  cases step with
  | Own i ok =>
    simp only [later, Option.ite_none_right_eq_some, Option.some.injEq] at h
    rw [← h.2] at hm
    exact hm
  | Follower i f ok =>
    simp only [later, Option.ite_none_right_eq_some, Option.some.injEq] at h
    rw [← h.2] at hm
    exact hm
  | Resolve i =>
    simp only [later, Option.ite_none_right_eq_some, Option.some.injEq] at h
    rw [← h.2] at hm
    exact hm
  | _ =>
    cases h
    exact hm

theorem step_of_gone {p : Pipeline} (hkey : p.key = none) {step : Step} (hm : ¬ Makes step) :
    (Pipeline.step log p step).key = none ∧
      (Pipeline.step log p step).appends.length = p.appends.length ∧
      (Pipeline.step log p step).seeded = p.seeded ∧ (Pipeline.step log p step).base = p.base := by
  cases step with
  | Submit record tier => exact absurd trivial hm
  | Seed entries floor seq_floor => exact absurd trivial hm
  | Own i ok => simp [Pipeline.step, hkey]
  | Follower i f ok => simp [Pipeline.step, hkey]
  | Resolve i =>
    simp only [Pipeline.step]
    rcases p.resolve_turn i with heq | ⟨a, outcome, key, -, -, hsome, heq⟩
    · rw [heq]
      exact ⟨hkey, rfl, rfl, rfl⟩
    · rw [heq]
      rw [hkey, Option.isSome_none, Option.isSome_eq_false_iff, Option.isNone_iff_eq_none] at hsome
      exact ⟨hsome, by simp [Pipeline.finish], rfl, rfl⟩
  | Truncate up_to => simp [Pipeline.step, hkey]
  | TruncateDurable up_to => simp [Pipeline.step, Pipeline.truncate_durable, hkey]
  | TruncateAcked k own acked =>
    simp only [Pipeline.step, Pipeline.truncate_acked]
    split
    · exact ⟨hkey, rfl, rfl, rfl⟩
    · simp [hkey]

theorem key_of_step (hkey : p.key = some ks) (step : Step) :
    ∃ ks', (Pipeline.step log p step).key = some ks' := by
  rw [← Option.isSome_iff_exists]
  cases step with
  | Submit record tier => rfl
  | Own i ok => simp [Pipeline.step, hkey]
  | Follower i f ok => simp [Pipeline.step, hkey]
  | Resolve i =>
    simp only [Pipeline.step]
    rcases p.resolve_turn i with heq | ⟨a, outcome, key, -, -, hsome, heq⟩
    · rw [heq, hkey]
      rfl
    · rw [heq]
      simp [hsome, hkey]
  | Truncate up_to => simp [Pipeline.step, hkey]
  | TruncateDurable up_to =>
    rw [(Pipeline.truncate_durable_frame log p up_to).2, hkey]
    rfl
  | TruncateAcked k own acked =>
    simp only [Pipeline.step, Pipeline.truncate_acked]
    split
    · simp [hkey]
    · split <;> simp [hkey]
  | Seed entries floor seq_floor =>
    simp only [Pipeline.step, Pipeline.seed_key]
    split
    · simp [hkey]
    · split <;> rfl

def sinceStep (log : ClusterLog) (s : KeyLife) (step : Step) : Pipeline :=
  match later s.before step with
  | some step => Pipeline.step log s.since step
  | none => s.since

theorem drained_of_makes (hc : s.Clear (.On step)) (hm : Makes step) (hkey : s.pipe.key = none) :
    s.Drained := by
  cases step with
  | Submit record tier => exact hc hkey
  | Seed entries floor seq_floor => exact hc hkey
  | _ => exact absurd hm (by simp [Makes])

theorem since_cut (h : Parted log s) (hd : s.pipe.key = none → s.Drained) :
    s.since = cut s.before s.pipe := by
  rcases hkey : s.pipe.key with _ | ks
  · obtain ⟨hn, hs, hb⟩ := h.gone hkey
    rw [since_of_none hkey]
    have hdrop : s.pipe.appends.drop s.before = [] := by rw [hn, List.drop_length]
    simp only [cut, hkey, hdrop, (hd hkey).2, hs, hb]
  · exact since_of_some hkey

theorem step_of_blank (hm : ¬ Makes step) : Pipeline.step log {} step = {} := by
  cases step with
  | Submit record tier => exact absurd trivial hm
  | Seed entries floor seq_floor => exact absurd trivial hm
  | Own i ok => simp [Pipeline.step]
  | Follower i f ok => simp [Pipeline.step]
  | _ => rfl

theorem seed_of_gone {entries : List EpochEntry} {floor : Offset} {seq_floor : Nat}
    (h : (p.seed_key entries floor seq_floor).key = none) :
    (entries.isEmpty && floor == 0 && seq_floor == 0) = true := by
  by_contra hne
  simp only [Pipeline.seed_key, hne, if_false] at h
  split at h <;> cases h

theorem since_made (h : Parted log s) (hd : s.pipe.key = none → s.Drained)
    (hkey : (Pipeline.step log s.pipe step).key = some ks) :
    (s.step log (.On step)).since = sinceStep log s step := by
  have hended : ∀ (i : Nat) a, i < s.before → s.pipe.appends[i]? = some a →
      a.unresolved = false := by
    intro i a hlt hi
    by_cases hkey : s.pipe.key = none
    · exact (hd hkey).1 a (List.mem_of_getElem? hi)
    · exact h.ended i a hkey hlt hi
  have heq : (s.step log (.On step)).since = cut s.before (Pipeline.step log s.pipe step) :=
    since_of_some hkey
  rw [heq, cut_step h.within hended step, sinceStep, since_cut h hd]

theorem since_step (h : Parted log s) (step : Step) (hc : s.Clear (.On step)) :
    (s.step log (.On step)).since = sinceStep log s step := by
  rcases hkey : s.pipe.key with _ | ks
  · by_cases hm : Makes step
    · cases step with
      | Submit record tier => exact since_made h hc rfl
      | Seed entries floor seq_floor =>
        rcases hmade : (Pipeline.step log s.pipe (.Seed entries floor seq_floor)).key with _ | ks
        · -- there was nothing to seed
          have hempty := seed_of_gone hmade
          rw [since_of_none hmade, sinceStep, since_of_none hkey]
          simp only [later, Pipeline.step, Pipeline.seed_key, hempty, if_true]
        · exact since_made h hc hmade
      | _ => exact absurd hm (by simp [Makes])
    · have hgone : (s.step log (.On step)).pipe.key = none := (step_of_gone hkey hm).1
      rw [since_of_none hgone, sinceStep, since_of_none hkey]
      split
      · rename_i step' hlater
        exact (step_of_blank (fun hm' => hm (makes_of_later hlater hm'))).symm
      · rfl
  · obtain ⟨ks', hks'⟩ := key_of_step hkey step
    refine since_made h (fun hnone => ?_) hks'
    rw [hkey] at hnone
    cases hnone

theorem gapless_start : ({} : Pipeline).Gapless :=
  fun _ hlt hle => absurd hlt (Nat.not_lt.mpr hle)

theorem parted_start : Parted log {} :=
  ⟨Pipeline.sound_start log, gapless_start, fun _ _ h => absurd rfl h, Nat.le_refl _, fun _ => ⟨rfl, rfl, rfl⟩⟩

theorem appends_of_step (p : Pipeline) (step : Step) :
    p.appends.length ≤ (Pipeline.step log p step).appends.length := by
  cases step with
  | Submit record tier => simp [Pipeline.step, Pipeline.submit_tiered]
  | Own i ok => simp [Pipeline.step]
  | Follower i f ok => simp [Pipeline.step]
  | Resolve i =>
    simp only [Pipeline.step]
    rcases p.resolve_turn i with heq | ⟨a, outcome, key, -, -, -, heq⟩
    · rw [heq]
    · rw [heq]
      simp [Pipeline.finish]
  | Truncate up_to => exact Nat.le_refl _
  | TruncateDurable up_to => rw [Pipeline.truncate_durable_appends]
  | TruncateAcked k own acked => rw [Pipeline.truncate_acked_appends]
  | Seed entries floor seq_floor => rw [Pipeline.seed_key_appends]

theorem parted_step (h : Parted log s) (move : KeyMove) (hc : s.Clear move) :
    Parted log (s.step log move) := by
  cases move with
  | Remove =>
    have hsince : (s.step log .Remove).since = {} := since_of_none rfl
    refine ⟨?_, ?_, fun i a hne => absurd rfl hne, Nat.le_refl _, fun _ => ⟨rfl, rfl, rfl⟩⟩
    · rw [hsince]
      exact Pipeline.sound_start log
    · rw [hsince]
      exact gapless_start
  | On step =>
    have hsince := since_step h step hc
    refine ⟨?_, ?_, ?_, Nat.le_trans h.within (appends_of_step s.pipe step), ?_⟩
    · rw [hsince, sinceStep]
      split
      · exact Pipeline.sound_step log h.sound _
      · exact h.sound
    · rw [hsince, sinceStep]
      split
      · exact Pipeline.gapless_step log h.gapless _
      · exact h.gapless
    · intro i b hne hlt hi
      obtain ⟨a, ha⟩ : ∃ a, s.pipe.appends[i]? = some a :=
        ⟨_, List.getElem?_eq_getElem (Nat.lt_of_lt_of_le hlt h.within)⟩
      have hended : a.unresolved = false := by
        by_cases hkey : s.pipe.key = none
        · have hm : Makes step := by
            by_contra hm
            exact hne (step_of_gone hkey hm).1
          exact (drained_of_makes hc hm hkey).1 a (List.mem_of_getElem? ha)
        · exact h.ended i a hkey hlt ha
      have hsame : (s.step log (.On step)).pipe.appends[i]? = some a :=
        Pipeline.ended_step log step ha hended
      rw [hsame] at hi
      cases hi
      exact hended
    · intro hnone
      rcases hkey : s.pipe.key with _ | ks
      · by_cases hm : Makes step
        · cases step with
          | Submit record tier => cases hnone
          | Seed entries floor seq_floor =>
            have hsame : Pipeline.step log s.pipe (.Seed entries floor seq_floor) = s.pipe := by
              simp only [Pipeline.step, Pipeline.seed_key, seed_of_gone hnone, if_true]
            simp only [KeyLife.step, hsame]
            exact h.gone hkey
          | _ => exact absurd hm (by simp [Makes])
        · obtain ⟨-, hlen, hseed, hbase⟩ := @step_of_gone log _ hkey _ hm
          obtain ⟨h1, h2, h3⟩ := h.gone hkey
          exact ⟨h1.trans hlen.symm, hseed.trans h2, hbase.trans h3⟩
      · obtain ⟨ks', hks'⟩ := @key_of_step log _ _ hkey step
        rw [KeyLife.step, hks'] at hnone
        cases hnone

theorem parted_run {s : KeyLife} (h : Parted log s) (moves : List KeyMove)
    (hc : s.RunClear log moves) : Parted log (s.run log moves) := by
  induction moves generalizing s with
  | nil => exact h
  | cons move moves ih => exact ih (parted_step h move hc.1) hc.2

/-! ## The appends since the remove -/

theorem get_since (h : Parted log s) (k : Nat) :
    s.since.appends[k]? = s.pipe.appends[s.before + k]? := by
  rcases hkey : s.pipe.key with _ | ks
  · obtain ⟨hn, -, -⟩ := h.gone hkey
    have hnone : s.pipe.appends[s.before + k]? = none :=
      List.getElem?_eq_none (by rw [hn]; exact Nat.le_add_right _ _)
    rw [since_of_none hkey, hnone]
    rfl
  · rw [since_of_some hkey]
    exact List.getElem?_drop

theorem since_resolve (h : Parted log s) (k : Nat) :
    (s.step log (.On (.Resolve (s.before + k)))).since = s.since.resolve k := by
  rw [since_step h (.Resolve (s.before + k)) trivial]
  simp [sinceStep, later, Pipeline.step]

/-- All the replicas of an append have answered, or enough of them. -/
def Answered (a : Append) : Prop := a.unresolved = true → ∃ met, a.phase = .Counted met

/-- The turns of so many appends from one on, in order. -/
def turns (from_ k : Nat) : List KeyMove := (List.range' from_ k).map (fun i => .On (.Resolve i))

theorem ends_or_waits (h : Parted log s) {k : Nat} {b : Append}
    (hk : s.pipe.appends[s.before + k]? = some b) (hb : Answered b) :
    (∀ b', (s.step log (.On (.Resolve (s.before + k)))).pipe.appends[s.before + k]? = some b' →
        b'.unresolved = false) ∨
      ∃ (i : Nat) (a : Append), i < k ∧ s.pipe.appends[s.before + i]? = some a ∧
        a.unresolved = true := by
  have hstep : Parted log (s.step log (.On (.Resolve (s.before + k)))) := parted_step h _ trivial
  have hget := get_since hstep k
  rw [since_resolve h] at hget
  rw [← get_since h] at hk
  by_cases hu : b.unresolved = true
  · obtain ⟨met, hphase⟩ := hb hu
    rcases Pipeline.waits_below h.sound.toCounts h.gapless hk hphase with ⟨outcome, heq⟩ |
      ⟨i, a, hlt, hi, ha⟩
    · left
      intro b' hb'
      have hb'' := hget.trans hb'
      rw [heq] at hb''
      rcases (s.since.get_finish k outcome k b').mp hb'' with ⟨hne, -⟩ | ⟨-, c, -, rfl⟩
      · exact absurd rfl hne
      · rfl
    · rw [get_since h] at hi
      exact .inr ⟨i, a, hlt, hi, ha⟩
  · left
    intro b' hb'
    have hu' : b.unresolved = false := by simpa using hu
    have hsame := Pipeline.ended_step log (.Resolve (s.before + k)) ((get_since h k) ▸ hk) hu'
    have hb'' : some b = some b' := hsame.symm.trans hb'
    cases hb''
    exact hu'

theorem other_of_resolve (p : Pipeline) {j : Nat} (hne : i ≠ j) :
    (p.resolve i).appends[j]? = p.appends[j]? := by
  rcases p.resolve_turn i with heq | ⟨a, outcome, key, -, -, -, heq⟩
  · rw [heq]
  · rw [heq]
    exact List.getElem?_modify_ne _ _ hne

theorem run_append (s : KeyLife) (xs ys : List KeyMove) :
    s.run log (xs ++ ys) = (s.run log xs).run log ys := List.foldl_append

theorem turns_end (h : Parted log s) (k : Nat)
    (hall : ∀ i a, i < k → s.pipe.appends[s.before + i]? = some a → Answered a) :
    Parted log (s.run log (turns s.before k)) ∧
      (s.run log (turns s.before k)).before = s.before ∧
      (∀ i b, i < k → (s.run log (turns s.before k)).pipe.appends[s.before + i]? = some b →
        b.unresolved = false) ∧
      ∀ j, s.before + k ≤ j →
        (s.run log (turns s.before k)).pipe.appends[j]? = s.pipe.appends[j]? := by
  induction k with
  | zero => exact ⟨h, rfl, fun i b hi => absurd hi (Nat.not_lt_zero i), fun j _ => rfl⟩
  | succ k ih =>
    obtain ⟨hparted, hbefore, hended, hrest⟩ := ih (fun i a hi => hall i a (Nat.lt_succ_of_lt hi))
    have hrun : s.run log (turns s.before (k + 1)) =
        (s.run log (turns s.before k)).step log (.On (.Resolve (s.before + k))) := by
      have hsplit : turns s.before (k + 1) =
          turns s.before k ++ [.On (.Resolve (s.before + k))] := by
        simp [turns, List.range'_1_concat]
      rw [hsplit, run_append]
      rfl
    rw [hrun]
    generalize s.run log (turns s.before k) = t at hparted hbefore hended hrest ⊢
    refine ⟨parted_step hparted _ trivial, hbefore, ?_, ?_⟩
    · intro i b hi hb
      by_cases hik : i = k
      · subst hik
        have hsame := hrest (s.before + i) (Nat.le_refl _)
        obtain ⟨a, ha⟩ : ∃ a, t.pipe.appends[s.before + i]? = some a := by
          refine ⟨_, List.getElem?_eq_getElem ?_⟩
          by_contra hout
          have hnone : (t.pipe.resolve (s.before + i)) = t.pipe :=
            resolve_ended (fun a ha => by simp [List.getElem?_eq_none (Nat.not_lt.mp hout)] at ha)
          have hb' : (t.pipe.resolve (s.before + i)).appends[s.before + i]? = some b := hb
          rw [hnone, List.getElem?_eq_none (Nat.not_lt.mp hout)] at hb'
          cases hb'
        have hans : Answered a := hall i a (Nat.lt_succ_self i) (hsame ▸ ha)
        rw [← hbefore] at ha hb hended
        rcases ends_or_waits hparted ha hans with hends | ⟨j, c, hj, hc, hcu⟩
        · exact hends b hb
        · rw [hended j c hj hc] at hcu
          cases hcu
      · have hother : (t.step log (.On (.Resolve (s.before + k)))).pipe.appends[s.before + i]? =
            t.pipe.appends[s.before + i]? :=
          other_of_resolve t.pipe (fun heq => hik (Nat.add_left_cancel heq).symm)
        rw [hother] at hb
        exact hended i b (Nat.lt_of_le_of_ne (Nat.le_of_lt_succ hi) hik) hb
    · intro j hj
      have hother : (t.step log (.On (.Resolve (s.before + k)))).pipe.appends[j]? =
          t.pipe.appends[j]? := other_of_resolve t.pipe (Nat.ne_of_lt hj)
      rw [hother]
      exact hrest j (Nat.le_of_succ_le hj)

/-! ## What a remove leaves of the appends before it -/

/-- The appends submitted before a remove, and the log made after it. -/
structure Isolated (log : ClusterLog) (s : KeyLife) : Prop where
  /-- The turn of an append from before the remove leaves the key as it is. -/
  untouched : ∀ i, i < s.before → (s.step log (.On (.Resolve i))).pipe.key = s.pipe.key
  /-- An append from after it whose replicas have answered waits for none from before. -/
  waits : ∀ j b, s.before ≤ j → s.pipe.appends[j]? = some b → Answered b →
    (∀ b', (s.step log (.On (.Resolve j))).pipe.appends[j]? = some b' → b'.unresolved = false) ∨
      ∃ (i : Nat) (a : Append), s.before ≤ i ∧ i < j ∧ s.pipe.appends[i]? = some a ∧
        a.unresolved = true
  /-- Once the replicas of the first of them have answered, their turns end them. -/
  resolves : ∀ k, (∀ i a, s.before ≤ i → i < s.before + k → s.pipe.appends[i]? = some a →
      Answered a) →
    ∀ i b, s.before ≤ i → i < s.before + k →
      (s.run log (turns s.before k)).pipe.appends[i]? = some b → b.unresolved = false
  /-- A read gives what recovery put there since, and what was submitted since and reached its
  tier. -/
  reads : ∀ after limit entries, s.read after limit = some entries → ∀ e ∈ entries,
    e ∈ s.pipe.seeded ∨ ∃ (i : Nat) (a : Append), s.before ≤ i ∧ s.pipe.appends[i]? = some a ∧
      a.phase = .Done (.ok e.offset) ∧ a.record = e.record ∧
      log.met_now a.tier (log.tally_of a.own a.acked) = true

theorem untouched_of_parted (h : Parted log s) (hi : i < s.before) :
    (s.step log (.On (.Resolve i))).pipe.key = s.pipe.key := by
  rcases hkey : s.pipe.key with _ | ks
  · exact (step_of_gone hkey (by simp [Makes])).1
  · have hended : s.pipe.resolve i = s.pipe :=
      resolve_ended (fun a ha => h.ended i a (by simp [hkey]) hi ha)
    show (s.pipe.resolve i).key = some ks
    rw [hended, hkey]

theorem read_of_parted (h : Parted log s) {after : Offset} {limit : Nat} {entries : List LogEntry}
    (hread : s.read after limit = some entries) {e : LogEntry} (he : e ∈ entries) :
    e ∈ s.pipe.seeded ∨ ∃ (i : Nat) (a : Append), s.before ≤ i ∧ s.pipe.appends[i]? = some a ∧
      a.phase = .Done (.ok e.offset) ∧ a.record = e.record ∧
      log.met_now a.tier (log.tally_of a.own a.acked) = true := by
  rcases hkey : s.pipe.key with _ | ks
  · simp only [read, hkey, Option.some.injEq] at hread
    rw [← hread] at he
    cases he
  · simp only [read, hkey, KeyState.read, Option.ite_none_left_eq_some, Option.some.injEq] at hread
    rw [← hread.2, List.mem_map] at he
    obtain ⟨⟨o, r⟩, hmem, rfl⟩ := he
    obtain ⟨hmem, hbound⟩ := List.mem_filter.mp (List.mem_of_mem_take hmem)
    simp only [Bool.and_eq_true, decide_eq_true_eq] at hbound
    have hks : s.since.ks = ks := by
      rw [since_ks, Pipeline.ks, hkey]
      rfl
    have hbelow := h.sound.below o r
    rw [hks] at hbelow
    rcases hbelow ((BTreeMap.mem_toList _ _ _).mp hmem) hbound.2 with hseed | ⟨i, a, hi, ha, hr⟩
    · left
      rw [since_of_some hkey] at hseed
      exact hseed
    · have htallied := (h.sound.tallied i a hi).met (.inr ⟨o, ha⟩)
      rw [get_since h] at hi
      exact .inr ⟨s.before + i, a, Nat.le_add_right _ _, hi, ha, hr, htallied⟩

theorem isolated_of_parted (h : Parted log s) : Isolated log s := by
  refine ⟨fun i => untouched_of_parted h, ?_, ?_, fun _ _ _ hread _ => read_of_parted h hread⟩
  · intro j b hle hj hb
    obtain ⟨k, rfl⟩ := Nat.exists_eq_add_of_le hle
    rcases ends_or_waits h hj hb with hends | ⟨i, a, hlt, hi, ha⟩
    · exact .inl hends
    · exact .inr ⟨s.before + i, a, Nat.le_add_right _ _, Nat.add_lt_add_left hlt _, hi, ha⟩
  · intro k hall i b hle hlt hi
    obtain ⟨n, rfl⟩ := Nat.exists_eq_add_of_le hle
    have hends := turns_end h k (fun i a hi ha =>
      hall (s.before + i) a (Nat.le_add_right _ _) (Nat.add_lt_add_left hi _) ha)
    exact hends.2.2.1 n b (Nat.lt_of_add_lt_add_left hlt) hi

/-- In every run where a removed key is made again only with nothing of it in flight, the appends
from before a remove leave the log after it alone. -/
theorem a_removed_key_leaves_its_successor_alone (log : ClusterLog) (moves : List KeyMove)
    (hc : ({} : KeyLife).RunClear log moves) : Isolated log (({} : KeyLife).run log moves) :=
  isolated_of_parted (parted_run parted_start moves hc)

open Pipeline (ownerOfThree)

/-- An append that has its quorum when the key is removed, and one that is submitted after. -/
def acrossRemove (between : List KeyMove) : List KeyMove :=
  [.On (.Submit [1] .Quorum), .On (.Own 0 true), .On (.Follower 0 0 true), .Remove] ++ between ++
    [.On (.Submit [2] .Quorum)]

/-- The append from before the remove has its turn before the key is made again, and fails. -/
theorem a_removed_key_fails_what_was_in_flight :
    Isolated ownerOfThree (({} : KeyLife).run ownerOfThree (acrossRemove [.On (.Resolve 0)])) ∧
      (({} : KeyLife).run ownerOfThree (acrossRemove [.On (.Resolve 0)])).pipe.appends.map
        Append.phase = [.Done (.error .NoQuorum), .Own] :=
  ⟨a_removed_key_leaves_its_successor_alone _ _ (by decide +kernel), by decide +kernel⟩

/-- It has its turn after: it commits the other record, which no replica has, at the offset they
share. -/
theorem an_old_append_commits_the_new_record :
    ¬ Isolated ownerOfThree (({} : KeyLife).run ownerOfThree (acrossRemove [])) ∧
      (({} : KeyLife).run ownerOfThree (acrossRemove [] ++ [.On (.Resolve 0)])).read 0 10 =
        some [{ offset := 1, record := [2] }] ∧
      (({} : KeyLife).run ownerOfThree (acrossRemove [] ++ [.On (.Resolve 0)])).pipe.appends.map
        Append.acked = [[0], []] := by
  refine ⟨fun h => ?_, by decide +kernel, by decide +kernel⟩
  have hsame := congrArg (Option.map KeyState.committed) (h.untouched 0 (by decide +kernel))
  exact absurd hsame (by decide +kernel)

end KeyLife

end mqtt_cluster.cluster_log
