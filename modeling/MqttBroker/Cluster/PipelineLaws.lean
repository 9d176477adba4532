-- The invariant of one key's pipeline: where the staged, the committed and the
-- failed offsets are, and what each step does to them.
import MqttBroker.Cluster.Pipeline

namespace mqtt_cluster.cluster_log

open mqtt_storage.repl

/-! ## The outcome of an append -/

namespace Append

def unresolved (a : Append) : Bool :=
  match a.phase with
  | .Done _ => false
  | _ => true

def failed (a : Append) : Bool :=
  match a.phase with
  | .Done (.error _) => true
  | _ => false

theorem not_failed_of_unresolved {a : Append} (h : a.unresolved = true) : a.failed = false := by
  unfold unresolved at h
  unfold failed
  split at h
  · cases h
  · split
    · rename_i hd _ e he
      exact absurd he (hd _)
    · rfl

theorem not_failed_of_ok {a : Append} {o : Offset} (h : a.phase = .Done (.ok o)) :
    a.failed = false := by
  unfold failed
  rw [h]

end Append

/-! ## One key -/

namespace KeyState

/-- An offset at or above the floor of the pipeline: it fails when its turn comes. -/
def Floored (ks : KeyState) (offset : Offset) : Prop :=
  ∃ floor, ks.abort_floor = some floor ∧ floor ≤ offset

variable (ks : KeyState) (offset o : Offset)

theorem floored_iff :
    ks.abort_floor.any (fun floor => floor ≤ offset) = true ↔ ks.Floored offset := by
  unfold Floored
  rcases ks.abort_floor with _ | floor <;> simp

/-- Everything that one turn of the commit loop can do. -/
theorem resolve_cases {ks ks' : KeyState} {offset : Offset} {met : Bool}
    {r : Option (Except ReplError Offset)} (h : ks.resolve offset met = (r, ks')) :
    (ks.Floored offset ∧ r = some (.error .NoQuorum) ∧
        ks' = (ks.tail_fail offset).pipeline_resolved) ∨
      (¬ ks.Floored offset ∧ met = false ∧ r = some (.error .NoQuorum) ∧
        ks' = (ks.abort_from offset).pipeline_resolved) ∨
      (¬ ks.Floored offset ∧ met = true ∧ ks.committed + 1 = offset ∧ r = some (.ok offset) ∧
        ks' = pipeline_resolved { ks with committed := offset }) ∨
      (¬ ks.Floored offset ∧ met = true ∧ r = none ∧ ks' = ks) := by
  unfold resolve at h
  by_cases hf : ks.abort_floor.any (fun floor => floor ≤ offset) = true
  · rw [if_pos hf] at h
    cases h
    exact Or.inl ⟨(ks.floored_iff offset).mp hf, rfl, rfl⟩
  · rw [if_neg hf] at h
    have hfloor : ¬ ks.Floored offset := fun hx => hf ((ks.floored_iff offset).mpr hx)
    cases met with
    | false =>
      cases h
      exact Or.inr (Or.inl ⟨hfloor, rfl, rfl, rfl⟩)
    | true =>
      simp only [Bool.not_true, Bool.false_eq_true, if_false] at h
      split at h
      · rename_i hc
        cases h
        exact Or.inr (Or.inr (Or.inl ⟨hfloor, rfl, hc, rfl, rfl⟩))
      · cases h
        exact Or.inr (Or.inr (Or.inr ⟨hfloor, rfl, rfl, rfl⟩))

@[simp] theorem pipeline_resolved_entries : ks.pipeline_resolved.entries = ks.entries := by
  unfold pipeline_resolved
  dsimp only
  split <;> rfl

@[simp] theorem pipeline_resolved_committed : ks.pipeline_resolved.committed = ks.committed := by
  unfold pipeline_resolved
  dsimp only
  split <;> rfl

@[simp] theorem pipeline_resolved_seq : ks.pipeline_resolved.seq = ks.seq := by
  unfold pipeline_resolved
  dsimp only
  split <;> rfl

@[simp] theorem pipeline_resolved_pending : ks.pipeline_resolved.pending = ks.pending - 1 := by
  unfold pipeline_resolved
  dsimp only
  split <;> rfl

/-- A pipeline that drains goes on from the watermark; else nothing moves. -/
theorem pipeline_resolved_rest :
    (ks.pending - 1 = 0 ∧ ks.pipeline_resolved.assigned = ks.committed) ∨
      (ks.pending - 1 ≠ 0 ∧ ks.pipeline_resolved.assigned = ks.assigned ∧
        ks.pipeline_resolved.abort_floor = ks.abort_floor) := by
  unfold pipeline_resolved
  dsimp only
  split
  · rename_i h
    exact Or.inl ⟨h, rfl⟩
  · rename_i h
    exact Or.inr ⟨h, rfl, rfl⟩

theorem get_tail_fail :
    (ks.tail_fail offset).entries[o]? = if offset = o then none else ks.entries[o]? := by
  unfold tail_fail
  rw [BTreeMap.get_erase]

theorem get_abort_from :
    (ks.abort_from offset).entries[o]? = if o ∈ ks.doomed offset then none else ks.entries[o]? := by
  unfold abort_from
  rw [BTreeMap.get_foldl_erase]

theorem floored_abort_from : (ks.abort_from offset).Floored o ↔ ks.Floored o ∨ offset ≤ o := by
  unfold Floored abort_from
  rcases ks.abort_floor with _ | floor
  · simp
  · simp

theorem mem_doomed :
    o ∈ ks.doomed offset ↔
      (∃ r, ks.entries[o]? = some r) ∧ ks.committed < o ∧ o ≤ ks.assigned ∧ offset ≤ o := by
  unfold doomed
  rw [List.mem_filter, BTreeMap.mem_keys]
  simp only [Bool.and_eq_true, decide_eq_true_eq, and_assoc]

end KeyState

/-! ## The invariant -/

namespace Pipeline

/-- An entry that recovery brought, or that an append with an ok outcome wrote. -/
def Committed (s : Pipeline) (offset : Offset) (record : Bytes) : Prop :=
  ({ offset, record } : LogEntry) ∈ s.seeded ∨
    ∃ (i : Nat) (a : Append), s.appends[i]? = some a ∧ a.phase = .Done (.ok offset) ∧ a.record = record

/-- What holds of the staged, resolved and failed offsets of a key. -/
structure Kept (s : Pipeline) : Prop where
  /-- The appends without an outcome are staged below `assigned`, and above the watermark
  unless they are bound to fail. -/
  staged : ∀ (i : Nat) a, s.appends[i]? = some a → a.unresolved = true → a.offset ≤ s.ks.assigned
  above : ∀ (i : Nat) a, s.appends[i]? = some a → a.unresolved = true →
    s.ks.committed < a.offset ∨ s.ks.Floored a.offset
  acked : ∀ (i : Nat) a o, s.appends[i]? = some a → a.phase = .Done (.ok o) →
    a.offset = o ∧ o ≤ s.ks.committed
  ordered : ∀ (i j : Nat) a b, s.appends[i]? = some a → s.appends[j]? = some b → i < j →
    a.failed = false → a.offset < b.offset
  /-- An entry is committed, or that of an append without an outcome. -/
  below : ∀ o r, s.ks.entries[o]? = some r → o ≤ s.ks.committed → s.Committed o r
  tail : ∀ o r, s.ks.entries[o]? = some r → s.ks.committed < o →
    ∃ (i : Nat) (a : Append), s.appends[i]? = some a ∧ a.unresolved = true ∧ a.offset = o ∧ a.record = r
  /-- An append that is not bound to fail still has its entry. -/
  present : ∀ (i : Nat) a, s.appends[i]? = some a → a.unresolved = true → ¬ s.ks.Floored a.offset →
    s.ks.entries[a.offset]? = some a.record
  /-- Every offset above the recovered ones, up to the watermark, had an ok outcome. -/
  filled : ∀ o, s.base < o → o ≤ s.ks.committed →
    ∃ (i : Nat) (a : Append), s.appends[i]? = some a ∧ a.phase = .Done (.ok o)
  waiting : ∀ u ∈ s.truncates, u ≤ s.ks.committed

/-- The invariant with the count of the appends in flight. -/
structure Counts (s : Pipeline) : Prop extends Kept s where
  absent : s.key = none → s.appends = []
  pending : s.ks.pending = s.appends.countP Append.unresolved
  drained : s.ks.pending = 0 → s.ks.assigned ≤ s.ks.committed

theorem Kept.unique {s : Pipeline} (h : Kept s) {i j : Nat} {a b : Append}
    (hi : s.appends[i]? = some a) (hj : s.appends[j]? = some b) (ha : a.unresolved = true)
    (hb : b.unresolved = true) (ho : a.offset = b.offset) : i = j := by
  have hfa := Append.not_failed_of_unresolved ha
  have hfb := Append.not_failed_of_unresolved hb
  rcases Nat.lt_trichotomy i j with hlt | heq | hgt
  · have hab : a.offset < b.offset := h.ordered i j a b hi hj hlt hfa
    rw [ho] at hab
    exact absurd hab (Nat.lt_irrefl _)
  · exact heq
  · have hba : b.offset < a.offset := h.ordered j i b a hj hi hgt hfb
    rw [ho] at hba
    exact absurd hba (Nat.lt_irrefl _)

theorem get_finish (s : Pipeline) (i : Nat) (outcome : Except ReplError Offset) (j : Nat)
    (b : Append) :
    (s.finish i outcome)[j]? = some b ↔
      (i ≠ j ∧ s.appends[j]? = some b) ∨
        (i = j ∧ ∃ a, s.appends[j]? = some a ∧ b = { a with phase := .Done outcome }) := by
  unfold finish
  rw [List.getElem?_modify]
  by_cases h : i = j
  · subst h
    simp only [if_true, Option.map_eq_map, Option.map_eq_some_iff, ne_eq, not_true_eq_false,
      false_and, true_and, false_or]
    constructor
    · rintro ⟨a, ha, rfl⟩
      exact ⟨a, ha, rfl⟩
    · rintro ⟨a, ha, rfl⟩
      exact ⟨a, ha, rfl⟩
  · simp only [h, if_false, ne_eq, not_false_eq_true, true_and, false_and, or_false]
    simp

theorem countP_modify {α : Type} (p : α → Bool) (f : α → α) (l : List α) (i : Nat) (a : α)
    (h : l[i]? = some a) :
    (l.modify i f).countP p + (p a).toNat = l.countP p + (p (f a)).toNat := by
  induction l generalizing i with
  | nil => simp at h
  | cons x l ih =>
    cases i with
    | zero =>
      simp only [List.getElem?_cons_zero, Option.some.injEq] at h
      subst h
      simp only [List.modify_zero_cons, List.countP_cons]
      cases p x <;> cases p (f x) <;> simp
    | succ i =>
      simp only [List.getElem?_cons_succ] at h
      have := ih i h
      simp only [List.modify_succ_cons, List.countP_cons]
      omega

/-! ## The turn of an append -/

section turn

variable {s : Pipeline} {i : Nat} {a : Append}

variable {outcome : Except ReplError Offset} {j : Nat} {b : Append}

theorem unresolved_finish (hj : (s.finish i outcome)[j]? = some b) (hb : b.unresolved = true) :
    i ≠ j ∧ s.appends[j]? = some b := by
  rcases (s.get_finish i outcome j b).mp hj with h | ⟨-, a, -, rfl⟩
  · exact h
  · cases hb

/-- A failure is one more; the rest is as before. -/
theorem failed_finish (hi : s.appends[i]? = some a) (ha : a.unresolved = true)
    (hj : (s.finish i outcome)[j]? = some b) :
    ∃ c, s.appends[j]? = some c ∧ (b.failed = false → c.failed = false) ∧ c.offset = b.offset := by
  rcases (s.get_finish i outcome j b).mp hj with ⟨-, h⟩ | ⟨rfl, c, hc, rfl⟩
  · exact ⟨b, h, id, rfl⟩
  · rw [hi] at hc
    cases hc
    exact ⟨a, hi, fun _ => Append.not_failed_of_unresolved ha, rfl⟩

variable {e : ReplError} {o : Offset}

theorem ok_finish_error (hj : (s.finish i (.error e))[j]? = some b) (hb : b.phase = .Done (.ok o)) :
    s.appends[j]? = some b := by
  rcases (s.get_finish i _ j b).mp hj with ⟨-, h⟩ | ⟨-, c, -, rfl⟩
  · exact h
  · cases hb

theorem ok_kept (hi : s.appends[i]? = some a) (ha : a.unresolved = true)
    (hj : s.appends[j]? = some b) (hb : b.phase = .Done (.ok o)) :
    (s.finish i outcome)[j]? = some b := by
  refine (s.get_finish i outcome j b).mpr (Or.inl ⟨?_, hj⟩)
  rintro rfl
  rw [hi] at hj
  cases hj
  unfold Append.unresolved at ha
  rw [hb] at ha
  cases ha

variable {s' : Pipeline}

theorem committed_finish {r : Bytes} (hi : s.appends[i]? = some a) (ha : a.unresolved = true)
    (happ : s'.appends = s.finish i outcome) (hseed : s'.seeded = s.seeded) (h : s.Committed o r) :
    s'.Committed o r := by
  rcases h with h | ⟨j, b, hj, hb, hr⟩
  · exact Or.inl (by rw [hseed]; exact h)
  · exact Or.inr ⟨j, b, by rw [happ]; exact ok_kept hi ha hj hb, hb, hr⟩

theorem kept_failed (h : Kept s) (hi : s.appends[i]? = some a) (ha : a.unresolved = true)
    (happ : s'.appends = s.finish i (.error e)) (hseed : s'.seeded = s.seeded)
    (hbase : s'.base = s.base) (htrunc : s'.truncates = s.truncates)
    (hcom : s'.ks.committed = s.ks.committed) (hassign : s'.ks.assigned = s.ks.assigned)
    (hfloor : ∀ o, s.ks.Floored o → s'.ks.Floored o)
    (hsub : ∀ (o : Offset) r, s'.ks.entries[o]? = some r → s.ks.entries[o]? = some r)
    (hgone : s'.ks.entries[a.offset]? = none)
    (hstays : ∀ (o : Offset) r, s.ks.entries[o]? = some r → s.ks.committed < o → o ≠ a.offset →
      ¬ s'.ks.Floored o → s'.ks.entries[o]? = some r) : Kept s' := by
  have hget : ∀ (j : Nat) b, s'.appends[j]? = some b → b.unresolved = true →
      i ≠ j ∧ s.appends[j]? = some b := by
    intro j b hj hb
    rw [happ] at hj
    exact unresolved_finish hj hb
  refine ⟨?_, ?_, ?_, ?_, ?_, ?_, ?_, ?_, ?_⟩
  · intro j b hj hb
    rw [hassign]
    exact h.staged j b (hget j b hj hb).2 hb
  · intro j b hj hb
    rw [hcom]
    exact (h.above j b (hget j b hj hb).2 hb).imp id (hfloor _)
  · intro j b o hj hb
    rw [happ] at hj
    rw [hcom]
    exact h.acked j b o (ok_finish_error hj hb) hb
  · intro j k b c hj hk hlt hb
    rw [happ] at hj hk
    obtain ⟨b', hj', hb', hob⟩ := failed_finish hi ha hj
    obtain ⟨c', hk', -, hoc⟩ := failed_finish hi ha hk
    rw [← hob, ← hoc]
    exact h.ordered j k b' c' hj' hk' hlt (hb' hb)
  · intro o r hr hle
    rw [hcom] at hle
    exact committed_finish hi ha happ hseed (h.below o r (hsub o r hr) hle)
  · intro o r hr hlt
    rw [hcom] at hlt
    obtain ⟨j, b, hj, hb, ho, hrec⟩ := h.tail o r (hsub o r hr) hlt
    refine ⟨j, b, ?_, hb, ho, hrec⟩
    rw [happ]
    refine (s.get_finish i _ j b).mpr (Or.inl ⟨?_, hj⟩)
    rintro rfl
    rw [hi] at hj
    cases hj
    rw [ho, hr] at hgone
    cases hgone
  · intro j b hj hb hnf
    obtain ⟨hne, hj'⟩ := hget j b hj hb
    have hnf' : ¬ s.ks.Floored b.offset := fun hf => hnf (hfloor _ hf)
    have hlt := (h.above j b hj' hb).resolve_right hnf'
    refine hstays _ _ (h.present j b hj' hb hnf') hlt (fun ho => ?_) hnf
    exact hne (h.unique hi hj' ha hb ho.symm)
  · intro o hlt hle
    rw [hcom] at hle
    rw [hbase] at hlt
    obtain ⟨j, b, hj, hb⟩ := h.filled o hlt hle
    exact ⟨j, b, by rw [happ]; exact ok_kept hi ha hj hb, hb⟩
  · intro u hu
    rw [htrunc] at hu
    rw [hcom]
    exact h.waiting u hu

theorem kept_committed (h : Kept s) (hi : s.appends[i]? = some a) (ha : a.unresolved = true)
    (hnext : s.ks.committed + 1 = a.offset) (happ : s'.appends = s.finish i (.ok a.offset))
    (hseed : s'.seeded = s.seeded) (hbase : s'.base = s.base)
    (htrunc : s'.truncates = s.truncates) (hcom : s'.ks.committed = a.offset)
    (hassign : s'.ks.assigned = s.ks.assigned) (hfloor : s'.ks.abort_floor = s.ks.abort_floor)
    (hentries : s'.ks.entries = s.ks.entries) : Kept s' := by
  have hget : ∀ (j : Nat) b, s'.appends[j]? = some b → b.unresolved = true →
      i ≠ j ∧ s.appends[j]? = some b := by
    intro j b hj hb
    rw [happ] at hj
    exact unresolved_finish hj hb
  have hfl : ∀ o, s'.ks.Floored o ↔ s.ks.Floored o := by
    intro o
    unfold KeyState.Floored
    rw [hfloor]
  have hself : s'.appends[i]? = some { a with phase := .Done (.ok a.offset) } := by
    rw [happ]
    exact (s.get_finish i _ i _).mpr (Or.inr ⟨rfl, a, hi, rfl⟩)
  refine ⟨?_, ?_, ?_, ?_, ?_, ?_, ?_, ?_, ?_⟩
  · intro j b hj hb
    rw [hassign]
    exact h.staged j b (hget j b hj hb).2 hb
  · intro j b hj hb
    obtain ⟨hne, hj'⟩ := hget j b hj hb
    rw [hcom, hfl]
    refine (h.above j b hj' hb).imp (fun hlt => ?_) id
    have hdiff : a.offset ≠ b.offset := fun ho => hne (h.unique hi hj' ha hb ho)
    unfold Offset at *
    omega
  · intro j b o hj hb
    rw [happ] at hj
    rw [hcom]
    rcases (s.get_finish i _ j b).mp hj with ⟨-, hj'⟩ | ⟨rfl, c, hc, rfl⟩
    · obtain ⟨ho, hle⟩ := h.acked j b o hj' hb
      exact ⟨ho, by unfold Offset at *; omega⟩
    · rw [hi] at hc
      cases hc
      cases hb
      exact ⟨rfl, Nat.le_refl _⟩
  · intro j k b c hj hk hlt hb
    rw [happ] at hj hk
    obtain ⟨b', hj', hb', hob⟩ := failed_finish hi ha hj
    obtain ⟨c', hk', -, hoc⟩ := failed_finish hi ha hk
    rw [← hob, ← hoc]
    exact h.ordered j k b' c' hj' hk' hlt (hb' hb)
  · intro o r hr hle
    rw [hentries] at hr
    rw [hcom] at hle
    by_cases hlow : o ≤ s.ks.committed
    · exact committed_finish hi ha happ hseed (h.below o r hr hlow)
    · -- The one entry that the watermark passes is that of the append.
      have ho : o = a.offset := by
        unfold Offset at *
        omega
      obtain ⟨j, b, hj, hb, hob, hrec⟩ := h.tail o r hr (Nat.lt_of_not_ge hlow)
      have hij := h.unique hi hj ha hb (ho.symm.trans hob.symm)
      subst hij
      rw [hi] at hj
      cases hj
      refine Or.inr ⟨i, _, hself, ?_, hrec⟩
      rw [ho]
  · intro o r hr hlt
    rw [hentries] at hr
    rw [hcom] at hlt
    have hlt' : s.ks.committed < o := by
      unfold Offset at *
      omega
    obtain ⟨j, b, hj, hb, ho, hrec⟩ := h.tail o r hr hlt'
    refine ⟨j, b, ?_, hb, ho, hrec⟩
    rw [happ]
    refine (s.get_finish i _ j b).mpr (Or.inl ⟨?_, hj⟩)
    rintro rfl
    rw [hi] at hj
    cases hj
    rw [ho] at hlt
    exact absurd hlt (Nat.lt_irrefl _)
  · intro j b hj hb hnf
    rw [hfl] at hnf
    rw [hentries]
    exact h.present j b (hget j b hj hb).2 hb hnf
  · intro o hlt hle
    rw [hbase] at hlt
    rw [hcom] at hle
    by_cases hlow : o ≤ s.ks.committed
    · obtain ⟨j, b, hj, hb⟩ := h.filled o hlt hlow
      exact ⟨j, b, by rw [happ]; exact ok_kept hi ha hj hb, hb⟩
    · have ho : o = a.offset := by
        unfold Offset at *
        omega
      exact ⟨i, _, hself, by rw [ho]⟩
  · intro u hu
    rw [htrunc] at hu
    have hle := h.waiting u hu
    rw [hcom]
    unfold Offset at *
    omega

end turn

theorem resolved_of_none {s : Pipeline} (h : s.appends.countP Append.unresolved = 0) {i : Nat}
    {a : Append} (hi : s.appends[i]? = some a) : a.unresolved = false := by
  rw [List.countP_eq_zero] at h
  simpa using h a (List.mem_of_getElem? hi)

theorem counts_resolved {s : Pipeline} {ks : KeyState} (hkey : s.key = some ks) (h : Kept s)
    (hp : ks.pending = s.appends.countP Append.unresolved + 1) :
    Counts { s with key := some ks.pipeline_resolved } := by
  have hks : s.ks = ks := by simp [Pipeline.ks, hkey]
  have hks' : Pipeline.ks { s with key := some ks.pipeline_resolved } = ks.pipeline_resolved := rfl
  have hpend : ks.pending - 1 = s.appends.countP Append.unresolved := by omega
  rw [← hks] at hks' hpend
  -- Either no append is left, or the floor and the staged offsets are where they were.
  have hrest : ∀ (i : Nat) a, s.appends[i]? = some a → a.unresolved = true →
      s.ks.pipeline_resolved.assigned = s.ks.assigned ∧
        s.ks.pipeline_resolved.abort_floor = s.ks.abort_floor := by
    intro i a hi ha
    rcases s.ks.pipeline_resolved_rest with ⟨hz, -⟩ | ⟨-, h1, h2⟩
    · rw [hpend] at hz
      rw [resolved_of_none hz hi] at ha
      cases ha
    · exact ⟨h1, h2⟩
  rw [← hks]
  refine ⟨⟨?_, ?_, ?_, ?_, ?_, ?_, ?_, ?_, ?_⟩, ?_, ?_, ?_⟩
  · intro i a hi ha
    rw [hks', (hrest i a hi ha).1]
    exact h.staged i a hi ha
  · intro i a hi ha
    rw [hks', KeyState.pipeline_resolved_committed]
    refine (h.above i a hi ha).imp id ?_
    unfold KeyState.Floored
    rw [(hrest i a hi ha).2]
    exact id
  · intro i a o hi ha
    rw [hks', KeyState.pipeline_resolved_committed]
    exact h.acked i a o hi ha
  · exact h.ordered
  · intro o r hr hle
    rw [hks', KeyState.pipeline_resolved_entries] at hr
    rw [hks', KeyState.pipeline_resolved_committed] at hle
    exact h.below o r hr hle
  · intro o r hr hlt
    rw [hks', KeyState.pipeline_resolved_entries] at hr
    rw [hks', KeyState.pipeline_resolved_committed] at hlt
    exact h.tail o r hr hlt
  · intro i a hi ha hnf
    rw [hks', KeyState.pipeline_resolved_entries]
    refine h.present i a hi ha (fun hf => hnf ?_)
    rw [hks']
    unfold KeyState.Floored at hf ⊢
    rw [(hrest i a hi ha).2]
    exact hf
  · intro o hlt hle
    rw [hks', KeyState.pipeline_resolved_committed] at hle
    exact h.filled o hlt hle
  · intro u hu
    rw [hks', KeyState.pipeline_resolved_committed]
    exact h.waiting u hu
  · intro hnone
    cases hnone
  · rw [hks', KeyState.pipeline_resolved_pending]
    exact hpend
  · intro hz
    rw [hks', KeyState.pipeline_resolved_pending] at hz
    rw [hks', KeyState.pipeline_resolved_committed]
    rcases s.ks.pipeline_resolved_rest with ⟨-, h1⟩ | ⟨hne, -⟩
    · exact Nat.le_of_eq h1
    · exact absurd hz hne

theorem countP_finish {s : Pipeline} {i : Nat} {a : Append} (hi : s.appends[i]? = some a)
    (ha : a.unresolved = true) (outcome : Except ReplError Offset) :
    s.appends.countP Append.unresolved = (s.finish i outcome).countP Append.unresolved + 1 := by
  have h := countP_modify Append.unresolved (fun a => { a with phase := .Done outcome })
    s.appends i a hi
  rw [ha] at h
  unfold finish
  have hdone : Append.unresolved { a with phase := .Done outcome } = false := rfl
  rw [hdone] at h
  simpa using h.symm

theorem resolve_spec {s : Pipeline} (h : Counts s) (i : Nat) :
    s.resolve i = s ∨ ∃ a ks1, s.appends[i]? = some a ∧ a.unresolved = true ∧
      ks1.pending = s.ks.pending ∧
      ((∃ met, a.phase = .Counted met ∧ (s.ks.Floored a.offset ∨ met = false) ∧
          Kept { s with key := some ks1, appends := s.finish i (.error .NoQuorum) } ∧
          ks1.Floored a.offset ∧ (∀ o, s.ks.Floored o → ks1.Floored o) ∧
          s.resolve i = { s with
            key := some ks1.pipeline_resolved, appends := s.finish i (.error .NoQuorum) }) ∨
        (a.phase = .Counted true ∧ ¬ s.ks.Floored a.offset ∧
          Kept { s with key := some ks1, appends := s.finish i (.ok a.offset) } ∧
          (∀ o, s.ks.Floored o → ks1.Floored o) ∧
          s.resolve i = { s with
            key := some ks1.pipeline_resolved, appends := s.finish i (.ok a.offset) })) := by
  rcases hi : s.appends[i]? with _ | a
  · left
    simp only [resolve, hi]
  rcases hkey : s.key with _ | ks
  · have hnil := h.absent hkey
    rw [hnil] at hi
    simp at hi
  have hks : s.ks = ks := by simp [Pipeline.ks, hkey]
  rcases hphase : a.phase with _ | ⟨acks, left⟩ | met | outcome
  · left
    simp only [resolve, hi, hphase]
  · left
    simp only [resolve, hi, hphase]
  · have ha : a.unresolved = true := by
      unfold Append.unresolved
      rw [hphase]
    rcases hr : ks.resolve a.offset met with ⟨r, ks'⟩
    have hres : s.resolve i = match r with
        | none => s
        | some outcome => { s with key := some ks', appends := s.finish i outcome } := by
      simp only [resolve, hi, hphase, hkey, hr]
      cases r <;> rfl
    have hstaged := h.staged i a hi ha
    rcases KeyState.resolve_cases hr with ⟨hf, rfl, rfl⟩ | ⟨hf, rfl, rfl, rfl⟩ |
      ⟨hf, rfl, hnext, rfl, rfl⟩ | ⟨hf, rfl, rfl, rfl⟩
    · -- A floor at or below: only the entry of the append goes.
      right
      have hsame : ∀ o, s.ks.Floored o → (ks.tail_fail a.offset).Floored o := by
        rw [hks]
        exact fun o ho => ho
      refine ⟨a, ks.tail_fail a.offset, rfl, ha, by rw [hks]; rfl, Or.inl ⟨met, hphase,
        Or.inl (by rw [hks]; exact hf), ?_, hf, hsame, hres⟩⟩
      refine kept_failed h.toKept hi ha rfl rfl rfl rfl ?_ ?_ hsame ?_ ?_ ?_
      · rw [hks]
        rfl
      · rw [hks]
        rfl
      · intro o r hget
        rw [hks]
        change (ks.tail_fail a.offset).entries[o]? = some r at hget
        rw [KeyState.get_tail_fail] at hget
        split at hget
        · cases hget
        · exact hget
      · change (ks.tail_fail a.offset).entries[a.offset]? = none
        rw [KeyState.get_tail_fail, if_pos rfl]
      · intro o r hget _ hne _
        change (ks.tail_fail a.offset).entries[o]? = some r
        rw [KeyState.get_tail_fail, if_neg (Ne.symm hne), ← hks]
        exact hget
    · -- Its acks were not enough: every staged entry from its offset on goes.
      right
      have hmore : ∀ o, s.ks.Floored o → (ks.abort_from a.offset).Floored o := by
        rw [hks]
        exact fun o ho => (ks.floored_abort_from a.offset o).mpr (Or.inl ho)
      refine ⟨a, ks.abort_from a.offset, rfl, ha, by rw [hks]; rfl, Or.inl ⟨false, hphase, Or.inr rfl,
        ?_, (ks.floored_abort_from _ _).mpr (Or.inr (Nat.le_refl _)), hmore, hres⟩⟩
      refine kept_failed h.toKept hi ha rfl rfl rfl rfl ?_ ?_ hmore ?_ ?_ ?_
      · rw [hks]
        rfl
      · rw [hks]
        rfl
      · intro o r hget
        rw [hks]
        change (ks.abort_from a.offset).entries[o]? = some r at hget
        rw [KeyState.get_abort_from] at hget
        split at hget
        · cases hget
        · exact hget
      · change (ks.abort_from a.offset).entries[a.offset]? = none
        rw [KeyState.get_abort_from]
        have habove := (h.above i a hi ha).resolve_right (by rw [hks]; exact hf)
        rw [hks] at hstaged habove
        split
        · rfl
        · rename_i hd
          rcases he : ks.entries[a.offset]? with _ | r
          · rfl
          · exact absurd ((ks.mem_doomed _ _).mpr ⟨⟨r, he⟩, habove, hstaged, Nat.le_refl _⟩) hd
      · intro o r hget _ _ hnf
        change (ks.abort_from a.offset).entries[o]? = some r
        have hlow : ¬ a.offset ≤ o := fun hle =>
          hnf ((ks.floored_abort_from a.offset o).mpr (Or.inr hle))
        rw [KeyState.get_abort_from, if_neg (fun hd => hlow ((ks.mem_doomed _ _).mp hd).2.2.2), ← hks]
        exact hget
    · right
      have hsame : ∀ o, s.ks.Floored o → KeyState.Floored { ks with committed := a.offset } o := by
        rw [hks]
        exact fun o ho => ho
      refine ⟨a, { ks with committed := a.offset }, rfl, ha, by rw [hks], Or.inr ⟨hphase,
        by rw [hks]; exact hf, ?_, hsame, hres⟩⟩
      refine kept_committed h.toKept hi ha (by rw [hks]; exact hnext) rfl rfl rfl rfl rfl ?_ ?_ ?_
      · rw [hks]
        rfl
      · rw [hks]
        rfl
      · rw [hks]
        rfl
    · left
      exact hres
  · left
    simp only [resolve, hi, hphase]

theorem counts_resolve {s : Pipeline} (h : Counts s) (i : Nat) : Counts (s.resolve i) := by
  rcases resolve_spec h i with heq | ⟨a, ks1, hi, ha, hp, hcase⟩
  · rw [heq]
    exact h
  · rcases hcase with ⟨met, -, -, hkept, -, -, heq⟩ | ⟨-, -, hkept, -, heq⟩
    · rw [heq]
      refine @counts_resolved _ ks1 rfl hkept ?_
      rw [hp, h.pending]
      exact countP_finish hi ha _
    · rw [heq]
      refine @counts_resolved _ ks1 rfl hkept ?_
      rw [hp, h.pending]
      exact countP_finish hi ha _

/-! ## The other steps -/

theorem get_snoc {α : Type} (l : List α) (x : α) (j : Nat) (b : α) :
    (l ++ [x])[j]? = some b ↔ l[j]? = some b ∨ (j = l.length ∧ b = x) := by
  rw [List.getElem?_append]
  by_cases h : j < l.length
  · simp [h, Nat.ne_of_lt h]
  · by_cases he : j = l.length
    · subst he
      simp [eq_comm]
    · have hpos : j - l.length ≠ 0 := by omega
      simp [h, he, hpos]

/-- The offset that a submit hands out is above every staged one and above the watermark. -/
theorem stage_offset (ks : KeyState) (record : Bytes) :
    ks.assigned < (ks.stage record).1 ∧ ks.committed < (ks.stage record).1 := by
  unfold KeyState.stage
  dsimp only
  split
  · unfold Offset at *
    omega
  · unfold Offset at *
    omega

theorem counts_submit {s : Pipeline} (h : Counts s) (record : Bytes) (tier : DurabilityTier) :
    Counts (s.submit_tiered record tier) := by
  obtain ⟨hassigned, hcommitted⟩ := stage_offset s.ks record
  have hks : (s.submit_tiered record tier).ks = (s.ks.stage record).2 := rfl
  have hcom : (s.submit_tiered record tier).ks.committed = s.ks.committed := rfl
  have hnew : (s.submit_tiered record tier).ks.assigned = (s.ks.stage record).1 := rfl
  have hfl : ∀ o, (s.submit_tiered record tier).ks.Floored o ↔ s.ks.Floored o := fun o => Iff.rfl
  have hent : ∀ o : Offset, (s.submit_tiered record tier).ks.entries[o]? =
      if (s.ks.stage record).1 = o then some record else s.ks.entries[o]? := by
    intro o
    rw [hks]
    exact BTreeMap.get_insert _ _ _ _
  have happ : (s.submit_tiered record tier).appends = s.appends ++
      [{ offset := (s.ks.stage record).1, seq := (s.ks.stage record).2.seq, record, tier }] := rfl
  -- No append that is staged or acked has the new offset.
  have hfresh : ∀ (i : Nat) a, s.appends[i]? = some a → a.failed = false →
      a.offset < (s.ks.stage record).1 := by
    intro i a hi ha
    by_cases hu : a.unresolved = true
    · exact Nat.lt_of_le_of_lt (h.staged i a hi hu) hassigned
    · rcases hp : a.phase with _ | ⟨acks, left⟩ | met | outcome
      · simp [Append.unresolved, hp] at hu
      · simp [Append.unresolved, hp] at hu
      · simp [Append.unresolved, hp] at hu
      · cases outcome with
        | error e => simp [Append.failed, hp] at ha
        | ok o =>
          obtain ⟨ho, hle⟩ := h.acked i a o hi hp
          rw [ho]
          exact Nat.lt_of_le_of_lt hle hcommitted
  have hkeep : ∀ o r, s.Committed o r → (s.submit_tiered record tier).Committed o r := by
    rintro o r (hs | ⟨i, a, hi, hp, hr⟩)
    · exact Or.inl hs
    · exact Or.inr ⟨i, a, by rw [happ]; exact (get_snoc _ _ _ _).mpr (Or.inl hi), hp, hr⟩
  refine ⟨⟨?_, ?_, ?_, ?_, ?_, ?_, ?_, ?_, h.waiting⟩, ?_, ?_, ?_⟩
  · intro i a hi ha
    rw [hnew]
    rw [happ, get_snoc] at hi
    rcases hi with hi | ⟨-, rfl⟩
    · exact Nat.le_of_lt (Nat.lt_of_le_of_lt (h.staged i a hi ha) hassigned)
    · exact Nat.le_refl _
  · intro i a hi ha
    rw [hcom, hfl]
    rw [happ, get_snoc] at hi
    rcases hi with hi | ⟨-, rfl⟩
    · exact h.above i a hi ha
    · exact Or.inl hcommitted
  · intro i a o hi ha
    rw [hcom]
    rw [happ, get_snoc] at hi
    rcases hi with hi | ⟨-, rfl⟩
    · exact h.acked i a o hi ha
    · cases ha
  · intro i j a b hi hj hlt ha
    rw [happ, get_snoc] at hi hj
    rcases hi with hi | ⟨rfl, rfl⟩
    · rcases hj with hj | ⟨rfl, rfl⟩
      · exact h.ordered i j a b hi hj hlt ha
      · exact hfresh i a hi ha
    · rcases hj with hj | ⟨rfl, -⟩
      · have := (List.getElem?_eq_some_iff.mp hj).1
        omega
      · exact absurd hlt (Nat.lt_irrefl _)
  · intro o r hr hle
    rw [hcom] at hle
    rw [hent] at hr
    split at hr
    · rename_i ho
      rw [← ho] at hle
      exact absurd hcommitted (Nat.not_lt.mpr hle)
    · exact hkeep o r (h.below o r hr hle)
  · intro o r hr hlt
    rw [hcom] at hlt
    rw [hent] at hr
    split at hr
    · rename_i ho
      cases hr
      exact ⟨s.appends.length, _, by rw [happ]; exact (get_snoc _ _ _ _).mpr (Or.inr ⟨rfl, rfl⟩),
        rfl, ho, rfl⟩
    · obtain ⟨i, a, hi, ha, hoa, hra⟩ := h.tail o r hr hlt
      exact ⟨i, a, by rw [happ]; exact (get_snoc _ _ _ _).mpr (Or.inl hi), ha, hoa, hra⟩
  · intro i a hi ha hnf
    rw [hent]
    rw [hfl] at hnf
    rw [happ, get_snoc] at hi
    rcases hi with hi | ⟨-, rfl⟩
    · have hlt := hfresh i a hi (Append.not_failed_of_unresolved ha)
      rw [if_neg (Nat.ne_of_gt hlt)]
      exact h.present i a hi ha hnf
    · rw [if_pos rfl]
  · intro o hlt hle
    obtain ⟨i, a, hi, ha⟩ := h.filled o hlt hle
    exact ⟨i, a, by rw [happ]; exact (get_snoc _ _ _ _).mpr (Or.inl hi), ha⟩
  · intro hnone
    cases hnone
  · have hp : (s.submit_tiered record tier).ks.pending = s.ks.pending + 1 := rfl
    rw [hp, h.pending, happ, List.countP_append]
    rfl
  · intro hz
    have hp : (s.submit_tiered record tier).ks.pending = s.ks.pending + 1 := rfl
    rw [hp] at hz
    omega

/-- What an ack leaves of an append: it changes neither its op nor whether it ended. -/
structure AckKeeps (a b : Append) : Prop where
  offset : b.offset = a.offset
  seq : b.seq = a.seq
  record : b.record = a.record
  tier : b.tier = a.tier
  unresolved : b.unresolved = a.unresolved
  ended : a.unresolved = false → b = a

theorem AckKeeps.refl (a : Append) : AckKeeps a a := ⟨rfl, rfl, rfl, rfl, rfl, fun _ => rfl⟩

theorem get_modify {l : List Append} {i j : Nat} {f : Append → Append} {b : Append}
    (hj : (l.modify i f)[j]? = some b) :
    ∃ a, l[j]? = some a ∧ (i = j ∧ b = f a ∨ i ≠ j ∧ b = a) := by
  rw [List.getElem?_modify] at hj
  obtain ⟨a, ha, rfl⟩ := Option.map_eq_some_iff.mp hj
  refine ⟨a, ha, ?_⟩
  by_cases hij : i = j
  · simp [hij]
  · simp [hij]

theorem get_acked {s : Pipeline} {i : Nat} {f : Append → Append} (hf : ∀ a, AckKeeps a (f a))
    {j : Nat} {b : Append} (hj : (s.appends.modify i f)[j]? = some b) :
    ∃ a, s.appends[j]? = some a ∧ AckKeeps a b := by
  obtain ⟨a, ha, ⟨-, rfl⟩ | ⟨-, rfl⟩⟩ := get_modify hj
  · exact ⟨a, ha, hf a⟩
  · exact ⟨b, ha, AckKeeps.refl b⟩

theorem counts_acks {s : Pipeline} (h : Counts s) (i : Nat) (f : Append → Append)
    (hf : ∀ a, AckKeeps a (f a)) : Counts { s with appends := s.appends.modify i f } := by
  have hput : ∀ (j : Nat) a, s.appends[j]? = some a →
      ∃ b, (s.appends.modify i f)[j]? = some b ∧ AckKeeps a b := by
    intro j a ha
    refine ⟨if i = j then f a else a, ?_, ?_⟩
    · rw [List.getElem?_modify, ha]
      rfl
    · split
      · exact hf a
      · exact AckKeeps.refl a
  have hdone : ∀ {a : Append} {o : Offset}, a.phase = .Done (.ok o) → a.unresolved = false := by
    intro a o ha
    simp [Append.unresolved, ha]
  have hok : ∀ (j : Nat) b o, (s.appends.modify i f)[j]? = some b → b.phase = .Done (.ok o) →
      s.appends[j]? = some b := by
    intro j b o hj hb
    obtain ⟨a, ha, hk⟩ := get_acked hf hj
    have hu := hk.unresolved
    rw [hdone hb] at hu
    rw [hk.ended hu.symm]
    exact ha
  have hok' : ∀ (j : Nat) a o, s.appends[j]? = some a → a.phase = .Done (.ok o) →
      (s.appends.modify i f)[j]? = some a := by
    intro j a o hj ha
    obtain ⟨b, hb, hk⟩ := hput j a hj
    rw [hk.ended (hdone ha)] at hb
    exact hb
  have hcommit : ∀ o r, s.Committed o r →
      Committed { s with appends := s.appends.modify i f } o r := by
    rintro o r (hs | ⟨j, a, hj, hp, hr⟩)
    · exact Or.inl hs
    · exact Or.inr ⟨j, a, hok' j a o hj hp, hp, hr⟩
  have hfailed : ∀ {a b : Append}, AckKeeps a b → b.failed = false → a.failed = false := by
    intro a b hk hb
    by_cases ha : a.unresolved = true
    · exact Append.not_failed_of_unresolved ha
    · rw [hk.ended (by simpa using ha)] at hb
      exact hb
  refine ⟨⟨?_, ?_, ?_, ?_, ?_, ?_, ?_, ?_, h.waiting⟩, ?_, ?_, h.drained⟩
  · intro j b hj hb
    obtain ⟨a, ha, hk⟩ := get_acked hf hj
    rw [hk.offset]
    exact h.staged j a ha (hk.unresolved ▸ hb)
  · intro j b hj hb
    obtain ⟨a, ha, hk⟩ := get_acked hf hj
    rw [hk.offset]
    exact h.above j a ha (hk.unresolved ▸ hb)
  · exact fun j b o hj hb => h.acked j b o (hok j b o hj hb) hb
  · intro j k b c hj hk hlt hb
    obtain ⟨a, ha, hka⟩ := get_acked hf hj
    obtain ⟨d, hd, hkd⟩ := get_acked hf hk
    rw [hka.offset, hkd.offset]
    exact h.ordered j k a d ha hd hlt (hfailed hka hb)
  · exact fun o r hr hle => hcommit o r (h.below o r hr hle)
  · intro o r hr hlt
    obtain ⟨j, a, hj, ha, ho, hrec⟩ := h.tail o r hr hlt
    obtain ⟨b, hb, hk⟩ := hput j a hj
    exact ⟨j, b, hb, hk.unresolved.trans ha, hk.offset.trans ho, hk.record.trans hrec⟩
  · intro j b hj hb hnf
    obtain ⟨a, ha, hk⟩ := get_acked hf hj
    rw [hk.offset, hk.record]
    exact h.present j a ha (hk.unresolved ▸ hb) (hk.offset ▸ hnf)
  · intro o hlt hle
    obtain ⟨j, a, hj, ha⟩ := h.filled o hlt hle
    exact ⟨j, a, hok' j a o hj ha, ha⟩
  · intro hnone
    change s.appends.modify i f = []
    rw [h.absent hnone]
    simp
  · change s.ks.pending = (s.appends.modify i f).countP Append.unresolved
    rw [h.pending]
    rcases hi : s.appends[i]? with _ | a
    · rw [List.modify_eq_self]
      exact List.getElem?_eq_none_iff.mp hi
    · have := countP_modify Append.unresolved f s.appends i a hi
      rw [(hf a).unresolved] at this
      omega

theorem counts_drop {s : Pipeline} (h : Counts s) {ks : KeyState} (hkey : s.key = some ks)
    {up_to : Offset} (hup : up_to ≤ ks.committed) :
    Counts { s with key := some (ks.drop_to up_to) } := by
  have hks : s.ks = ks := by simp [Pipeline.ks, hkey]
  have hent : ∀ o : Offset, (ks.drop_to up_to).entries[o]? =
      if o ≤ up_to then none else ks.entries[o]? := BTreeMap.get_dropThrough _ _
  obtain ⟨⟨h1, h2, h3, h4, h5, h6, h7, h8, h9⟩, -, h11, h12⟩ := h
  rw [hks] at h1 h2 h3 h5 h6 h7 h8 h9 h11 h12
  refine ⟨⟨h1, h2, h3, h4, ?_, ?_, ?_, h8, h9⟩, ?_, h11, h12⟩
  · intro o r hr hle
    change (ks.drop_to up_to).entries[o]? = some r at hr
    rw [hent] at hr
    split at hr
    · cases hr
    · exact h5 o r hr hle
  · intro o r hr hlt
    change (ks.drop_to up_to).entries[o]? = some r at hr
    rw [hent] at hr
    split at hr
    · cases hr
    · exact h6 o r hr hlt
  · intro i a hi ha hnf
    change (ks.drop_to up_to).entries[a.offset]? = some a.record
    rw [hent]
    have hlt := (h2 i a hi ha).resolve_right hnf
    have hno : ¬ a.offset ≤ up_to := by
      unfold Offset at *
      omega
    rw [if_neg hno]
    exact h7 i a hi ha hnf
  · intro hnone
    cases hnone

theorem seed_fold (es : List EpochEntry) (ks : KeyState) :
    let ks' := es.foldl KeyState.seed_entry ks
    ks.committed ≤ ks'.committed ∧ ks'.assigned = ks.assigned ∧ ks'.pending = ks.pending ∧
      ks'.abort_floor = ks.abort_floor ∧
      ∀ (o : Offset) r, ks'.entries[o]? = some r → ks.entries[o]? = some r ∨
        (o ≤ ks'.committed ∧ ∃ e ∈ es, e.offset = o ∧ e.record = r) := by
  induction es generalizing ks with
  | nil => exact ⟨Nat.le_refl _, rfl, rfl, rfl, fun o r h => Or.inl h⟩
  | cons e es ih =>
    obtain ⟨h1, h2, h3, h4, h5⟩ := ih (ks.seed_entry e)
    refine ⟨Nat.le_trans (Nat.le_max_left _ _) h1, h2, h3, h4, fun o r hr => ?_⟩
    rcases h5 o r hr with hold | ⟨hle, x, hx, hxo, hxr⟩
    · unfold KeyState.seed_entry at hold
      dsimp only at hold
      rw [BTreeMap.get_insert] at hold
      split at hold
      · rename_i ho
        cases hold
        subst ho
        exact Or.inr ⟨Nat.le_trans (Nat.le_max_right _ _) h1, e, List.mem_cons_self, rfl, rfl⟩
      · exact Or.inl hold
    · exact Or.inr ⟨hle, x, List.mem_cons_of_mem e hx, hxo, hxr⟩

theorem counts_seed {s : Pipeline} (h : Counts s) (es : List EpochEntry) (floor : Offset)
    (seq_floor : Nat) : Counts (s.seed_key es floor seq_floor) := by
  unfold seed_key
  split
  · exact h
  split
  · obtain ⟨⟨h1, h2, h3, h4, h5, h6, h7, h8, h9⟩, -, h11, h12⟩ := h
    exact ⟨⟨h1, h2, h3, h4, h5, h6, h7, h8, h9⟩, nofun, h11, h12⟩
  · rename_i hfresh
    simp only [Bool.or_eq_true, Bool.not_eq_true', decide_eq_true_eq, not_or, Bool.not_eq_false,
      ne_eq, not_not] at hfresh
    obtain ⟨hempty, hzero⟩ := hfresh
    have hnone := (BTreeMap.isEmpty_iff _).mp hempty
    obtain ⟨-, f2, f3, f4, f5⟩ := seed_fold es s.ks
    -- Nothing is staged that could still commit.
    have hbound : ∀ (i : Nat) a, s.appends[i]? = some a → a.unresolved = true →
        s.ks.Floored a.offset := by
      intro i a hi ha
      by_contra hnf
      have hp := h.present i a hi ha hnf
      rw [hnone] at hp
      cases hp
    have hfl : ∀ o, (s.ks.seed_entries es floor seq_floor).Floored o ↔ s.ks.Floored o := by
      intro o
      unfold KeyState.Floored
      change (∃ fl, (es.foldl _ s.ks).abort_floor = some fl ∧ fl ≤ o) ↔ _
      rw [f4]
    have hent : ∀ (o : Offset) r, (s.ks.seed_entries es floor seq_floor).entries[o]? = some r →
        o ≤ (s.ks.seed_entries es floor seq_floor).committed ∧
          ∃ e ∈ es, e.offset = o ∧ e.record = r := by
      intro o r hr
      rcases f5 o r hr with hold | ⟨hle, he⟩
      · rw [hnone] at hold
        cases hold
      · exact ⟨Nat.le_trans hle (Nat.le_max_left _ _), he⟩
    refine ⟨⟨?_, ?_, ?_, h.ordered, ?_, ?_, ?_, ?_, ?_⟩, ?_, ?_, ?_⟩
    · intro i a hi ha
      change a.offset ≤ (es.foldl _ s.ks).assigned
      rw [f2]
      exact h.staged i a hi ha
    · exact fun i a hi ha => Or.inr ((hfl _).mpr (hbound i a hi ha))
    · intro i a o hi ha
      obtain ⟨ho, hle⟩ := h.acked i a o hi ha
      rw [hzero] at hle
      exact ⟨ho, Nat.le_trans hle (Nat.zero_le _)⟩
    · intro o r hr _
      obtain ⟨-, e, he, rfl, rfl⟩ := hent o r hr
      exact Or.inl (List.mem_map.mpr ⟨e, he, rfl⟩)
    · intro o r hr hlt
      exact absurd hlt (Nat.not_lt.mpr (hent o r hr).1)
    · exact fun i a hi ha hnf => absurd ((hfl _).mpr (hbound i a hi ha)) hnf
    · intro o hlt hle
      exact absurd hlt (Nat.not_lt.mpr hle)
    · intro u hu
      have hle := h.waiting u hu
      rw [hzero] at hle
      exact Nat.le_trans hle (Nat.zero_le _)
    · intro hn
      cases hn
    · change (es.foldl _ s.ks).pending = _
      rw [f3]
      exact h.pending
    · intro hz
      change (es.foldl _ s.ks).assigned ≤ _
      change (es.foldl _ s.ks).pending = 0 at hz
      rw [f3] at hz
      rw [f2]
      have hle := h.drained hz
      rw [hzero] at hle
      exact Nat.le_trans hle (Nat.zero_le _)

end Pipeline

end mqtt_cluster.cluster_log
