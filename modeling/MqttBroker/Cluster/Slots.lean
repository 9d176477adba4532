-- A slot is one offset of one key. An op touches the slots of its key only: an
-- append puts a record into one, a truncate or a remove empties those it drops.
-- Memory and disk are compared slot by slot, and low-water by low-water.
import MqttBroker.Cluster.Persist

namespace mqtt_cluster.cluster_log

open placement

/-! ## What an op does to a slot -/

/-- What the op leaves in the slot; nothing when it does not touch the slot. -/
def slotEvent (key : String) (offset : Offset) : Epoch × ReplOp → Option (Option Stored)
  | (e, .Append k o q r) => if k = key ∧ o = offset then some (some (tag e q, r)) else none
  | (_, .Truncate k u) => if k = key ∧ offset ≤ u then some none else none
  | (_, .Remove k) => if k = key then some none else none

def slotStep (key : String) (offset : Offset) (v : Option Stored) (p : Epoch × ReplOp) :
    Option Stored :=
  (slotEvent key offset p).getD v

/-- The low-water of the key after the op; a truncate goes on top of `base` when there is
none. -/
def lowStep (base : Offset) (key : String) (v : Option Offset) : Epoch × ReplOp → Option Offset
  | (_, .Append _ _ _ _) => v
  | (_, .Truncate k u) => if k = key then some (max (v.getD base) u) else v
  | (_, .Remove k) => if k = key then none else v

/-! ## In memory -/

namespace ReplicaState

variable (s : ReplicaState) (ops : List (Epoch × ReplOp))

theorem held_apply_in_memory (p : Epoch × ReplOp) (key : String) (offset : Offset) :
    held (s.apply_in_memory p.1 p.2).logs key offset =
      slotStep key offset (held s.logs key offset) p := by
  obtain ⟨e, op⟩ := p
  cases op with
  | Append k o q r =>
    simp only [apply_in_memory, held_put, slotStep, slotEvent]
    split <;> rfl
  | Truncate k u =>
    simp only [apply_in_memory, slotStep, slotEvent, held]
    rcases hl : s.logs[k]? with _ | log
    · by_cases hk : k = key
      · subst hk
        simp only [logOf, hl, Option.getD_none, BTreeMap.get_empty]
        split <;> rfl
      · simp [hk]
    · simp only [logOf_insert]
      by_cases hk : k = key
      · subst hk
        simp only [if_true, true_and, logOf, hl, Option.getD_some]
        rw [BTreeMap.get_dropThrough]
        split <;> rfl
      · simp [hk]
  | Remove k =>
    simp only [apply_in_memory, held_erase, slotStep, slotEvent]
    split <;> rfl

theorem truncated_apply_in_memory (p : Epoch × ReplOp) (key : String) :
    (s.apply_in_memory p.1 p.2).truncated[key]? = lowStep 0 key s.truncated[key]? p := by
  obtain ⟨e, op⟩ := p
  cases op with
  | Append k o q r => rfl
  | Truncate k u =>
    simp only [apply_in_memory, lowStep, BTreeMap.get_insert, watermark]
    by_cases hk : k = key
    · subst hk
      rfl
    · simp [hk]
  | Remove k =>
    simp only [apply_in_memory, lowStep, BTreeMap.get_erase]

theorem apply_in_memory_frame (e : Epoch) (op : ReplOp) :
    (s.apply_in_memory e op).fences = s.fences ∧
      (s.apply_in_memory e op).persisted_fences = s.persisted_fences ∧
      (s.apply_in_memory e op).dbs = s.dbs := by
  cases op <;> exact ⟨rfl, rfl, rfl⟩

/-- The ops applied in memory one after another. -/
def apply_all (s : ReplicaState) (ops : List (Epoch × ReplOp)) : ReplicaState :=
  ops.foldl (fun s p => s.apply_in_memory p.1 p.2) s

theorem held_apply_all (key : String) (offset : Offset) :
    held (s.apply_all ops).logs key offset =
      ops.foldl (slotStep key offset) (held s.logs key offset) := by
  induction ops generalizing s with
  | nil => rfl
  | cons p ops ih =>
    rw [List.foldl_cons, ← held_apply_in_memory]
    exact ih _

theorem truncated_apply_all (key : String) :
    (s.apply_all ops).truncated[key]? = ops.foldl (lowStep 0 key) s.truncated[key]? := by
  induction ops generalizing s with
  | nil => rfl
  | cons p ops ih =>
    rw [List.foldl_cons, ← truncated_apply_in_memory]
    exact ih _

theorem apply_all_frame :
    (s.apply_all ops).fences = s.fences ∧
      (s.apply_all ops).persisted_fences = s.persisted_fences ∧
      (s.apply_all ops).dbs = s.dbs := by
  induction ops generalizing s with
  | nil => exact ⟨rfl, rfl, rfl⟩
  | cons p ops ih =>
    obtain ⟨h1, h2, h3⟩ := ih (s.apply_in_memory p.1 p.2)
    obtain ⟨f1, f2, f3⟩ := s.apply_in_memory_frame p.1 p.2
    exact ⟨h1.trans f1, h2.trans f2, h3.trans f3⟩

end ReplicaState

/-! ## On disk -/

section drive

variable (plan : ShardPlan) (key : String) (offset : Offset)

/-- The slot as it will be once the pending truncate of its key is flushed. -/
def slotView (d : Driving Loaded) : Option Stored :=
  if d.pending[key]?.any (fun u => decide (offset ≤ u)) then none
  else held d.sink.logs key offset

theorem held_flush (d : Driving Loaded) (k : String) (u : Offset) :
    held (flush plan d k u).sink.logs key offset =
      if k = key ∧ offset ≤ u then none else held d.sink.logs key offset :=
  held_cut d.sink.logs k key u offset

variable {d : Driving Loaded}

theorem slotView_other {d' : Driving Loaded} (hp : d'.pending[key]? = d.pending[key]?)
    (hs : held d'.sink.logs key offset = held d.sink.logs key offset) :
    slotView key offset d' = slotView key offset d := by
  rw [slotView, slotView, hp, hs]

theorem slotView_drive_op (d : Driving Loaded) (p : Epoch × ReplOp) :
    slotView key offset (drive_op plan d p) = slotStep key offset (slotView key offset d) p := by
  obtain ⟨e, op⟩ := p
  cases op with
  | Append k o q r =>
    by_cases hk : k = key
    · subst hk
      rcases hp : d.pending[k]? with _ | u
      · simp only [drive_op, slotView, slotStep, slotEvent, hp, PlanSink.append, Option.any_none,
          Bool.false_eq_true, if_false, held_put, true_and]
        split <;> rfl
      · simp only [drive_op, slotView, slotStep, slotEvent, hp, PlanSink.append, flush,
          BTreeMap.get_erase, if_true, Option.any_none, Bool.false_eq_true, if_false, held_put,
          true_and, Option.any_some, decide_eq_true_eq]
        by_cases ho : o = offset
        · simp [ho]
        · simp only [ho, if_false, Option.getD_none]
          exact (held_cut _ _ _ _ _).trans (by simp)
    · have hstep : slotStep key offset (slotView key offset d) (e, .Append k o q r) =
          slotView key offset d := by simp [slotStep, slotEvent, hk]
      rw [hstep]
      simp only [drive_op]
      rcases hp : d.pending[k]? with _ | u
      · exact slotView_other key offset rfl ((held_put _ _ _ _ _ _).trans (by simp [hk]))
      · refine slotView_other key offset ((BTreeMap.get_erase _ _ _).trans (by simp [hk])) ?_
        refine (held_put _ _ _ _ _ _).trans ?_
        simp only [hk, false_and, if_false]
        exact (held_flush plan key offset _ k u).trans (by simp [hk])
  | Truncate k u =>
    by_cases hk : k = key
    · subst hk
      simp only [drive_op, slotView, slotStep, slotEvent, true_and, BTreeMap.get_insert, if_true,
        Option.any_some, decide_eq_true_eq]
      rcases hp : d.pending[k]? with _ | w
      · simp only [Option.getD_none, max_self, Option.any_none, Bool.false_eq_true, if_false]
        split <;> rfl
      · simp only [Option.getD_some, le_max_iff, Option.any_some, decide_eq_true_eq]
        by_cases h1 : offset ≤ w <;> by_cases h2 : offset ≤ u <;> simp [h1, h2]
    · have hstep : slotStep key offset (slotView key offset d) (e, .Truncate k u) =
          slotView key offset d := by simp [slotStep, slotEvent, hk]
      rw [hstep]
      exact slotView_other key offset ((BTreeMap.get_insert _ _ _ _).trans (by simp [hk])) rfl
  | Remove k =>
    by_cases hk : k = key
    · subst hk
      simp only [drive_op, slotView, slotStep, slotEvent, BTreeMap.get_erase, if_true,
        Option.any_none, Bool.false_eq_true, if_false, Option.getD_some]
      exact (held_erase _ _ _ _).trans (by simp)
    · have hstep : slotStep key offset (slotView key offset d) (e, .Remove k) =
          slotView key offset d := by simp [slotStep, slotEvent, hk]
      rw [hstep]
      exact slotView_other key offset ((BTreeMap.get_erase _ _ _).trans (by simp [hk]))
        ((held_erase _ _ _ _).trans (by simp [hk]))

theorem held_drive_rest (d : Driving Loaded) :
    held (drive_rest plan d).sink.logs key offset = slotView key offset d := by
  have h : ∀ (ps : List (String × Offset)) (d : Driving Loaded),
      held (ps.foldl (fun d p => flush plan d p.1 p.2) d).sink.logs key offset =
        if ∃ p ∈ ps, p.1 = key ∧ offset ≤ p.2 then none else held d.sink.logs key offset := by
    intro ps
    induction ps with
    | nil => simp
    | cons p ps ih =>
      intro d
      rw [List.foldl_cons, ih, held_flush]
      by_cases h1 : p.1 = key ∧ offset ≤ p.2
      · simp [h1]
      · simp only [List.mem_cons, exists_eq_or_imp, h1, false_or, if_false]
  rw [drive_rest, h, slotView]
  congr 1
  rw [eq_iff_iff, Option.any_eq_true]
  constructor
  · rintro ⟨⟨k, u⟩, hp, rfl, hu⟩
    exact ⟨u, (BTreeMap.mem_toList _ _ _).mp hp, by simpa using hu⟩
  · rintro ⟨u, hp, hu⟩
    exact ⟨(key, u), (BTreeMap.mem_toList _ _ _).mpr hp, rfl, by simpa using hu⟩

theorem drive_fences_eq (l : Loaded) :
    drive_fences plan l = { l with fences := l.fences.extend plan.advanced } := by
  have h : ∀ (gs : List (GroupId × Epoch)) (l : Loaded),
      gs.foldl (fun l ge => PlanSink.fence ge.1 ge.2 l) l =
        { l with fences := gs.foldl (fun (m : Fences) ge => m.insert ge.1 ge.2) l.fences } := by
    intro gs
    induction gs with
    | nil => exact fun l => rfl
    | cons ge gs ih => exact fun l => ih _
  rw [drive_fences, h]
  congr 1
  ext g e
  have hd : plan.advanced.toList.Pairwise (fun a b => a.1 ≠ b.1) :=
    plan.advanced.toList_sorted.imp (fun h => ne_of_lt h)
  rw [BTreeMap.get_foldl_insert _ hd, BTreeMap.get_extend, Option.or_eq_some_iff,
    BTreeMap.mem_toList]
  simp only [BTreeMap.mem_toList, Option.eq_none_iff_forall_not_mem, Option.mem_def]

theorem held_drive_plan (l : Loaded) :
    held (drive_plan plan l).logs key offset =
      plan.ops.foldl (slotStep key offset) (held l.logs key offset) := by
  have h : ∀ (ops : List (Epoch × ReplOp)) (d : Driving Loaded),
      slotView key offset (ops.foldl (drive_op plan) d) =
        ops.foldl (slotStep key offset) (slotView key offset d) := by
    intro ops
    induction ops with
    | nil => exact fun d => rfl
    | cons p ops ih =>
      intro d
      rw [List.foldl_cons, ih, slotView_drive_op, List.foldl_cons]
  rw [drive_plan, held_drive_rest, drive_ops, h, drive_fences_eq]
  rfl

/-! ## The low-water on disk -/

/-- The low-water as it will be once the pending truncate of the key is flushed. -/
def lowView (d : Driving Loaded) : Option Offset :=
  match d.pending[key]? with
  | some u => some (max (flush_base plan d.wm key) u)
  | none => d.sink.truncated[key]?

/-- What the drive knows of the low-water of the key: the one it wrote last, else the one
before the plan or none after a remove. -/
structure LowKnown (before : Option Offset) (d : Driving Loaded) : Prop where
  written : ∀ w, d.wm[key]? = some w → d.sink.truncated[key]? = some w
  unwritten : d.wm[key]? = none →
    d.sink.truncated[key]? = none ∨ d.sink.truncated[key]? = before

/-- The plan has the low-water of the key as it was, if it truncates the key. -/
def LowPlanned (before : Option Offset) : Prop :=
  ∀ x, before = some x → plan.ops.any (ReplicaState.truncates key) = true →
    plan.watermarks[key]?.getD 0 = x

variable {plan key}

variable {before : Option Offset}

theorem flush_base_eq (hd : LowKnown key before d) (hw : LowPlanned plan key before)
    (ht : plan.ops.any (ReplicaState.truncates key) = true) :
    flush_base plan d.wm key = d.sink.truncated[key]?.getD (plan.watermarks[key]?.getD 0) := by
  unfold flush_base
  rcases h : d.wm[key]? with _ | w
  · rw [Option.none_or]
    rcases hd.unwritten h with hn | hb
    · rw [hn]
      rfl
    · rw [hb]
      rcases hx : before with _ | x
      · rfl
      · exact hw x hx ht
  · rw [hd.written w h]
    rfl

theorem lowKnown_flush (hd : LowKnown key before d) (k : String) (u : Offset) :
    LowKnown key before (flush plan d k u) := by
  by_cases hk : k = key
  · subst hk
    refine ⟨fun w hw => ?_, fun hn => ?_⟩
    · simp only [flush, BTreeMap.get_insert, if_true] at hw
      simp only [flush, PlanSink.truncate, BTreeMap.get_insert, if_true]
      exact hw
    · simp [flush] at hn
  · refine ⟨fun w hw => ?_, fun hn => ?_⟩
    · simp only [flush, BTreeMap.get_insert, hk, if_false] at hw
      simp only [flush, PlanSink.truncate, BTreeMap.get_insert, hk, if_false]
      exact hd.written w hw
    · simp only [flush, BTreeMap.get_insert, hk, if_false] at hn
      simp only [flush, PlanSink.truncate, BTreeMap.get_insert, hk, if_false]
      exact hd.unwritten hn

theorem lowKnown_drive_op (hd : LowKnown key before d) (p : Epoch × ReplOp) :
    LowKnown key before (drive_op plan d p) := by
  obtain ⟨e, op⟩ := p
  cases op with
  | Append k o q r =>
    simp only [drive_op]
    rcases hp : d.pending[k]? with _ | u
    · exact ⟨hd.written, hd.unwritten⟩
    · have hd' : LowKnown key before { d with pending := d.pending.erase k } :=
        ⟨hd.written, hd.unwritten⟩
      have hf : LowKnown key before (flush plan { d with pending := d.pending.erase k } k u) :=
        lowKnown_flush hd' k u
      exact ⟨hf.written, hf.unwritten⟩
  | Truncate k u => exact ⟨hd.written, hd.unwritten⟩
  | Remove k =>
    by_cases hk : k = key
    · subst hk
      refine ⟨fun w hw => ?_, fun _ => Or.inl ?_⟩
      · simp [drive_op] at hw
      · simp [drive_op, PlanSink.remove]
    · refine ⟨fun w hw => ?_, fun hn => ?_⟩
      · simp only [drive_op, BTreeMap.get_erase, hk, if_false] at hw
        simp only [drive_op, PlanSink.remove, BTreeMap.get_erase, hk, if_false]
        exact hd.written w hw
      · simp only [drive_op, BTreeMap.get_erase, hk, if_false] at hn
        simp only [drive_op, PlanSink.remove, BTreeMap.get_erase, hk, if_false]
        exact hd.unwritten hn

/-- A turn of the drive does to the low-water what the op does, on top of the one that the
plan has. -/
theorem lowView_drive_op (hd : LowKnown key before d) (hw : LowPlanned plan key before)
    {p : Epoch × ReplOp} (hp : p ∈ plan.ops) :
    lowView plan key (drive_op plan d p) =
      lowStep (plan.watermarks[key]?.getD 0) key (lowView plan key d) p := by
  obtain ⟨e, op⟩ := p
  cases op with
  | Append k o q r =>
    simp only [lowStep]
    by_cases hk : k = key
    · subst hk
      rcases hu : d.pending[k]? with _ | u
      · simp only [lowView, drive_op, hu]
        rfl
      · simp [lowView, drive_op, hu, flush, PlanSink.append, PlanSink.truncate]
    · rcases hu : d.pending[k]? with _ | u
      · simp only [lowView, drive_op, hu]
        rfl
      · simp only [lowView, drive_op, hu, flush, PlanSink.append, PlanSink.truncate,
          BTreeMap.get_insert, BTreeMap.get_erase, hk, if_false, flush_base]
  | Truncate k u =>
    by_cases hk : k = key
    · subst hk
      have ht : plan.ops.any (ReplicaState.truncates k) = true :=
        List.any_eq_true.mpr ⟨_, hp, by simp⟩
      have hb := flush_base_eq hd hw ht
      simp only [lowView, lowStep, drive_op, BTreeMap.get_insert, if_true]
      rcases hu : d.pending[k]? with _ | w
      · simp [hb]
      · simp [max_assoc]
    · simp only [lowView, lowStep, drive_op, BTreeMap.get_insert, hk, if_false]
  | Remove k =>
    by_cases hk : k = key
    · subst hk
      simp [lowView, lowStep, drive_op, PlanSink.remove]
    · simp only [lowView, lowStep, drive_op, PlanSink.remove, BTreeMap.get_erase, hk, if_false,
        flush_base]

theorem truncated_foldl_flush_other (ps : List (String × Offset)) (d : Driving Loaded)
    (hps : ∀ u, (key, u) ∉ ps) :
    (ps.foldl (fun d p => flush plan d p.1 p.2) d).sink.truncated[key]? =
      d.sink.truncated[key]? := by
  induction ps generalizing d with
  | nil => rfl
  | cons p ps ih =>
    have hk : p.1 ≠ key := fun he => hps p.2 (by rw [← he]; exact List.mem_cons_self)
    rw [List.foldl_cons, ih _ (fun u hu => hps u (List.mem_cons_of_mem p hu))]
    simp only [flush, PlanSink.truncate, BTreeMap.get_insert, hk, if_false]

theorem truncated_drive_rest (d : Driving Loaded) :
    (drive_rest plan d).sink.truncated[key]? = lowView plan key d := by
  have h : ∀ (ps : List (String × Offset)) (d : Driving Loaded) (u : Offset),
      ps.Pairwise (fun a b => a.1 ≠ b.1) → (key, u) ∈ ps →
      (ps.foldl (fun d p => flush plan d p.1 p.2) d).sink.truncated[key]? =
        some (max (flush_base plan d.wm key) u) := by
    intro ps
    induction ps with
    | nil => exact fun d u _ hu => by simp at hu
    | cons p ps ih =>
      intro d u hd hu
      rw [List.pairwise_cons] at hd
      rw [List.foldl_cons]
      rcases List.mem_cons.mp hu with rfl | hu
      · rw [truncated_foldl_flush_other ps _ (fun w hw => hd.1 _ hw rfl)]
        simp [flush, PlanSink.truncate]
      · have hk : p.1 ≠ key := hd.1 _ hu
        rw [ih _ u hd.2 hu]
        simp only [flush, flush_base, BTreeMap.get_insert, hk, if_false]
  unfold drive_rest lowView
  rcases hp : d.pending[key]? with _ | u
  · refine truncated_foldl_flush_other _ d (fun u hu => ?_)
    rw [BTreeMap.mem_toList, hp] at hu
    cases hu
  · exact h _ d u (d.pending.toList_sorted.imp (fun h => ne_of_lt h))
      ((BTreeMap.mem_toList _ _ _).mpr hp)

theorem truncated_drive_plan (l : Loaded) (hw : LowPlanned plan key l.truncated[key]?) :
    (drive_plan plan l).truncated[key]? =
      plan.ops.foldl (lowStep (plan.watermarks[key]?.getD 0) key) l.truncated[key]? := by
  have h : ∀ (ops : List (Epoch × ReplOp)) (d : Driving Loaded), (∀ p ∈ ops, p ∈ plan.ops) →
      LowKnown key l.truncated[key]? d →
      lowView plan key (ops.foldl (drive_op plan) d) =
        ops.foldl (lowStep (plan.watermarks[key]?.getD 0) key) (lowView plan key d) := by
    intro ops
    induction ops with
    | nil => exact fun d _ _ => rfl
    | cons p ops ih =>
      intro d hin hd
      rw [List.foldl_cons, ih _ (fun q hq => hin q (List.mem_cons_of_mem p hq))
        (lowKnown_drive_op hd p), lowView_drive_op hd hw (hin p List.mem_cons_self),
        List.foldl_cons]
  rw [drive_plan, truncated_drive_rest, drive_ops, drive_fences_eq, h _ _ (fun p hp => hp)]
  · simp only [lowView, BTreeMap.get_empty]
  · exact ⟨fun w hw => by simp at hw, fun _ => Or.inr rfl⟩

variable (plan)

theorem fences_drive_plan (l : Loaded) :
    (drive_plan plan l).fences = l.fences.extend plan.advanced := by
  have hk : OpsKeep (fun l' : Loaded => l'.fences = l.fences.extend plan.advanced)
      (fun _ => True) plan :=
    ⟨fun _ _ _ _ _ _ _ h => h, fun _ _ _ _ _ _ _ h => h, fun _ _ _ h => h⟩
  exact drive_rest_keeps hk (boundsPlan_true plan) (by rw [drive_fences_eq])

end drive

end mqtt_cluster.cluster_log
