-- The batch of one shard's writer decides, commits and installs in three steps,
-- and whole calls run between them. A call between them that moves a fence of
-- the batch is undone when the batch installs; with no such call no fence, in
-- memory or on disk, ever goes back.
import MqttBroker.Cluster.DiskMirror

namespace mqtt_cluster.cluster_log

open placement

namespace ReplicaState

/-! ## The steps -/

/-- A batch in flight, and whether its commit is done. -/
structure Flight extends InFlight where
  committed : Bool := false

/-- The state behind the lock, and the batch of the writer that is in flight. -/
structure Race where
  state : ReplicaState
  flight : Option Flight := none

/-- `io` says of each shard whether its commit succeeds. -/
inductive Action
  | Whole (io : Nat → Bool) (c : Call)
  | Decide (shard : Nat) (batch : List (Epoch × ReplOp))
  | Commit (io : Nat → Bool)
  | Install

/-- One step: the ops that a call which starts with it accepts, and the race after it. A step
that the phase of the batch does not allow changes nothing. -/
def act (r : Race) : Action → List (Epoch × ReplOp) × Race
  | .Whole io c =>
    let (accepted, s) := r.state.call io c
    (accepted, { r with state := s })
  | .Decide shard batch =>
    match r.flight with
    | some _ => ([], r)
    | none =>
      let f := r.state.decide_shard shard batch
      (acceptedOps batch f.decision.accepted, { r with flight := some { f with } })
  | .Commit io =>
    match r.flight with
    | none => ([], r)
    | some f =>
      if f.committed || f.plan.ops.isEmpty then ([], r)
      else
        let (ok, s) := r.state.commit_flight io f.toInFlight
        ([], { state := s, flight := if ok then some { f with committed := true } else none })
  | .Install =>
    match r.flight with
    | none => ([], r)
    | some f =>
      if f.plan.ops.isEmpty then ([], { state := r.state.install_fences f.toInFlight })
      else if f.committed then ([], { state := r.state.install_flight f.toInFlight })
      else ([], r)

def race (r : Race) (actions : List Action) : Race := actions.foldl (fun r a => (act r a).2) r

/-- The ops that the steps accept, one after another. -/
def accepts (r : Race) : List Action → List (Epoch × ReplOp)
  | [] => []
  | a :: actions => (act r a).1 ++ accepts (act r a).2 actions

def ActionRouted (n : Nat) : Action → Prop
  | .Whole _ c => CallRouted n c
  | .Decide shard batch => ∀ p ∈ batch, shard_of_group (op_group p.2) n = shard
  | _ => True

/-! ## The steps that disturb no batch -/

/-- The fence of a group as the state believes it to be on disk. -/
def persistedFence (s : ReplicaState) (g : GroupId) : Epoch := s.persisted_fences[g]?.getD 0

/-- The fence of a group is at `x` already, in memory and on disk. -/
def HasFence (s : ReplicaState) (g : GroupId) (x : Epoch) : Prop :=
  x ≤ s.fence_of g ∧ ∃ on_disk, s.persisted_fences[g]? = some on_disk ∧ x ≤ on_disk

/-- A call in the middle of a batch leaves the fence of a group that the batch moves where it
is, or moves it where the batch does; before the commit of the batch it may also move it less
far. -/
def Undisturbed (s : ReplicaState) (f : Flight) (c : Call) : Prop :=
  ∀ (g : GroupId) (top : Epoch), f.decision.advanced[g]? = some top →
    ∀ x, s.callMoves c g = some x →
      x = top ∨ (f.committed = false ∧ x ≤ top) ∨ s.HasFence g x

/-- The commits of the step all succeed or all fail, and a whole call changes nothing, as one
whose persist fails, or disturbs no batch in flight. -/
def Quiet (r : Race) : Action → Prop
  | .Whole io c => (∀ i, io i = io 0) ∧
    ((r.state.call io c).2 = r.state ∨ ∀ f, r.flight = some f → r.state.Undisturbed f c)
  | _ => True

/-- Every step of the race, in the state it finds, is quiet. -/
def RaceQuiet (r : Race) : List Action → Prop
  | [] => True
  | a :: actions => Quiet r a ∧ RaceQuiet (act r a).2 actions

/-! ## What each step keeps -/

/-- What holds while a batch is in flight: its plan is part of what it decided and of its own
shard, and the fences in memory are not past it. -/
structure FlightKept (s : ReplicaState) (f : Flight) : Prop where
  planned : ∀ (g : GroupId) e, f.plan.advanced[g]? = some e →
    f.decision.advanced[g]? = some e ∧ shard_of_group g s.dbs.length = f.shard
  behind : ∀ (g : GroupId) top, f.decision.advanced[g]? = some top → s.fence_of g ≤ top
  stored : f.plan.ops.isEmpty = false → f.shard < s.dbs.length ∧ f.db = true
  committed : f.committed = true → f.plan.ops.isEmpty = false

/-- The fences that are on disk and not yet in the mirror: those of a batch that committed. -/
def ahead (r : Race) : Fences :=
  match r.flight with
  | some f => if f.committed then f.plan.advanced else ∅
  | none => ∅

/-- The disk is the mirror and the fences ahead of it; the mirror is behind memory. -/
structure RaceKept (r : Race) : Prop where
  stored : 0 < r.state.dbs.length
  disk : ∀ g : GroupId, (homeLoad r.state.dbs g).fences[g]? =
    (ahead r)[g]?.or r.state.persisted_fences[g]?
  led : ∀ g, r.state.persistedFence g ≤ r.state.fence_of g
  flight : ∀ f, r.flight = some f → FlightKept r.state f

/-- No fence of memory, of the mirror or of the disk goes back. -/
structure NoneBack (s s' : ReplicaState) : Prop where
  memory : ∀ g, s.fence_of g ≤ s'.fence_of g
  mirror : ∀ g, s.persistedFence g ≤ s'.persistedFence g
  disk : ∀ g, s.diskFence g ≤ s'.diskFence g

theorem NoneBack.refl (s : ReplicaState) : NoneBack s s :=
  ⟨fun _ => Nat.le_refl _, fun _ => Nat.le_refl _, fun _ => Nat.le_refl _⟩

variable {s s' : ReplicaState}

theorem NoneBack.trans {s'' : ReplicaState} (h : NoneBack s s') (h' : NoneBack s' s'') :
    NoneBack s s'' :=
  ⟨fun g => Nat.le_trans (h.memory g) (h'.memory g),
    fun g => Nat.le_trans (h.mirror g) (h'.mirror g), fun g => Nat.le_trans (h.disk g) (h'.disk g)⟩

variable {advanced : Fences}

theorem fence_of_extend (h : s'.fences = s.fences.extend advanced) (g : GroupId) :
    s'.fence_of g = advanced[g]?.getD (s.fence_of g) := by
  rw [fence_of, h, BTreeMap.get_extend]
  rcases advanced[g]? with _ | e <;> rfl

theorem persistedFence_extend (h : s'.persisted_fences = s.persisted_fences.extend advanced)
    (g : GroupId) : s'.persistedFence g = advanced[g]?.getD (s.persistedFence g) := by
  rw [persistedFence, h, BTreeMap.get_extend]
  rcases advanced[g]? with _ | e <;> rfl

/-- A fence that has to be stored is one that moves, above what is stored. -/
theorem get_unpersisted {g : GroupId} {x : Epoch} (h : (s.unpersisted advanced)[g]? = some x) :
    advanced[g]? = some x ∧ ∀ on_disk, s.persisted_fences[g]? = some on_disk → on_disk < x := by
  rw [unpersisted, BTreeMap.get_filter, Option.filter_eq_some_iff] at h
  refine ⟨h.1, fun on_disk hd => ?_⟩
  have hlt := h.2
  rw [hd] at hlt
  simpa using hlt

variable {r : Race}

theorem diskFence_kept (hk : RaceKept r) (g : GroupId) :
    r.state.diskFence g = (ahead r)[g]?.getD (r.state.persistedFence g) := by
  rw [diskFence, hk.disk]
  rcases (ahead r)[g]? with _ | e <;> rfl

theorem whole_keeps (hk : RaceKept r) {passed ops : List (Epoch × ReplOp)}
    (ho : Outcome r.state s' advanced passed ops)
    (hq : ∀ f, r.flight = some f → ∀ (g : GroupId) top, f.decision.advanced[g]? = some top →
      ∀ x, advanced[g]? = some x →
        x = top ∨ (f.committed = false ∧ x ≤ top) ∨ r.state.HasFence g x) :
    RaceKept { r with state := s' } ∧ NoneBack r.state s' := by
  -- The fences in memory stay behind the batch.
  have hbehind : ∀ f, r.flight = some f → s'.dbs.length = r.state.dbs.length →
      s'.fences = r.state.fences.extend advanced → FlightKept s' f := by
    intro f hf hlen hfences
    have hkept := hk.flight f hf
    refine ⟨fun g e he => ?_, fun g top ht => ?_, fun he => ?_, hkept.committed⟩
    · rw [hlen]
      exact hkept.planned g e he
    · rw [fence_of_extend hfences]
      rcases ha : advanced[g]? with _ | x
      · exact hkept.behind g top ht
      · rw [Option.getD_some]
        rcases hq f hf g top ht x ha with rfl | ⟨-, hle⟩ | ⟨hle, -⟩
        · exact Nat.le_refl _
        · exact hle
        · exact Nat.le_trans hle (hkept.behind g top ht)
    · rw [hlen]
      exact hkept.stored he
  cases ho with
  | unchanged => exact ⟨hk, NoneBack.refl _⟩
  | learned advanced passed hadv =>
    have hmem : ∀ g, r.state.fence_of g ≤
        fence_of { r.state with fences := r.state.fences.extend advanced } g := by
      intro g
      have hfence := @fence_of_extend r.state
        { r.state with fences := r.state.fences.extend advanced } advanced rfl g
      rw [hfence]
      rcases ha : advanced[g]? with _ | x
      · exact Nat.le_refl _
      · exact hadv.up g x ha
    refine ⟨⟨hk.stored, hk.disk, fun g => Nat.le_trans (hk.led g) (hmem g),
      fun f hf => hbehind f hf rfl rfl⟩, hmem, fun g => Nat.le_refl _, fun g => Nat.le_refl _⟩
  | moved s' advanced passed ops hadv hm =>
    have hmem : ∀ g, r.state.fence_of g ≤ s'.fence_of g := by
      intro g
      rw [fence_of_extend hm.fences]
      rcases ha : advanced[g]? with _ | x
      · exact Nat.le_refl _
      · exact hadv.up g x ha
    -- Where the batch is ahead on disk and the call stores a fence, both are the same.
    have hsame : ∀ (g : GroupId) top x, (ahead r)[g]? = some top →
        (r.state.unpersisted advanced)[g]? = some x → x = top := by
      intro g top x ht hx
      obtain ⟨ha, habove⟩ := get_unpersisted hx
      unfold ahead at ht
      rcases hf : r.flight with _ | f
      · simp [hf] at ht
      · simp only [hf] at ht
        split at ht
        · rename_i hc
          have hdecided := ((hk.flight f hf).planned g top ht).1
          rcases hq f hf g top hdecided x ha with rfl | ⟨hnc, -⟩ | ⟨-, on_disk, hd, hle⟩
          · rfl
          · rw [hc] at hnc
            cases hnc
          · exact absurd (habove on_disk hd) (Nat.not_lt.mpr hle)
        · simp at ht
    have hahead : ahead { r with state := s' } = ahead r := rfl
    have hdisk : ∀ g : GroupId, (homeLoad s'.dbs g).fences[g]? =
        (ahead r)[g]?.or s'.persisted_fences[g]? := by
      intro g
      rw [fences_moved hm hk.stored, hk.disk, hm.persisted, BTreeMap.get_extend]
      rcases ht : (ahead r)[g]? with _ | top
      · rfl
      · rcases hx : (r.state.unpersisted advanced)[g]? with _ | x
        · rfl
        · rw [hsame g top x ht hx]
    have hled : ∀ g, s'.persistedFence g ≤ s'.fence_of g := by
      intro g
      rw [persistedFence_extend hm.persisted]
      rcases hx : (r.state.unpersisted advanced)[g]? with _ | x
      · exact Nat.le_trans (hk.led g) (hmem g)
      · rw [fence_of_extend hm.fences, (get_unpersisted hx).1]
        exact Nat.le_refl _
    have hmirror : ∀ g, r.state.persistedFence g ≤ s'.persistedFence g := by
      intro g
      rw [persistedFence_extend hm.persisted]
      rcases hx : (r.state.unpersisted advanced)[g]? with _ | x
      · exact Nat.le_refl _
      · exact Nat.le_trans (hk.led g) (hadv.up g x (get_unpersisted hx).1)
    have hkept : RaceKept { r with state := s' } :=
      ⟨by rw [hm.length]; exact hk.stored, hdisk, hled, fun f hf => hbehind f hf hm.length hm.fences⟩
    refine ⟨hkept, hmem, hmirror, fun g => ?_⟩
    rw [diskFence_kept hk, diskFence_kept hkept, hahead]
    rcases (ahead r)[g]? with _ | top
    · exact hmirror g
    · exact Nat.le_refl _

theorem decide_keeps (hk : RaceKept r) {shard : Nat} {batch : List (Epoch × ReplOp)}
    (hr : ∀ p ∈ batch, shard_of_group (op_group p.2) r.state.dbs.length = shard)
    (hn : r.flight = none) :
    RaceKept { r with flight := some { r.state.decide_shard shard batch with } } := by
  have hidle : ahead r = ∅ := by simp [ahead, hn]
  refine ⟨hk.stored, fun g => ?_, hk.led, fun f hf => ?_⟩
  · have hnow : ahead { r with flight := some { r.state.decide_shard shard batch with } } = ∅ := rfl
    rw [hnow, ← hidle]
    exact hk.disk g
  · cases hf
    refine ⟨fun g e he => ?_, (r.state.advance_batch batch).up, fun he => ?_, by simp⟩
    · exact r.state.unpersisted_routed hr he
    · exact r.state.decide_shard_stored hk.stored hr (Bool.eq_false_iff.mp he)

theorem fences_modify (s : ReplicaState) (shard : Nat) (plan : ShardPlan)
    (hne : 0 < s.dbs.length)
    (hplan : ∀ (g : GroupId) e, plan.advanced[g]? = some e → shard_of_group g s.dbs.length = shard)
    (g : GroupId) :
    (homeLoad (s.dbs.modify shard (commit_shard · plan)) g).fences[g]? =
      plan.advanced[g]?.or (homeLoad s.dbs g).fences[g]? := by
  unfold homeLoad
  rw [List.length_modify, List.getElem?_modify]
  have hlt := shard_of_group_lt g hne
  rw [List.getElem?_eq_getElem hlt]
  by_cases hg : shard = shard_of_group g s.dbs.length
  · simp only [hg, if_true, Option.map_eq_map, Option.map_some, Option.getD_some]
    rw [load_commit_shard, fences_drive_plan, BTreeMap.get_extend]
  · have hnone : plan.advanced[g]? = none := by
      rcases ha : plan.advanced[g]? with _ | e
      · rfl
      · exact absurd (hplan g e ha).symm hg
    simp [hg, hnone]

variable {f : Flight}

/-- The commit of a batch puts the disk ahead of the mirror, and not behind memory. -/
theorem commit_keeps (hk : RaceKept r) (hf : r.flight = some f) (hc : f.committed = false)
    (he : f.plan.ops.isEmpty = false)
    (hdbs : s'.dbs = r.state.dbs.modify f.shard (commit_shard · f.plan))
    (hmem : s'.fences = r.state.fences) (hmirror : s'.persisted_fences = r.state.persisted_fences) :
    RaceKept { state := s', flight := some { f with committed := true } } ∧ NoneBack r.state s' := by
  have hkept := hk.flight f hf
  have hidle : ahead r = ∅ := by simp [ahead, hf, hc]
  have hlen : s'.dbs.length = r.state.dbs.length := by rw [hdbs, List.length_modify]
  have hfence : ∀ g, s'.fence_of g = r.state.fence_of g := fun g => by rw [fence_of, hmem, fence_of]
  have hstored : ∀ g, s'.persistedFence g = r.state.persistedFence g := fun g => by
    rw [persistedFence, hmirror, persistedFence]
  have hmod : ∀ g : GroupId, (homeLoad s'.dbs g).fences[g]? =
      f.plan.advanced[g]?.or (homeLoad r.state.dbs g).fences[g]? := by
    rw [hdbs]
    exact r.state.fences_modify f.shard f.plan hk.stored (fun g e h => (hkept.planned g e h).2)
  refine ⟨⟨by rw [hlen]; exact hk.stored, fun g => ?_, fun g => ?_, fun f' hf' => ?_⟩,
    fun g => Nat.le_of_eq (hfence g).symm, fun g => Nat.le_of_eq (hstored g).symm, fun g => ?_⟩
  · change (homeLoad s'.dbs g).fences[g]? = f.plan.advanced[g]?.or s'.persisted_fences[g]?
    rw [hmod, hk.disk, hidle, hmirror]
    simp
  · change s'.persistedFence g ≤ s'.fence_of g
    rw [hfence, hstored]
    exact hk.led g
  · cases hf'
    refine ⟨fun g e h => ?_, fun g top ht => ?_, fun _ => ?_, fun _ => he⟩
    · rw [hlen]
      exact hkept.planned g e h
    · rw [hfence]
      exact hkept.behind g top ht
    · rw [hlen]
      exact hkept.stored he
  · rw [diskFence, diskFence, hmod]
    rcases ha : f.plan.advanced[g]? with _ | top
    · exact Nat.le_refl _
    · have hdisk : r.state.diskFence g = r.state.persistedFence g := by
        rw [diskFence_kept hk, hidle]
        simp
      calc r.state.diskFence g = r.state.persistedFence g := hdisk
        _ ≤ r.state.fence_of g := hk.led g
        _ ≤ top := hkept.behind g top (hkept.planned g top ha).1

/-- The second phase of a batch commits it, or fails and leaves what there was. -/
theorem commit_flight_keeps (hk : RaceKept r) (hf : r.flight = some f) (hc : f.committed = false)
    (he : f.plan.ops.isEmpty = false) (io : Nat → Bool) {ok : Bool} {s' : ReplicaState}
    (h : r.state.commit_flight io f.toInFlight = (ok, s')) :
    RaceKept { state := s', flight := if ok then some { f with committed := true } else none } ∧
      NoneBack r.state s' ∧ s'.dbs.length = r.state.dbs.length := by
  obtain ⟨-, hdb⟩ := (hk.flight f hf).stored he
  unfold commit_flight at h
  rw [if_pos hdb] at h
  split at h
  · cases h
    exact and_assoc.mp ⟨commit_keeps hk hf hc he rfl rfl rfl, List.length_modify ..⟩
  · cases h
    have hidle : ahead r = ∅ := by simp [ahead, hf, hc]
    refine ⟨⟨hk.stored, fun g => ?_, hk.led, by simp⟩, NoneBack.refl _, rfl⟩
    have hdisk := hk.disk g
    rw [hidle] at hdisk
    exact hdisk

theorem apply_accepted_frame (s : ReplicaState) (batch : List (Epoch × ReplOp)) (d : Decision) :
    (s.apply_accepted batch d).fences = s.fences ∧
      (s.apply_accepted batch d).persisted_fences = s.persisted_fences ∧
      (s.apply_accepted batch d).dbs = s.dbs := by
  unfold apply_accepted
  generalize batch.zip (d.accepted.zip d.stale) = xs
  induction xs generalizing s with
  | nil => exact ⟨rfl, rfl, rfl⟩
  | cons x xs ih =>
    rw [List.foldl_cons]
    split
    · obtain ⟨h1, h2, h3⟩ := ih (s.apply_in_memory x.1.1 x.1.2)
      obtain ⟨f1, f2, f3⟩ := s.apply_in_memory_frame x.1.1 x.1.2
      exact ⟨h1.trans f1, h2.trans f2, h3.trans f3⟩
    · exact ih s

theorem install_flight_frame (s : ReplicaState) {f : InFlight} (hdb : f.db = true) :
    (s.install_flight f).fences = s.fences.extend f.decision.advanced ∧
      (s.install_flight f).persisted_fences = s.persisted_fences.extend f.plan.advanced ∧
      (s.install_flight f).dbs = s.dbs := by
  unfold install_flight
  rw [if_pos hdb]
  exact apply_accepted_frame _ f.batch f.decision

theorem installed_ge (hkept : FlightKept s f)
    (h : s'.fences = s.fences.extend f.decision.advanced) (g : GroupId) :
    s.fence_of g ≤ s'.fence_of g := by
  rw [fence_of_extend h]
  rcases ha : f.decision.advanced[g]? with _ | top
  · exact Nat.le_refl _
  · exact hkept.behind g top ha

theorem install_keeps (hk : RaceKept r) (hf : r.flight = some f) (hc : f.committed = true) :
    RaceKept { state := r.state.install_flight f.toInFlight } ∧
      NoneBack r.state (r.state.install_flight f.toInFlight) := by
  have hkept := hk.flight f hf
  have hahead : ahead r = f.plan.advanced := by simp [ahead, hf, hc]
  obtain ⟨-, hdb⟩ := hkept.stored (hkept.committed hc)
  obtain ⟨h1, h2, hdbs⟩ := r.state.install_flight_frame hdb
  have hmem := installed_ge hkept h1
  have hmirror : ∀ g, r.state.persistedFence g ≤
      (r.state.install_flight f.toInFlight).persistedFence g := by
    intro g
    rw [persistedFence_extend h2]
    rcases ha : f.plan.advanced[g]? with _ | top
    · exact Nat.le_refl _
    · exact Nat.le_trans (hk.led g) (hkept.behind g top (hkept.planned g top ha).1)
  have hled : ∀ g, (r.state.install_flight f.toInFlight).persistedFence g ≤
      (r.state.install_flight f.toInFlight).fence_of g := by
    intro g
    rw [persistedFence_extend h2]
    rcases ha : f.plan.advanced[g]? with _ | top
    · exact Nat.le_trans (hk.led g) (hmem g)
    · rw [fence_of_extend h1, (hkept.planned g top ha).1]
      exact Nat.le_refl _
  refine ⟨⟨by rw [hdbs]; exact hk.stored, fun g => ?_, hled, by simp⟩, hmem, hmirror, fun g => ?_⟩
  · have hnone : ahead { state := r.state.install_flight f.toInFlight } = ∅ := rfl
    rw [hdbs, hk.disk, hahead, hnone, h2, BTreeMap.get_extend]
    simp
  · rw [diskFence, diskFence, hdbs]

theorem install_fences_keeps (hk : RaceKept r) (hf : r.flight = some f)
    (he : f.plan.ops.isEmpty = true) :
    RaceKept { state := r.state.install_fences f.toInFlight } ∧
      NoneBack r.state (r.state.install_fences f.toInFlight) := by
  have hkept := hk.flight f hf
  have hc : f.committed = false := by
    rcases hc : f.committed with _ | _
    · rfl
    · rw [hkept.committed hc] at he
      cases he
  have hidle : ahead r = ∅ := by simp [ahead, hf, hc]
  have hmem : ∀ g, r.state.fence_of g ≤ (r.state.install_fences f.toInFlight).fence_of g :=
    installed_ge hkept rfl
  refine ⟨⟨hk.stored, fun g => ?_, fun g => Nat.le_trans (hk.led g) (hmem g), by simp⟩, hmem,
    fun g => Nat.le_refl _, fun g => Nat.le_refl _⟩
  have hdisk := hk.disk g
  rw [hidle] at hdisk
  exact hdisk

/-! ## Races -/

theorem act_keeps (hk : RaceKept r) (a : Action) (hr : ActionRouted r.state.dbs.length a)
    (hq : Quiet r a) :
    RaceKept (act r a).2 ∧ NoneBack r.state (act r a).2.state ∧
      (∀ p ∈ (act r a).1, r.state.fence_of (op_group p.2) ≤ p.1) ∧
      (act r a).2.state.dbs.length = r.state.dbs.length := by
  cases a with
  | Whole io c =>
    obtain ⟨hio, hcalm⟩ := hq
    have hconst : io = fun _ => io 0 := funext hio
    obtain ⟨advanced, ops, hmoves, -, ho⟩ := r.state.call_outcome (io 0) c hk.stored hr
    rw [← hconst] at ho
    rcases hcalm with hsame | hcalm
    · have hr' : { r with state := (r.state.call io c).2 } = r := by rw [hsame]
      change RaceKept { r with state := (r.state.call io c).2 } ∧
        NoneBack r.state (r.state.call io c).2 ∧ _
      rw [hr', hsame]
      exact ⟨hk, NoneBack.refl _, (outcome_above ho).1, outcome_length ho⟩
    · obtain ⟨h1, h2⟩ := whole_keeps hk ho
        (fun f hf g top ht x hx => hcalm f hf g top ht x (hmoves g x hx))
      exact ⟨h1, h2, (outcome_above ho).1, outcome_length ho⟩
  | Decide shard batch =>
    rcases hf : r.flight with _ | f
    · simp only [act, hf]
      refine ⟨decide_keeps hk hr hf, NoneBack.refl _, fun p hp => ?_, trivial⟩
      change p ∈ acceptedOps batch (r.state.decide_batch batch).accepted at hp
      rw [(r.state.decide_batch_spec batch).1, acceptedOps_verdicts] at hp
      exact (r.state.advance_batch batch).above p hp
    · simp only [act, hf]
      exact ⟨hk, NoneBack.refl _, by simp, trivial⟩
  | Commit io =>
    rcases hf : r.flight with _ | f
    · simp only [act, hf]
      exact ⟨hk, NoneBack.refl _, by simp, trivial⟩
    · simp only [act, hf]
      split
      · exact ⟨hk, NoneBack.refl _, by simp, rfl⟩
      · rename_i hphase
        simp only [Bool.or_eq_true, not_or, Bool.not_eq_true] at hphase
        obtain ⟨h1, h2, h3⟩ := commit_flight_keeps hk hf hphase.1 hphase.2 io rfl
        exact ⟨h1, h2, by simp, h3⟩
  | Install =>
    rcases hf : r.flight with _ | f
    · simp only [act, hf]
      exact ⟨hk, NoneBack.refl _, by simp, trivial⟩
    · simp only [act, hf]
      split
      · rename_i he
        obtain ⟨h1, h2⟩ := install_fences_keeps hk hf he
        exact ⟨h1, h2, by simp, rfl⟩
      · split
        · rename_i hc
          obtain ⟨h1, h2⟩ := install_keeps hk hf hc
          refine ⟨h1, h2, by simp, ?_⟩
          exact congrArg List.length (apply_accepted_frame _ f.batch f.decision).2.2
        · exact ⟨hk, NoneBack.refl _, by simp, rfl⟩

theorem race_keeps (hk : RaceKept r) (actions : List Action)
    (hr : ∀ a ∈ actions, ActionRouted r.state.dbs.length a) (hq : RaceQuiet r actions) :
    RaceKept (race r actions) ∧ NoneBack r.state (race r actions).state ∧
      (race r actions).state.dbs.length = r.state.dbs.length ∧
      ∀ p ∈ accepts r actions, r.state.fence_of (op_group p.2) ≤ p.1 := by
  induction actions generalizing r with
  | nil => exact ⟨hk, NoneBack.refl _, rfl, by simp [accepts]⟩
  | cons a actions ih =>
    obtain ⟨h1, h2, h3, h4⟩ := act_keeps hk a (hr a List.mem_cons_self) hq.1
    obtain ⟨i1, i2, i3, i4⟩ := ih h1
      (fun b hb => by rw [h4]; exact hr b (List.mem_cons_of_mem a hb)) hq.2
    refine ⟨i1, h2.trans i2, i3.trans h4, fun p hp => ?_⟩
    rcases List.mem_append.mp hp with hp | hp
    · exact h3 p hp
    · exact Nat.le_trans (h2.memory _) (i4 p hp)

theorem raceKept_start {dbs : List Shard} (hne : dbs ≠ []) (hrouted : Routed dbs) :
    RaceKept { state := reopen dbs } := by
  obtain ⟨h1, h2, -, -⟩ := reopen_home hrouted
  have hdbs : (reopen dbs).dbs = dbs := (reopen_fields dbs).2.2.2.2
  refine ⟨?_, fun g => ?_, fun g => ?_, by simp⟩
  · rw [hdbs]
    exact List.length_pos_iff.mpr hne
  · have hnone : ahead { state := reopen dbs } = ∅ := rfl
    rw [hnone, hdbs, h2]
    simp
  · change (reopen dbs).persistedFence g ≤ (reopen dbs).fence_of g
    rw [persistedFence, fence_of, h1, h2]

theorem raise_fences_ge (io : Nat → Bool) (s : ReplicaState) (floor : Epoch)
    (h : (s.raise_fences io floor).1 = true) (g : GroupId) (hg : g < NUM_GROUPS) :
    floor ≤ (s.raise_fences io floor).2.fence_of g := by
  have hget : ∀ gs : List GroupId, (gs.foldl (fun (m : Fences) g => m.insert g floor) ∅)[g]? =
      if g ∈ gs then some floor else none := by
    intro gs
    induction gs using List.reverseRecOn with
    | nil => simp
    | append_singleton gs a ih =>
      rw [List.foldl_append, List.foldl_cons, List.foldl_nil, BTreeMap.get_insert, ih]
      by_cases ha : a = g
      · simp [ha]
      · simp [ha, Ne.symm ha]
  have hraised := hget ((List.range NUM_GROUPS).filter (fun g => s.fence_of g < floor))
  simp only [List.mem_filter, List.mem_range, hg, true_and, decide_eq_true_eq] at hraised
  unfold raise_fences at h ⊢
  simp only at h ⊢
  split at h
  · rename_i he
    rw [if_pos he]
    rw [(BTreeMap.isEmpty_iff _).mp he] at hraised
    by_cases hlt : s.fence_of g < floor
    · simp [hlt] at hraised
    · exact Nat.le_of_not_gt hlt
  · rename_i he
    rw [if_neg he]
    split at h
    · rename_i hok
      rw [if_pos hok]
      simp only
      rw [fence_of_extend rfl, hraised]
      by_cases hlt : s.fence_of g < floor
      · rw [if_pos hlt]
        exact Nat.le_refl _
      · rw [if_neg hlt]
        exact Nat.le_of_not_gt hlt
    · cases h

theorem race_append (r : Race) (xs ys : List Action) :
    race r (xs ++ ys) = race (race r xs) ys := List.foldl_append

theorem raceQuiet_append {xs ys : List Action} :
    RaceQuiet r (xs ++ ys) ↔ RaceQuiet r xs ∧ RaceQuiet (race r xs) ys := by
  induction xs generalizing r with
  | nil => simp [RaceQuiet, race]
  | cons a xs ih =>
    rw [List.cons_append, RaceQuiet, ih, RaceQuiet, and_assoc]
    rfl

/-- From a store at rest, over every interleaving of the phases of a shard's writer with whole
calls that disturb no batch, no fence goes back; and after `raise_fences` stored a floor, no
call accepts an op below it. -/
theorem no_fence_goes_back (dbs : List Shard) (hne : dbs ≠ []) (hrouted : Routed dbs)
    (before after : List Action)
    (hr : ∀ a ∈ before ++ after, ActionRouted dbs.length a)
    (hq : RaceQuiet { state := reopen dbs } (before ++ after)) :
    NoneBack (race { state := reopen dbs } before).state
        (race { state := reopen dbs } (before ++ after)).state ∧
      ∀ (io : Nat → Bool) (floor : Epoch) (later : List Action),
        after = .Whole io (.RaiseFences floor) :: later →
        ((race { state := reopen dbs } before).state.raise_fences io floor).1 = true →
        ∀ p ∈ accepts (race { state := reopen dbs } (before ++ [.Whole io (.RaiseFences floor)]))
          later, floor ≤ p.1 := by
  have hdbs : (reopen dbs).dbs = dbs := (reopen_fields dbs).2.2.2.2
  obtain ⟨hq1, hq2⟩ := raceQuiet_append.mp hq
  obtain ⟨h1, -, h3, -⟩ := race_keeps (raceKept_start hne hrouted) before
    (fun a ha => by rw [hdbs]; exact hr a (List.mem_append_left _ ha)) hq1
  have hlen : (race { state := reopen dbs } before).state.dbs.length = dbs.length := by
    rw [h3, hdbs]
  have hr2 : ∀ a ∈ after,
      ActionRouted (race { state := reopen dbs } before).state.dbs.length a := fun a ha => by
    rw [hlen]
    exact hr a (List.mem_append_right _ ha)
  refine ⟨?_, fun io floor later hafter hok p hp => ?_⟩
  · rw [race_append]
    exact (race_keeps h1 after hr2 hq2).2.1
  · subst hafter
    -- The raise is itself a quiet step; the ops that follow are above the fences it left.
    obtain ⟨k1, -, -, k4⟩ := act_keeps h1 _ (hr2 _ List.mem_cons_self) hq2.1
    rw [race_append] at hp
    have habove := (race_keeps k1 later
      (fun a ha => by rw [k4]; exact hr2 a (List.mem_cons_of_mem _ ha)) hq2.2).2.2.2 p hp
    exact Nat.le_trans (raise_fences_ge io _ floor hok _ (op_group_lt p.2)) habove

/-- The race up to a raise that finds a batch of an older epoch in flight. -/
def raisedInFlight : Race :=
  race { state := reopen [.Redb {}] } [.Decide 0 [(6, .Append "q/a" 1 1 [1])],
    .Whole (fun _ => true) (.RaiseFences 10)]

def batchInstalled : Race := race raisedInFlight [.Commit (fun _ => true), .Install]

/-- The raise returned true, then the batch puts both fences back, and an op below the floor is
accepted. -/
theorem a_batch_puts_raised_fences_back :
    ((race { state := reopen [.Redb {}] } [.Decide 0 [(6, .Append "q/a" 1 1 [1])]]).state.raise_fences
        (fun _ => true) 10).1 = true ∧
      ¬ NoneBack raisedInFlight.state batchInstalled.state ∧
      raisedInFlight.state.diskFence (group_of_key "q/a") = 10 ∧
      batchInstalled.state.diskFence (group_of_key "q/a") = 6 ∧
      accepts batchInstalled [.Whole (fun _ => true) (.Apply 7 (.Append "q/a" 2 2 [2]))] =
        [(7, .Append "q/a" 2 2 [2])] := by
  refine ⟨by decide +kernel, fun h => ?_, by decide +kernel, by decide +kernel, by decide +kernel⟩
  exact absurd (h.memory (group_of_key "q/a")) (by decide +kernel)

/-- A batch, with a call of its own epoch in the middle. -/
def calmBatch : List Action :=
  [.Decide 0 [(6, .Append "q/a" 1 1 [1])],
    .Whole (fun _ => true) (.Apply 6 (.Append "q/a" 2 2 [2])), .Commit (fun _ => true), .Install]

/-- A raise that finds no batch in flight, and an op above its floor. -/
def raiseAndApply : List Action :=
  [.Whole (fun _ => true) (.RaiseFences 10),
    .Whole (fun _ => true) (.Apply 12 (.Append "q/a" 3 1 [3]))]

theorem calmBatch_quiet :
    RaceQuiet { state := reopen [.Redb {}] } (calmBatch ++ raiseAndApply) := by
  have hmoves : (established ∅ ((reopen [.Redb {}]).passed [(6, .Append "q/a" 2 2 [2])]))[
      group_of_key "q/a"]? = some 6 := by decide +kernel
  have hpassed : (reopen [.Redb {}]).passed [(6, .Append "q/a" 1 1 [1])] =
      [(6, .Append "q/a" 1 1 [1])] := by decide +kernel
  refine raceQuiet_append.mpr ⟨⟨trivial,
    ⟨fun _ => rfl, .inr fun f hf g top ht x hx => ?_⟩, trivial, trivial, trivial⟩,
    ⟨fun _ => rfl, .inr fun f hf => ?_⟩, ⟨fun _ => rfl, .inr fun f hf => ?_⟩, trivial⟩
  · -- The batch moves the fence of one group, and the call moves it to the same epoch.
    cases hf
    change ((reopen [.Redb {}]).decide_batch [(6, .Append "q/a" 1 1 [1])]).advanced[g]? = _ at ht
    rw [(decide_batch_spec _ _).2.2, hpassed] at ht
    change ((∅ : Fences).insert (group_of_key "q/a") 6)[g]? = some top at ht
    rw [BTreeMap.get_insert] at ht
    split at ht
    · rename_i hg
      subst hg
      cases ht
      exact Or.inl (Option.some.inj (hx.symm.trans hmoves))
    · simp at ht
  · have hnone : (race { state := reopen [.Redb {}] } calmBatch).flight.isNone = true := by
      decide +kernel
    rw [hf] at hnone
    cases hnone
  · have hnone : (act (race { state := reopen [.Redb {}] } calmBatch)
        (.Whole (fun _ => true) (.RaiseFences 10))).2.flight.isNone = true := by
      decide +kernel
    rw [hf] at hnone
    cases hnone

theorem no_fence_goes_back_after_a_calm_batch :
    NoneBack (race { state := reopen [.Redb {}] } calmBatch).state
        (race { state := reopen [.Redb {}] } (calmBatch ++ raiseAndApply)).state ∧
      ((race { state := reopen [.Redb {}] } calmBatch).state.raise_fences (fun _ => true) 10).1 = true ∧
      ∀ p ∈ accepts (race { state := reopen [.Redb {}] }
          (calmBatch ++ [.Whole (fun _ => true) (.RaiseFences 10)]))
        [.Whole (fun _ => true) (.Apply 12 (.Append "q/a" 3 1 [3]))], 10 ≤ p.1 := by
  have hempty : EmptyStore [.Redb {}] :=
    ⟨by simp, by simp [Shard.load, load, load_logs]⟩
  have hrouted := (fencesKept_start hempty).routed
  rw [(reopen_fields _).2.2.2.2] at hrouted
  have hok : ((race { state := reopen [.Redb {}] } calmBatch).state.raise_fences
      (fun _ => true) 10).1 = true := by decide +kernel
  have h := no_fence_goes_back [.Redb {}] (by simp) hrouted calmBatch raiseAndApply
    (by simp [calmBatch, raiseAndApply, ActionRouted, CallRouted, shard_of_group]) calmBatch_quiet
  exact ⟨h.1, hok, h.2 (fun _ => true) 10 _ rfl hok⟩

end ReplicaState

end mqtt_cluster.cluster_log
