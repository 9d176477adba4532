-- What an open rebuilds. Each group has its home shard, and no row of the group
-- is on another, so the open gives a group what its home shard holds.
import MqttBroker.Cluster.Slots

namespace mqtt_cluster.cluster_log

open placement

/-! ## The home of a group -/

def homeLoad (dbs : List Shard) (group : GroupId) : Loaded :=
  (dbs[shard_of_group group dbs.length]?.map Shard.load).getD {}

def keyLoad (dbs : List Shard) (key : String) : Loaded := homeLoad dbs (group_of_key key)

/-- A loaded state has rows of the groups of one shard only. -/
structure RoutedTo (n i : Nat) (l : Loaded) : Prop where
  fences : ∀ (g : GroupId) e, l.fences[g]? = some e → shard_of_group g n = i
  logs : ∀ (key : String) log, l.logs[key]? = some log → shard_of_group (group_of_key key) n = i
  truncated : ∀ (key : String) o, l.truncated[key]? = some o →
    shard_of_group (group_of_key key) n = i

/-- Every shard has rows of its own groups only. -/
def Routed (dbs : List Shard) : Prop :=
  ∀ i shard, dbs[i]? = some shard → RoutedTo dbs.length i shard.load

variable {n i : Nat} {l : Loaded}

theorem routedTo_fence (h : RoutedTo n i l) {g : GroupId} (e : Epoch)
    (hg : shard_of_group g n = i) : RoutedTo n i (PlanSink.fence g e l) := by
  refine ⟨fun g' e' hg' => ?_, h.logs, h.truncated⟩
  simp only [PlanSink.fence, BTreeMap.get_insert] at hg'
  split at hg'
  · rename_i heq
    rw [← heq]
    exact hg
  · exact h.fences g' e' hg'

variable {k : String}

theorem routedTo_put (h : RoutedTo n i l) (o : Offset) (e : Epoch) (q : Nat) (r : Bytes)
    (hk : shard_of_group (group_of_key k) n = i) : RoutedTo n i (PlanSink.append k o e q r l) := by
  refine ⟨h.fences, fun k' log hk' => ?_, h.truncated⟩
  simp only [PlanSink.append, put, BTreeMap.get_insert] at hk'
  split at hk'
  · rename_i heq
    rw [← heq]
    exact hk
  · exact h.logs k' log hk'

theorem cut_isSome {α : Type} (logs : KeyMap α) (key k : String) (u : Offset)
    {log : BTreeMap Offset α} (h : (cut logs key u)[k]? = some log) : ∃ log', logs[k]? = some log' := by
  unfold cut at h
  rcases hl : logs[key]? with _ | lg
  · rw [hl] at h
    exact ⟨log, h⟩
  · rw [hl] at h
    simp only at h
    split at h
    · rw [BTreeMap.get_erase] at h
      split at h
      · cases h
      · exact ⟨log, h⟩
    · rw [BTreeMap.get_insert] at h
      split at h
      · rename_i heq
        exact ⟨lg, by rw [← heq]; exact hl⟩
      · exact ⟨log, h⟩

theorem routedTo_truncate (h : RoutedTo n i l) (u w : Offset)
    (hk : shard_of_group (group_of_key k) n = i) : RoutedTo n i (PlanSink.truncate k u w l) := by
  refine ⟨h.fences, fun k' log hk' => ?_, fun k' o hk' => ?_⟩
  · obtain ⟨log', hl⟩ := cut_isSome _ _ _ _ hk'
    exact h.logs k' log' hl
  · simp only [PlanSink.truncate, BTreeMap.get_insert] at hk'
    split at hk'
    · rename_i heq
      rw [← heq]
      exact hk
    · exact h.truncated k' o hk'

theorem routedTo_remove (h : RoutedTo n i l) (k : String) : RoutedTo n i (PlanSink.remove k l) := by
  refine ⟨h.fences, fun k' log hk' => ?_, fun k' o hk' => ?_⟩
  · simp only [PlanSink.remove, BTreeMap.get_erase] at hk'
    split at hk'
    · cases hk'
    · exact h.logs k' log hk'
  · simp only [PlanSink.remove, BTreeMap.get_erase] at hk'
    split at hk'
    · cases hk'
    · exact h.truncated k' o hk'

theorem routedTo_drive_plan (h : RoutedTo n i l) {plan : ShardPlan}
    (hf : ∀ (g : GroupId) e, plan.advanced[g]? = some e → shard_of_group g n = i)
    (ho : ∀ p ∈ plan.ops, shard_of_group (op_group p.2) n = i) :
    RoutedTo n i (drive_plan plan l) := by
  have ha : ∀ k, Addresses plan k → shard_of_group (group_of_key k) n = i := by
    rintro k ⟨p, hp, rfl⟩
    exact ho p hp
  have hkeep : SinkKeeps (RoutedTo n i) (fun _ => True) plan := by
    refine ⟨⟨?_, ?_, ?_⟩, ?_⟩
    · exact fun s k o e q r hin hs => routedTo_put hs o e q r (ha k ⟨_, hin, rfl⟩)
    · exact fun s k u w hk _ _ hs => routedTo_truncate hs u w (ha k hk)
    · exact fun s k _ hs => routedTo_remove hs k
    · exact fun s g e hge hs => routedTo_fence hs e (hf g e hge)
  exact drive_plan_keeps hkeep (boundsPlan_true plan) h

/-! ## An open -/

section merge

variable {κ α : Type} [LinearOrder κ]

/-- Maps merged one after another: a key that only one of them has is as in that one. -/
theorem get_foldl_extend (ms : List (BTreeMap κ α)) (m : BTreeMap κ α) (k : κ) (i : Nat)
    (h : ∀ j m', ms[j]? = some m' → j ≠ i → m'[k]? = none) :
    (ms.foldl (fun m m' => BTreeMap.extend m m') m)[k]? =
      ((ms[i]?.bind (fun m' => m'[k]?)).or m[k]?) := by
  induction ms generalizing m i with
  | nil => simp
  | cons m' ms ih =>
    rw [List.foldl_cons]
    cases i with
    | zero =>
      have hrest : ∀ j x, ms[j]? = some x → j ≠ ms.length → x[k]? = none := fun j x hx _ =>
        h (j + 1) x (by simpa using hx) (by omega)
      rw [ih _ ms.length hrest, BTreeMap.get_extend]
      simp
    | succ i =>
      have h0 : m'[k]? = none := h 0 m' rfl (by omega)
      have hrest : ∀ j x, ms[j]? = some x → j ≠ i → x[k]? = none := fun j x hx hj =>
        h (j + 1) x (by simpa using hx) (by omega)
      rw [ih _ i hrest, BTreeMap.get_extend, h0]
      simp

end merge

theorem reopen_fields (dbs : List Shard) :
    (ReplicaState.reopen dbs).fences =
        (dbs.map (fun d => d.load.fences)).foldl (fun m m' => BTreeMap.extend m m') ∅ ∧
      (ReplicaState.reopen dbs).persisted_fences =
        (dbs.map (fun d => d.load.fences)).foldl (fun m m' => BTreeMap.extend m m') ∅ ∧
      (ReplicaState.reopen dbs).logs =
        (dbs.map (fun d => d.load.logs)).foldl (fun m m' => BTreeMap.extend m m') ∅ ∧
      (ReplicaState.reopen dbs).truncated =
        (dbs.map (fun d => d.load.truncated)).foldl (fun m m' => BTreeMap.extend m m') ∅ ∧
      (ReplicaState.reopen dbs).dbs = dbs := by
  unfold ReplicaState.reopen
  have h : ∀ (l : List Shard) (s : ReplicaState),
      (l.foldl (fun (s : ReplicaState) shard => { s with
        persisted_fences := s.persisted_fences.extend shard.load.fences
        fences := s.fences.extend shard.load.fences
        logs := s.logs.extend shard.load.logs
        truncated := s.truncated.extend shard.load.truncated
        caught_up := s.caught_up.extend shard.load.caught_up }) s) =
      { s with
        fences := (l.map (fun d => d.load.fences)).foldl (fun m m' => BTreeMap.extend m m') s.fences
        persisted_fences :=
          (l.map (fun d => d.load.fences)).foldl (fun m m' => BTreeMap.extend m m') s.persisted_fences
        logs := (l.map (fun d => d.load.logs)).foldl (fun m m' => BTreeMap.extend m m') s.logs
        truncated :=
          (l.map (fun d => d.load.truncated)).foldl (fun m m' => BTreeMap.extend m m') s.truncated
        caught_up :=
          (l.map (fun d => d.load.caught_up)).foldl (fun m m' => BTreeMap.extend m m') s.caught_up } := by
    intro l
    induction l with
    | nil => exact fun s => rfl
    | cons d l ih => exact fun s => ih _
  rw [h]
  exact ⟨rfl, rfl, rfl, rfl, rfl⟩

theorem get_reopen {κ α : Type} [LinearOrder κ] (dbs : List Shard) (get : Loaded → BTreeMap κ α)
    (k : κ) (g : GroupId)
    (hr : ∀ i shard, dbs[i]? = some shard → ∀ v, (get shard.load)[k]? = some v →
      shard_of_group g dbs.length = i) (hempty : get {} = ∅) :
    ((dbs.map (fun d => get d.load)).foldl (fun m m' => BTreeMap.extend m m') ∅)[k]? =
      (get (homeLoad dbs g))[k]? := by
  rw [get_foldl_extend _ _ _ (shard_of_group g dbs.length)]
  · rw [List.getElem?_map, homeLoad, BTreeMap.get_empty, Option.or_none]
    rcases dbs[shard_of_group g dbs.length]? with _ | d
    · simp [hempty]
    · simp
  · intro j m' hj hne
    rw [List.getElem?_map] at hj
    rcases hd : dbs[j]? with _ | d
    · rw [hd] at hj
      cases hj
    · rw [hd] at hj
      cases hj
      rcases hv : (get d.load)[k]? with _ | v
      · rfl
      · exact absurd (hr j d hd v hv).symm hne

theorem reopen_home {dbs : List Shard} (hr : Routed dbs) :
    (∀ g : GroupId, (ReplicaState.reopen dbs).fences[g]? = (homeLoad dbs g).fences[g]?) ∧
      (∀ g : GroupId,
        (ReplicaState.reopen dbs).persisted_fences[g]? = (homeLoad dbs g).fences[g]?) ∧
      (∀ key offset, held (ReplicaState.reopen dbs).logs key offset =
        held (keyLoad dbs key).logs key offset) ∧
      (∀ key : String,
        (ReplicaState.reopen dbs).truncated[key]? = (keyLoad dbs key).truncated[key]?) := by
  obtain ⟨h1, h2, h3, h4, -⟩ := reopen_fields dbs
  have hf : ∀ g : GroupId, ((dbs.map (fun d => d.load.fences)).foldl
      (fun m m' => BTreeMap.extend m m') ∅)[g]? = (homeLoad dbs g).fences[g]? := fun g =>
    get_reopen dbs Loaded.fences g g (fun i shard hi v hv => (hr i shard hi).fences g v hv) rfl
  refine ⟨fun g => by rw [h1, hf], fun g => by rw [h2, hf], fun key offset => ?_, fun key => ?_⟩
  · have hl := get_reopen dbs Loaded.logs key (group_of_key key)
      (fun i shard hi v hv => (hr i shard hi).logs key v hv) rfl
    rw [held, logOf, h3, hl]
    rfl
  · rw [h4]
    exact get_reopen dbs Loaded.truncated key (group_of_key key)
      (fun i shard hi v hv => (hr i shard hi).truncated key v hv) rfl

end mqtt_cluster.cluster_log
