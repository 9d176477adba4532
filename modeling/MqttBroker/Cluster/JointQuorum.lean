-- The joint rule of a change of the replication factor (`Quorum::joint` in `cluster_log.rs`):
-- what is counted under it is on a member of every set that a recovery reads under the old
-- width, the joint rule or the new width.
import MqttBroker.Cluster.Takeover

namespace mqtt_cluster.cluster_log

open mqtt_storage.repl

/-! ## Positions that meet a rule -/

structure Below (width : Nat) (is : List Nat) : Prop where
  nodup : is.Nodup
  lt : ∀ i ∈ is, i < width

namespace Quorum

variable {width : Nat} {is : List Nat}

theorem majority_met (h : (majority width).met_by is = true) : width / 2 + 1 ≤ is.length := by
  rw [met_by_eq, Bool.and_eq_true, decide_eq_true_eq] at h
  exact h.1

variable {pre : Nat}

theorem inPrefix_joint (hlt : pre < width) (i : Nat) :
    (joint width pre).inPrefix i = decide (i < pre) := by
  have hmin : min pre width = pre := Nat.min_eq_left (le_of_lt hlt)
  simp only [joint, hmin, if_neg (Nat.ne_of_lt hlt), inPrefix, List.getElem?_map]
  by_cases hi : i < width
  · simp [hi]
  · rw [List.getElem?_eq_none (by simpa using hi)]
    have hge : ¬ i < pre := by omega
    simp [hge]

/-- What the joint rule asks for: a majority of the whole, and one of the prefix. -/
theorem joint_met (hle : pre ≤ width) (hb : Below width is)
    (h : (joint width pre).met_by is = true) :
    width / 2 + 1 ≤ is.length ∧ pre / 2 + 1 ≤ (is.filter (fun i => i < pre)).length := by
  rcases Nat.lt_or_ge pre width with hlt | hge
  · have hcount := h
    rw [met_by_eq, Bool.and_eq_true, decide_eq_true_eq, decide_eq_true_eq] at hcount
    have hpre : is.countP (joint width pre).inPrefix = (is.filter (fun i => i < pre)).length := by
      rw [List.countP_eq_length_filter, funext (inPrefix_joint hlt)]
    rw [hpre] at hcount
    simpa [joint, Nat.min_eq_left hle, Nat.ne_of_lt hlt] using hcount
  · obtain rfl : pre = width := Nat.le_antisymm hle hge
    have hmaj : joint pre pre = majority pre := by simp [joint]
    rw [hmaj] at h
    have hall : is.filter (fun i => i < pre) = is :=
      List.filter_eq_self.mpr fun i hi => decide_eq_true (hb.lt i hi)
    rw [hall]
    exact ⟨majority_met h, majority_met h⟩

theorem below_prefix (hb : Below width is) : Below pre (is.filter (fun i => i < pre)) :=
  ⟨hb.nodup.filter _, fun i hi => by simpa using (List.mem_filter.mp hi).2⟩

variable {xs ys : List Nat}

theorem joint_meets_whole (hle : pre ≤ width) (hx : Below width xs)
    (hmet : (joint width pre).met_by xs = true) (hy : Below width ys)
    (hmaj : width / 2 + 1 ≤ ys.length) : ∃ i, i ∈ xs ∧ i ∈ ys :=
  Majority.meet_lt hx.nodup hy.nodup hx.lt hy.lt (joint_met hle hx hmet).1 hmaj

theorem joint_meets_prefix (hle : pre ≤ width) (hx : Below width xs)
    (hmet : (joint width pre).met_by xs = true) (hy : Below pre ys)
    (hmaj : pre / 2 + 1 ≤ ys.length) : ∃ i, i ∈ xs ∧ i ∈ ys ∧ i < pre := by
  have hp : Below pre (xs.filter (fun i => i < pre)) := below_prefix hx
  obtain ⟨i, hi, hiy⟩ :=
    Majority.meet_lt hp.nodup hy.nodup hp.lt hy.lt (joint_met hle hx hmet).2 hmaj
  exact ⟨i, (List.mem_filter.mp hi).1, hiy, hp.lt i hi⟩

end Quorum

/-- A read that recovers a key while the factor changes between the two widths: the positions it
is counted over, and the rule. -/
inductive ReadRule (width pre : Nat) : Nat → Quorum → Prop
  | smaller : ReadRule width pre pre (.majority pre)
  | joint : ReadRule width pre width (.joint width pre)
  | larger : ReadRule width pre width (.majority width)

theorem joint_meets_read {width pre span : Nat} {rule : Quorum} (hle : pre ≤ width)
    (hr : ReadRule width pre span rule) {xs ys : List Nat} (hx : Below width xs)
    (hmet : (Quorum.joint width pre).met_by xs = true) (hy : Below span ys)
    (hread : rule.met_by ys = true) : ∃ i, i ∈ xs ∧ i ∈ ys := by
  cases hr with
  | smaller =>
    obtain ⟨i, hix, hiy, -⟩ := Quorum.joint_meets_prefix hle hx hmet hy (Quorum.majority_met hread)
    exact ⟨i, hix, hiy⟩
  | joint => exact Quorum.joint_meets_whole hle hx hmet hy (Quorum.joint_met hle hy hread).1
  | larger => exact Quorum.joint_meets_whole hle hx hmet hy (Quorum.majority_met hread)

/-! ## The acks of a lease-holder, by position -/

namespace ClusterLog

variable {owner : NodeId} {set : List NodeId} {q : Quorum} {own : Bool} {acked : List Nat}

/-- The followers with their positions in the set. -/
def others (owner : NodeId) (set : List NodeId) : List (NodeId × Nat) :=
  set.zipIdx.filter (fun x => x.1 ≠ owner)

theorem set_quorum_places (owner : NodeId) (set : List NodeId) (q : Quorum) :
    (set_quorum owner set q).followers = (others owner set).map Prod.fst ∧
      (set_quorum owner set q).followersInPrefix =
        (others owner set).map (fun x => q.inPrefix x.2) ∧
      ∀ k, (owner, k) ∈ set.zipIdx → (∀ x ∈ set.zipIdx, x.1 = owner → x.2 = k) →
        (set_quorum owner set q).localInPrefix = q.inPrefix k := by
  have hfold : ∀ (l : List (NodeId × Nat)) (log : ClusterLog),
      (l.foldl (place owner q) log).followers =
          log.followers ++ (l.filter (fun x => x.1 ≠ owner)).map Prod.fst ∧
        (l.foldl (place owner q) log).followersInPrefix =
          log.followersInPrefix ++ (l.filter (fun x => x.1 ≠ owner)).map (fun x => q.inPrefix x.2) ∧
        ∀ k, (∀ x ∈ l, x.1 = owner → x.2 = k) →
          (∃ x ∈ l, x.1 = owner) ∨ log.localInPrefix = q.inPrefix k →
          (l.foldl (place owner q) log).localInPrefix = q.inPrefix k := by
    intro l
    induction l with
    | nil => simp
    | cons x l ih =>
      intro log
      obtain ⟨h1, h2, h3⟩ := ih (place owner q log x)
      rw [List.foldl_cons, h1, h2]
      by_cases hx : x.1 = owner
      · refine ⟨by simp [place, hx], by simp [place, hx], fun k hall _ => h3 k ?_ (.inr ?_)⟩
        · exact fun y hy => hall y (List.mem_cons_of_mem _ hy)
        · simp [place, hx, hall x List.mem_cons_self hx]
      · refine ⟨by simp [place, hx], by simp [place, hx], fun k hall hor => h3 k ?_ ?_⟩
        · exact fun y hy => hall y (List.mem_cons_of_mem _ hy)
        · refine hor.imp ?_ fun h => by simp [place, hx, h]
          rintro ⟨y, hy, heq⟩
          exact ⟨y, (List.mem_cons.mp hy).resolve_left fun h => hx (h ▸ heq), heq⟩
  obtain ⟨h1, h2, h3⟩ := hfold set.zipIdx { quorum := q }
  exact ⟨h1, h2, fun k hk hall => h3 k hall (.inl ⟨_, hk, rfl⟩)⟩

def position (owner : NodeId) (set : List NodeId) (f : Nat) : Nat :=
  ((others owner set)[f]?.map Prod.snd).getD 0

def positions (owner : NodeId) (set : List NodeId) (own : Bool) (acked : List Nat) : List Nat :=
  (if own then [set.idxOf owner] else []) ++ acked.map (position owner set)

def Holds (log : ClusterLog) (owner : NodeId) (own : Bool) (acked : List Nat) (m : NodeId) : Prop :=
  (own = true ∧ m = owner) ∨ ∃ f ∈ acked, log.followers[f]? = some m

theorem position_others {f : Nat} (hf : f < (others owner set).length) :
    (others owner set)[f].1 ≠ owner ∧ set[position owner set f]? = some (others owner set)[f].1 ∧
      position owner set f = (others owner set)[f].2 := by
  have hpos : position owner set f = (others owner set)[f].2 := by
    simp [position, List.getElem?_eq_getElem hf]
  obtain ⟨hzip, hne⟩ := List.mem_filter.mp (List.getElem_mem hf)
  refine ⟨by simpa using hne, ?_, hpos⟩
  rw [hpos]
  exact List.mem_zipIdx_iff_getElem?.mp hzip

theorem owner_position (hown : owner ∈ set) : set[set.idxOf owner]? = some owner :=
  List.getElem?_idxOf hown

theorem positions_below (hown : owner ∈ set) (hacked : acked.Nodup)
    (hf : ∀ f ∈ acked, f < (others owner set).length) :
    Below set.length (positions owner set own acked) := by
  have hinj : ∀ f ∈ acked, ∀ g ∈ acked, position owner set f = position owner set g → f = g := by
    intro f hfa g hga heq
    rw [(position_others (hf f hfa)).2.2, (position_others (hf g hga)).2.2] at heq
    have hnodup : ((others owner set).map Prod.snd).Nodup := by
      refine List.Nodup.sublist (List.filter_sublist.map _) ?_
      rw [List.zipIdx_map_snd]
      exact List.nodup_range' _
    have hget := @List.Nodup.getElem_inj_iff _ _ hnodup f (by simpa using hf f hfa) g
      (by simpa using hf g hga)
    simpa [heq] using hget
  constructor
  · unfold positions
    rw [List.nodup_append]
    refine ⟨by split <;> simp, hacked.map_on hinj, ?_⟩
    intro i hi j hj heq
    obtain ⟨f, hfa, rfl⟩ := List.mem_map.mp hj
    obtain ⟨hne, hget, -⟩ := position_others (hf f hfa)
    split at hi
    · rw [List.mem_singleton.mp hi] at heq
      rw [← heq, owner_position hown] at hget
      exact hne (Option.some.inj hget).symm
    · cases hi
  · intro i hi
    rcases List.mem_append.mp hi with hi | hi
    · split at hi
      · rw [List.mem_singleton.mp hi]
        exact List.idxOf_lt_length_of_mem hown
      · cases hi
    · obtain ⟨f, hfa, rfl⟩ := List.mem_map.mp hi
      exact (List.getElem?_eq_some_iff.mp (position_others (hf f hfa)).2.1).1

theorem met_positions (hown : owner ∈ set) (hset : set.Nodup)
    (hf : ∀ f ∈ acked, f < (others owner set).length) :
    q.met ((set_quorum owner set q).tally_of own acked) =
      q.met_by (positions owner set own acked) := by
  obtain ⟨-, hpre, hlocal⟩ := set_quorum_places owner set q
  have hmine : (set_quorum owner set q).localInPrefix = q.inPrefix (set.idxOf owner) := by
    refine hlocal _ (List.mem_zipIdx_iff_getElem?.mpr (owner_position hown)) fun x hx hxo => ?_
    have hget := List.mem_zipIdx_iff_getElem?.mp hx
    obtain ⟨hlt, heq⟩ := List.getElem?_eq_some_iff.mp hget
    rw [← hxo, ← heq, hset.idxOf_getElem]
  have hfold : ∀ (acked : List Nat) (t : Tally), (∀ f ∈ acked, f < (others owner set).length) →
      acked.foldl (set_quorum owner set q).add_follower t =
        (acked.map (position owner set)).foldl (fun t i => t.add (q.inPrefix i)) t := by
    intro acked
    induction acked with
    | nil => exact fun t _ => rfl
    | cons f acked ih =>
      intro t hf
      rw [List.foldl_cons, List.map_cons, List.foldl_cons,
        ih _ fun g hg => hf g (List.mem_cons_of_mem _ hg)]
      have hlt := hf f List.mem_cons_self
      have hadd : (set_quorum owner set q).add_follower t f =
          t.add (q.inPrefix (position owner set f)) := by
        rw [(position_others hlt).2.2, add_follower, hpre, List.getElem?_map,
          List.getElem?_eq_getElem hlt]
        rfl
      rw [hadd]
  unfold Quorum.met_by tally_of tally_with_local positions
  rw [hfold _ _ hf, List.foldl_append, hmine]
  cases own <;> rfl

theorem holds_position (hown : owner ∈ set) (hf : ∀ f ∈ acked, f < (others owner set).length)
    {i : Nat} (hi : i ∈ positions owner set own acked) :
    ∃ m, set[i]? = some m ∧ Holds (set_quorum owner set q) owner own acked m := by
  rcases List.mem_append.mp hi with hi | hi
  · split at hi
    · rename_i hown'
      rw [List.mem_singleton.mp hi]
      exact ⟨owner, owner_position hown, .inl ⟨hown', rfl⟩⟩
    · cases hi
  · obtain ⟨f, hfa, rfl⟩ := List.mem_map.mp hi
    refine ⟨_, (position_others (hf f hfa)).2.1, .inr ⟨f, hfa, ?_⟩⟩
    rw [(set_quorum_places owner set q).1, List.getElem?_map, List.getElem?_eq_getElem (hf f hfa)]
    rfl

theorem counted_is_read {pre span : Nat} {rule : Quorum} (hown : owner ∈ set) (hset : set.Nodup)
    (hle : pre ≤ set.length) (hacked : acked.Nodup)
    (hf : ∀ f ∈ acked, f < (ClusterLog.with_joint_prefix owner set pre).followers.length)
    (hmet : (ClusterLog.with_joint_prefix owner set pre).quorum.met
      ((ClusterLog.with_joint_prefix owner set pre).tally_of own acked) = true)
    (hr : ReadRule set.length pre span rule) {ys : List Nat} (hy : Below span ys)
    (hread : rule.met_by ys = true) :
    ∃ i ∈ ys, ∃ m, set[i]? = some m ∧
      Holds (ClusterLog.with_joint_prefix owner set pre) owner own acked m := by
  unfold with_joint_prefix at *
  rw [(set_quorum_places owner set _).1, List.length_map] at hf
  rw [(set_quorum_followers owner set _).1, met_positions hown hset hf] at hmet
  obtain ⟨i, hix, hiy⟩ := joint_meets_read hle hr (positions_below hown hacked hf) hmet hy hread
  exact ⟨i, hiy, holds_position hown hf hix⟩

end ClusterLog

/-! ## Appends and re-commits -/

open ClusterLog in
/-- Sets that meet the joint rule of two widths share a position of the smaller one, and each
shares one with every majority of either; so an append that is acked under the joint rule, and an
entry that is committed again under it, is on a member of every set that a recovery reads while
the factor changes. -/
theorem joint_quorums_share_a_member :
    (∀ width pre, 0 < pre → pre ≤ width → ∀ xs, Below width xs →
      (Quorum.joint width pre).met_by xs = true →
      (∀ ys, Below width ys → (Quorum.joint width pre).met_by ys = true →
        ∃ i, i ∈ xs ∧ i ∈ ys ∧ i < pre) ∧
      (∀ ys, Below width ys → width / 2 + 1 ≤ ys.length → ∃ i, i ∈ xs ∧ i ∈ ys) ∧
      ∀ ys, Below pre ys → pre / 2 + 1 ≤ ys.length → ∃ i, i ∈ xs ∧ i ∈ ys ∧ i < pre) ∧
    ∀ owner set pre, owner ∈ set → set.Nodup → 0 < pre → pre ≤ set.length →
      ∀ span rule, ReadRule set.length pre span rule → ∀ ys, Below span ys → rule.met_by ys = true →
      (∀ steps (i : Nat) a o,
        (Pipeline.run (ClusterLog.with_joint_prefix owner set pre) {} steps).appends[i]? = some a →
        a.phase = .Done (.ok o) → a.tier ≠ .Local →
        ∃ j ∈ ys, ∃ m, set[j]? = some m ∧
          Holds (ClusterLog.with_joint_prefix owner set pre) owner a.own a.acked m) ∧
      ∀ ops own acks, (acks : List (Nat × Nat)).Nodup →
        (∀ a ∈ acks, a.2 < (ClusterLog.with_joint_prefix owner set pre).followers.length) →
        recommitted (ClusterLog.with_joint_prefix owner set pre) ops own acks = true →
        ∀ k < ops.length, ∃ j ∈ ys, ∃ m, set[j]? = some m ∧
          Holds (ClusterLog.with_joint_prefix owner set pre) owner (own k)
            ((acks.filter (fun a => a.1 = k)).map (fun a => a.2)) m := by
  constructor
  · intro width pre _ hle xs hx hmet
    refine ⟨fun ys hy hmet' => ?_, fun ys hy hmaj => Quorum.joint_meets_whole hle hx hmet hy hmaj,
      fun ys hy hmaj => Quorum.joint_meets_prefix hle hx hmet hy hmaj⟩
    obtain ⟨i, hix, hiy, hlt⟩ := Quorum.joint_meets_prefix hle hx hmet
      (Quorum.below_prefix hy) (Quorum.joint_met hle hy hmet').2
    exact ⟨i, hix, (List.mem_filter.mp hiy).1, hlt⟩
  · intro owner set pre hown hset _ hle span rule hr ys hy hread
    constructor
    · intro steps i a o hi hdone htier
      have ht := (Pipeline.sound_run _ (Pipeline.sound_start _) steps).tallied i a hi
      have hmet := ht.met (.inr ⟨o, hdone⟩)
      have hquorum : (ClusterLog.with_joint_prefix owner set pre).quorum.met
          ((ClusterLog.with_joint_prefix owner set pre).tally_of a.own a.acked) = true := by
        unfold met_now at hmet
        cases htr : a.tier with
        | Local => exact absurd htr htier
        | Quorum => simpa [htr] using hmet
        | Relaxed => simpa [htr] using hmet
      exact counted_is_read hown hset hle ht.distinct ht.members hquorum hr hy hread
    · intro ops own acks hnodup hmem hcommit k hk
      have hmet := List.all_eq_true.mp hcommit k (List.mem_range.mpr hk)
      refine counted_is_read hown hset hle ?_ ?_ hmet hr hy hread
      · refine (hnodup.filter _).map_on fun a ha b hb heq => ?_
        have h1 : a.1 = k := by simpa using (List.mem_filter.mp ha).2
        have h2 : b.1 = k := by simpa using (List.mem_filter.mp hb).2
        exact Prod.ext (h1.trans h2.symm) heq
      · intro f hf
        obtain ⟨a, ha, rfl⟩ := List.mem_map.mp hf
        exact hmem a (List.mem_filter.mp ha).1

/-- Two of three members ack under the change from two members to three; a recovery that reads
the two of the old width finds the entry at the second of them. -/
theorem a_joint_commit_is_read_under_the_old_width :
    recommitted (ClusterLog.with_joint_prefix "a" ["a", "b", "c"] 2) [.Truncate "k" 0] (fun _ => true)
      [(0, 0)] = true ∧
    ∃ j ∈ [0, 1], ∃ m, ["a", "b", "c"][j]? = some m ∧
      ClusterLog.Holds (ClusterLog.with_joint_prefix "a" ["a", "b", "c"] 2) "a" true [0] m := by
  have hmet : recommitted (ClusterLog.with_joint_prefix "a" ["a", "b", "c"] 2) [.Truncate "k" 0]
      (fun _ => true) [(0, 0)] = true := by decide +kernel
  refine ⟨hmet, ?_⟩
  exact (joint_quorums_share_a_member.2 "a" ["a", "b", "c"] 2 (by simp) (by decide) (by decide)
    (by decide) 2 (.majority 2) .smaller [0, 1] ⟨by decide, by decide⟩ (by decide +kernel)).2
    [.Truncate "k" 0] (fun _ => true) [(0, 0)] (by decide) (by decide +kernel) hmet 0 (by decide)

end mqtt_cluster.cluster_log
