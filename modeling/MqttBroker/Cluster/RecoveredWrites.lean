-- What a takeover finds (`recover_key` in `cluster_store.rs`): whichever answers come in and
-- in whatever order, a recovery that returns has read a member of every quorum that took an
-- entry, and serves what the quorums took.
import MqttBroker.Cluster.JointQuorum

namespace mqtt_cluster.cluster_log

open placement mqtt_storage.repl

/-- The copy has the entry or a later attempt at its offset, or has dropped the offset. -/
def Took (copy : ReplicaRead) (x : EpochEntry) : Prop :=
  x.offset ≤ copy.watermark ∨ ∃ y ∈ copy.entries, y.offset = x.offset ∧ x.tag ≤ y.tag

/-- Members that meet the rule for writes took the entry. -/
def Committed (width pre : Nat) (copies : Nat → ReplicaRead) (x : EpochEntry) : Prop :=
  ∃ xs, Below width xs ∧ (Quorum.joint width pre).met_by xs = true ∧ ∀ i ∈ xs, Took (copies i) x

variable {copies : Nat → ReplicaRead} {own : ReplicaRead} {rule : Quorum}
  {answers : List (Nat × Option ReplicaRead)}

/-- The positions that are counted are of members whose copies are among the reads, and beside
the owner's own copy nothing else is. -/
structure Counted (copies : Nat → ReplicaRead) (own : ReplicaRead) (places : List Nat)
    (taken : List ReplicaRead × List Nat) : Prop where
  read : ∀ i ∈ taken.2, copies i ∈ taken.1
  copy : ∀ r ∈ taken.1, r = own ∨ ∃ i, r = copies i
  places : taken.2.Sublist places

theorem counted_answers (hanswers : ∀ i r, (i, some r) ∈ answers → r = copies i)
    {reads : List ReplicaRead} {read_from places : List Nat}
    (h : Counted copies own places (reads, read_from)) :
    Counted copies own (places ++ answers.map Prod.fst)
      (take_answers rule answers reads read_from) := by
  induction answers generalizing reads read_from places with
  | nil =>
    rw [List.map_nil, List.append_nil]
    exact h
  | cons a rest ih =>
    obtain ⟨i, answer⟩ := a
    have hrest : ∀ j r, (j, some r) ∈ rest → r = copies j :=
      fun j r hr => hanswers j r (List.mem_cons_of_mem _ hr)
    rw [List.map_cons, List.append_cons]
    unfold take_answers
    split
    · exact ⟨h.read, h.copy, h.places.trans (by simp)⟩
    · cases answer with
      | none => exact ih hrest ⟨h.read, h.copy, h.places.trans (List.sublist_append_left _ _)⟩
      | some read =>
        have heq := hanswers i read List.mem_cons_self
        refine ih hrest ⟨?_, ?_, h.places.append (List.Sublist.refl _)⟩
        · intro j hj
          rcases List.mem_append.mp hj with hj | hj
          · exact List.mem_append_left _ (h.read j hj)
          · rw [List.mem_singleton.mp hj, ← heq]
            exact List.mem_append_right _ List.mem_cons_self
        · intro r hr
          rcases List.mem_append.mp hr with hr | hr
          · exact h.copy r hr
          · exact .inr ⟨i, (List.mem_singleton.mp hr).trans heq⟩

/-- What a recovery returns is merged from reads that meet the rule. Where no read is without a
gap, the sweep has seen to it that nothing is left above the log. -/
theorem recover_ok {me : NodeId} {set : List NodeId} {roster : Option (List NodeId × Nat)}
    {sweep : List NodeId → List (Option ReplicaRead)}
    {log : List EpochEntry} {floor : Offset} {high : Option Tag}
    (h : recover_key me set rule own answers roster sweep = .ok (log, floor, high)) :
    let taken := take_answers rule answers [own] (set.findIdx? (fun n => n = me)).toList
    rule.met_by taken.2 = true ∧ ∃ all, (∀ r ∈ taken.1, r ∈ all) ∧
      log = merge_replica_logs_tagged all ∧ floor = low_water all ∧
      (all = taken.1 ∨ ∀ x, Has all x → x.offset ≤ floor + log.length) := by
  intro taken
  unfold recover_key at h
  change (if !rule.met_by taken.2 then _ else _) = _ at h
  split at h
  · cases h
  rename_i hmet
  refine ⟨by simpa using hmet, ?_⟩
  split at h
  · obtain ⟨known, -, hlog, hfloor, hmax⟩ := roster_ok h
    exact ⟨_, fun r hr => List.mem_append_left _ hr, hlog, hfloor, .inr hmax⟩
  · obtain ⟨rfl, rfl, -⟩ : _ ∧ _ ∧ _ := by simpa using h
    exact ⟨taken.1, fun _ hr => hr, rfl, rfl, .inl rfl⟩

variable {width pre span : Nat} {x : EpochEntry}

/-- An entry that a quorum took is in the reads, itself or a later attempt, or dropped. -/
theorem committed_read (hle : pre ≤ width) (hr : ReadRule width pre span rule) {ys : List Nat}
    (hy : Below span ys) (hmet : rule.met_by ys = true) {all : List ReplicaRead}
    (hread : ∀ i ∈ ys, copies i ∈ all) (hx : Committed width pre copies x) :
    x.offset ≤ low_water all ∨ ∃ y, Has all y ∧ y.offset = x.offset ∧ x.tag ≤ y.tag := by
  obtain ⟨xs, hb, hquorum, htook⟩ := hx
  obtain ⟨i, hix, hiy⟩ := joint_meets_read hle hr hb hquorum hy hmet
  rcases htook i hix with hlow | ⟨y, hmem, ho, htag⟩
  · exact .inl (hlow.trans (low_water_le (hread i hiy)))
  · exact .inr ⟨y, ⟨_, hread i hiy, hmem⟩, ho, htag⟩

/-- A recovery that returns serves every committed entry above its floor, itself or a later
attempt at its offset, if no copy has below it a later attempt than the entry that is committed
right above that. -/
theorem a_takeover_serves_what_is_committed (me : NodeId) (set : List NodeId)
    (roster : Option (List NodeId × Nat)) (sweep : List NodeId → List (Option ReplicaRead))
    (hown : ∀ i, set.findIdx? (fun n => n = me) = some i → own = copies i)
    (hanswers : ∀ i r, (i, some r) ∈ answers → r = copies i)
    (hplaces : Below span ((set.findIdx? (fun n => n = me)).toList ++ answers.map Prod.fst))
    (hle : pre ≤ width) (hr : ReadRule width pre span rule) {log : List EpochEntry} {floor : Offset}
    {high : Option Tag}
    (hok : recover_key me set rule own answers roster sweep = .ok (log, floor, high))
    (hx : Committed width pre copies x)
    (hbelow : ∀ r e, r = own ∨ (∃ i, r = copies i) → e ∈ r.entries → e.offset < x.offset →
      ∃ e', Committed width pre copies e' ∧ e'.offset = e.offset + 1 ∧ e.tag ≤ e'.tag) :
    x.offset ≤ floor ∨ ∃ y ∈ log, y.offset = x.offset ∧ x.tag ≤ y.tag := by
  obtain ⟨hmet, all, hall, rfl, rfl, hserved⟩ := recover_ok hok
  have hstart : Counted copies own (set.findIdx? (fun n => n = me)).toList
      ([own], (set.findIdx? (fun n => n = me)).toList) :=
    ⟨by simpa using fun i hi => (hown i hi).symm, by simp, List.Sublist.refl _⟩
  have hcounted : Counted copies own _ (take_answers rule answers [own] _) :=
    counted_answers hanswers hstart
  have hys : Below span (take_answers rule answers [own] _).2 :=
    ⟨hplaces.nodup.sublist hcounted.places, fun i hi => hplaces.lt i (hcounted.places.subset hi)⟩
  have hfound {e : EpochEntry} (he : Committed width pre copies e) :=
    committed_read hle hr hys hmet (fun i hi => hall _ (hcounted.read i hi)) he
  by_cases hlow : x.offset ≤ low_water all
  · exact .inl hlow
  obtain ⟨y, hy, ho, htag⟩ := (hfound hx).resolve_left hlow
  have habove : low_water all < y.offset := ho ▸ Nat.lt_of_not_le hlow
  right
  rcases hserved with heq | hmax
  · obtain ⟨v, hv, hge⟩ := (newest_spec all).ge y hy habove
    refine ⟨EpochEntry.of y.offset v, (mem_merge all _).mpr ⟨hv, ?_⟩, ho, htag.trans hge⟩
    -- What is committed right above an entry is read as well, so the reads have no hole.
    rintro e ⟨r, hread, he⟩ helow hlt
    obtain ⟨e', hc, hnext, hrise⟩ :=
      hbelow r e (hcounted.copy r (heq ▸ hread)) he (hlt.trans_eq ho)
    rcases hfound hc with hdropped | ⟨z, hz, hzo, hzt⟩
    · rw [hnext] at hdropped
      exact absurd helow (Nat.not_lt.mpr (Nat.le_of_succ_le hdropped))
    · exact ⟨z, hz, hzo.trans hnext, hrise.trans hzt⟩
  · obtain ⟨e, he, heo, hnew⟩ := served_has hmax hy habove
    exact ⟨e, he, heo.trans ho, htag.trans (hnew.ge y hy heo.symm)⟩

def two_of_three (i : Nat) : ReplicaRead :=
  if i < 2 then { complete := true, entries := [⟨1, 1, 1, [7]⟩, ⟨1, 2, 2, [8]⟩] } else {}

theorem a_new_member_takes_over_both_entries :
    ∃ log high, recover_key "c" ["a", "b", "c"] (.joint 3 2) {}
        [(1, some (two_of_three 1)), (0, some (two_of_three 0))] none (fun _ => []) =
      .ok (log, 0, high) ∧ ∃ y ∈ log, y.offset = 2 := by
  have hok : recover_key "c" ["a", "b", "c"] (.joint 3 2) {}
      [(1, some (two_of_three 1)), (0, some (two_of_three 0))] none (fun _ => []) =
        .ok ((two_of_three 0).entries, 0, some (tag 1 2)) := by decide +kernel
  have hall : ∀ e ∈ (two_of_three 0).entries, Committed 3 2 two_of_three e := by
    intro e he
    refine ⟨[0, 1], ⟨by decide, by decide⟩, by decide +kernel, ?_⟩
    rintro i (_ | ⟨_, _ | ⟨_, ⟨⟩⟩⟩) <;> exact .inr ⟨e, he, rfl, le_refl _⟩
  have hx := hall ⟨1, 2, 2, [8]⟩ (by decide)
  have hown : ∀ i, ["a", "b", "c"].findIdx? (fun n => n = "c") = some i → {} = two_of_three i := by
    intro i hi
    cases hi
    rfl
  have hbelow : ∀ r e, r = {} ∨ (∃ i, r = two_of_three i) → e ∈ r.entries → e.offset < 2 →
      ∃ e', Committed 3 2 two_of_three e' ∧ e'.offset = e.offset + 1 ∧ e.tag ≤ e'.tag := by
    intro r e hr he hlt
    have hone : e ∈ (two_of_three 0).entries := by
      rcases hr with rfl | ⟨i, rfl⟩
      · cases he
      · unfold two_of_three at he
        split at he
        · exact he
        · cases he
    rcases hone with _ | ⟨_, _ | ⟨_, ⟨⟩⟩⟩
    · exact ⟨_, hx, rfl, by decide⟩
    · exact absurd hlt (by decide)
  obtain hlow | ⟨y, hy, ho, -⟩ := a_takeover_serves_what_is_committed "c" ["a", "b", "c"] none
    (fun _ => []) hown (by rintro i r (_ | ⟨_, _ | ⟨_, ⟨⟩⟩⟩) <;> rfl) ⟨by decide, by decide⟩
    (by decide) .joint hok hx hbelow
  · exact absurd hlow (by decide)
  · exact ⟨_, _, hok, y, hy, ho⟩

end mqtt_cluster.cluster_log
