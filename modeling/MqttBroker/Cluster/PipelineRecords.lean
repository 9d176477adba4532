-- What becomes of a record in the pipeline of one key: an append that ended well keeps its record
-- in the log until it is truncated, and what stands at or below the watermark only goes.
import MqttBroker.Cluster.QueueCap

namespace mqtt_cluster.cluster_log

open mqtt_storage.repl
open mqtt_storage.logged (Quiet Eases eases_step)

namespace Pipeline

/-- The appends above the floor are not committed, and what is committed is there or truncated. -/
structure Stays (s : Pipeline) : Prop where
  floor : ∀ f, s.ks.abort_floor = some f → s.ks.committed < f
  kept : ∀ (i : Nat) a o, s.appends[i]? = some a → a.phase = .Done (.ok o) →
    s.ks.truncated < o → s.ks.entries[o]? = some a.record

variable {s : Pipeline}

theorem floor_of_pipeline_resolved {ks : KeyState} {f : Offset}
    (h : ks.pipeline_resolved.abort_floor = some f) : ks.abort_floor = some f := by
  unfold KeyState.pipeline_resolved at h
  dsimp only at h
  split at h
  · cases h
  · exact h

theorem stays_submit (h : Counts s) (hs : Stays s) (record : Bytes) (tier : DurabilityTier) :
    Stays (s.submit_tiered record tier) := by
  refine ⟨hs.floor, fun i a o hi hok htr => ?_⟩
  rcases (get_snoc _ _ _ _).mp hi with hi | ⟨-, rfl⟩
  · have hle : o ≤ s.ks.committed := (h.acked i a o hi hok).2
    have hent : (s.submit_tiered record tier).ks.entries =
        s.ks.entries.insert (s.ks.stage record).1 record := rfl
    have hlt := (stage_offset s.ks record).2
    rw [hent, BTreeMap.get_insert, if_neg ?_]
    · exact hs.kept i a o hi hok htr
    · intro heq
      rw [heq] at hlt
      exact absurd hlt (Nat.not_lt.mpr hle)
  · cases hok

theorem stays_acks (hs : Stays s) (i : Nat) (f : Append → Append) (hf : ∀ a, AckKeeps a (f a)) :
    Stays { s with appends := s.appends.modify i f } := by
  refine ⟨hs.floor, fun j b o hj hok htr => ?_⟩
  obtain ⟨a, ha, hk⟩ := get_acked hf hj
  have hended : a.unresolved = false := by
    rw [← hk.unresolved]
    simp [Append.unresolved, hok]
  rw [hk.ended hended] at hok ⊢
  exact hs.kept j a o ha hok htr

theorem stays_drop (hs : Stays s) {ks : KeyState} (hkey : s.key = some ks) (up_to : Offset)
    (truncates : List Offset) :
    Stays { s with key := some (ks.drop_to up_to), truncates } := by
  have hks : s.ks = ks := by simp [Pipeline.ks, hkey]
  have hkept := hs.kept
  have hfloor := hs.floor
  rw [hks] at hkept hfloor
  refine ⟨hfloor, fun i a o hi hok htr => ?_⟩
  obtain ⟨hlow, hup⟩ := Nat.max_lt.mp htr
  have hent : (ks.drop_to up_to).entries[o]? = if o ≤ up_to then none else ks.entries[o]? :=
    BTreeMap.get_dropThrough _ _ _
  show (ks.drop_to up_to).entries[o]? = some a.record
  rw [hent, if_neg (Nat.not_le.mpr hup)]
  exact hkept i a o hi hok hlow

/-- What one turn of the commit loop leaves of a key whose floor is above the watermark. -/
structure Turned (ks ks' : KeyState) : Prop where
  floor : ∀ f, ks'.abort_floor = some f → ks'.committed < f
  truncated : ks'.truncated = ks.truncated
  entries : ∀ o : Offset, o ≤ ks.committed → ks'.entries[o]? = ks.entries[o]?

theorem turned_of_resolve {ks ks' : KeyState} {offset : Offset} {met : Bool}
    {r : Option (Except ReplError Offset)} (h : ks.resolve offset met = (r, ks'))
    (hfloor : ∀ f, ks.abort_floor = some f → ks.committed < f)
    (habove : ks.committed < offset ∨ ks.Floored offset) :
    Turned ks ks' ∧ ∀ o, r = some (.ok o) →
      o = offset ∧ ¬ ks.Floored offset ∧ ks'.entries = ks.entries := by
  rcases KeyState.resolve_cases h with
    ⟨hfl, rfl, rfl⟩ | ⟨hfl, -, rfl, rfl⟩ | ⟨hfl, -, hnext, rfl, rfl⟩ | ⟨-, -, rfl, rfl⟩
  · -- a failure below takes it along
    obtain ⟨f, hf, hle⟩ := hfl
    have hlt : ks.committed < offset := Nat.lt_of_lt_of_le (hfloor f hf) hle
    refine ⟨⟨fun g hg => ?_, by simp [KeyState.tail_fail], fun o hle => ?_⟩, by simp⟩
    · have hg' := floor_of_pipeline_resolved hg
      rw [KeyState.pipeline_resolved_committed]
      exact hfloor g hg'
    · rw [KeyState.pipeline_resolved_entries, KeyState.get_tail_fail, if_neg ?_]
      rintro rfl
      exact absurd hlt (Nat.not_lt.mpr hle)
  · -- it fails, and takes along what is staged above it
    have hlt : ks.committed < offset := habove.resolve_right hfl
    refine ⟨⟨fun g hg => ?_, by simp [KeyState.abort_from], fun o hle => ?_⟩, by simp⟩
    · rw [KeyState.pipeline_resolved_committed]
      have hg' := floor_of_pipeline_resolved hg
      rcases hf : ks.abort_floor with _ | f
      · simp only [KeyState.abort_from, hf, Option.map_none, Option.getD_none,
          Option.some.injEq] at hg'
        exact hg' ▸ hlt
      · simp only [KeyState.abort_from, hf, Option.map_some, Option.getD_some,
          Option.some.injEq] at hg'
        exact hg' ▸ Nat.lt_min.mpr ⟨hfloor f hf, hlt⟩
    · rw [KeyState.pipeline_resolved_entries, KeyState.get_abort_from, if_neg ?_]
      rw [KeyState.mem_doomed]
      exact fun hd => absurd hd.2.1 (Nat.not_lt.mpr hle)
  · refine ⟨⟨fun g hg => ?_, by simp, fun o _ => by simp⟩, ?_⟩
    · have hg' := floor_of_pipeline_resolved hg
      rw [KeyState.pipeline_resolved_committed]
      exact Nat.lt_of_not_le (fun hle => hfl ⟨g, hg', hle⟩)
    · intro o ho
      cases ho
      exact ⟨rfl, hfl, by simp⟩
  · exact ⟨⟨hfloor, rfl, fun _ _ => rfl⟩, by simp⟩

theorem stays_resolve (h : Counts s) (hs : Stays s) (i : Nat) : Stays (s.resolve i) := by
  unfold resolve
  split
  · exact hs
  rename_i a hi
  split
  · -- the key is gone: the append fails
    refine ⟨hs.floor, fun j b o hj hok htr => ?_⟩
    rcases (s.get_finish i _ j b).mp hj with ⟨-, hj⟩ | ⟨-, c, -, rfl⟩
    · exact hs.kept j b o hj hok htr
    · cases hok
  · rename_i met ks hphase hkey
    have hks : s.ks = ks := by simp [Pipeline.ks, hkey]
    have ha : a.unresolved = true := by simp [Append.unresolved, hphase]
    have hkept := hs.kept
    have hacked := h.acked
    have hpresent := h.present i a hi ha
    rw [hks] at hkept hacked hpresent
    rcases hres : ks.resolve a.offset met with ⟨r, ks'⟩
    obtain ⟨hturn, hok⟩ := turned_of_resolve hres (hks ▸ hs.floor) (hks ▸ h.above i a hi ha)
    rcases r with _ | outcome
    · exact hs
    · refine ⟨hturn.floor, fun j b o hj hphase htr => ?_⟩
      have htr' : ks.truncated < o := hturn.truncated ▸ htr
      show ks'.entries[o]? = some b.record
      rcases (s.get_finish i _ j b).mp hj with ⟨-, hj⟩ | ⟨rfl, c, hc, rfl⟩
      · rw [hturn.entries o (hacked j b o hj hphase).2]
        exact hkept j b o hj hphase htr'
      · rw [hi] at hc
        cases hc
        cases hphase
        -- it commits, with its record still staged
        obtain ⟨rfl, hfl, hsame⟩ := hok o rfl
        rw [hsame]
        exact hpresent hfl
  · exact hs

theorem stays_step (log : ClusterLog) (h : Counts s) (hs : Stays s) (step : Step)
    (hseed : ∀ entries floor seq_floor, step ≠ .Seed entries floor seq_floor) :
    Stays (Pipeline.step log s step) := by
  cases step with
  | Submit record tier => exact stays_submit h hs record tier
  | Own i ok => exact stays_acks hs i _ (fun a => own_done_keeps log a ok)
  | Follower i f ok => exact stays_acks hs i _ (fun a => follower_done_keeps log a f ok)
  | Resolve i => exact stays_resolve h hs i
  | Truncate up_to =>
    simp only [Pipeline.step]
    rcases hkey : s.key with _ | ks
    · have hsame : { s with key := Option.map (fun ks : KeyState => ks.truncate up_to) none } = s := by
        rw [Option.map_none, ← hkey]
      rw [hsame]
      exact hs
    · exact stays_drop hs hkey _ s.truncates
  | TruncateDurable up_to =>
    have hframe := truncate_durable_frame log s up_to
    refine ⟨?_, ?_⟩
    · rw [Pipeline.ks, hframe.2]
      exact hs.floor
    · rw [Pipeline.ks, hframe.1, hframe.2]
      exact hs.kept
  | TruncateAcked k own acked =>
    simp only [Pipeline.step]
    unfold truncate_acked
    split
    · exact hs
    · split
      · rcases hkey : s.key with _ | ks
        · refine ⟨?_, ?_⟩
          · have hfloor := hs.floor
            rw [Pipeline.ks, hkey] at hfloor
            exact hfloor
          · have hkept := hs.kept
            rw [Pipeline.ks, hkey] at hkept
            exact hkept
        · exact stays_drop hs hkey _ _
      · exact ⟨hs.floor, hs.kept⟩
  | Seed entries floor seq_floor => exact absurd rfl (hseed entries floor seq_floor)

/-- What stands at or below the watermark after a step stood there before it. -/
theorem entry_of_step (log : ClusterLog) (h : Counts s) (step : Step)
    (hseed : ∀ entries floor seq_floor, step ≠ .Seed entries floor seq_floor) {o : Offset}
    {r : Bytes} (hle : o ≤ s.ks.committed)
    (hr : (Pipeline.step log s step).ks.entries[o]? = some r) : s.ks.entries[o]? = some r := by
  by_cases hquiet : Quiet step
  · exact ((eases_step log h step hquiet).entries o r hr).1
  · cases step with
    | Submit record tier =>
      have hent : (Pipeline.step log s (.Submit record tier)).ks.entries =
          s.ks.entries.insert (s.ks.stage record).1 record := rfl
      have hlt := (stage_offset s.ks record).2
      rw [hent, BTreeMap.get_insert, if_neg ?_] at hr
      · exact hr
      · intro heq
        rw [heq] at hlt
        exact absurd hlt (Nat.not_lt.mpr hle)
    | Seed entries floor seq_floor => exact absurd rfl (hseed entries floor seq_floor)
    | _ => exact absurd trivial hquiet

theorem entry_or_submitted (log : ClusterLog) (h : Counts s) (step : Step)
    (hseed : ∀ entries floor seq_floor, step ≠ .Seed entries floor seq_floor) {o : Offset}
    {r : Bytes} (hr : (Pipeline.step log s step).ks.entries[o]? = some r) :
    s.ks.entries[o]? = some r ∨ ∃ tier, step = .Submit r tier := by
  by_cases hquiet : Quiet step
  · exact .inl ((eases_step log h step hquiet).entries o r hr).1
  · cases step with
    | Submit record tier =>
      have hent : (Pipeline.step log s (.Submit record tier)).ks.entries =
          s.ks.entries.insert (s.ks.stage record).1 record := rfl
      rw [hent, BTreeMap.get_insert] at hr
      split at hr
      · cases hr
        exact .inr ⟨tier, rfl⟩
      · exact .inl hr
    | Seed entries floor seq_floor => exact absurd rfl (hseed entries floor seq_floor)
    | _ => exact absurd trivial hquiet

theorem resolve_turn (s : Pipeline) (i : Nat) :
    s.resolve i = s ∨ ∃ a outcome key, s.appends[i]? = some a ∧ a.unresolved = true ∧
      key.isSome = s.key.isSome ∧
      s.resolve i = { s with key := key, appends := s.finish i outcome } := by
  rcases hi : s.appends[i]? with _ | a
  · exact .inl (by simp only [resolve, hi])
  rcases hphase : a.phase with _ | _ | met | _
  · exact .inl (by simp only [resolve, hi, hphase])
  · exact .inl (by simp only [resolve, hi, hphase])
  · have ha : a.unresolved = true := by simp [Append.unresolved, hphase]
    rcases hkey : s.key with _ | ks
    · exact .inr ⟨a, .error .NoQuorum, none, rfl, ha, rfl,
        by simp only [resolve, hi, hphase, hkey]⟩
    · rcases hres : ks.resolve a.offset met with ⟨_ | outcome, ks'⟩
      · exact .inl (by simp only [resolve, hi, hphase, hkey, hres])
      · exact .inr ⟨a, outcome, some ks', rfl, ha, rfl,
          by simp only [resolve, hi, hphase, hkey, hres]⟩
  · exact .inl (by simp only [resolve, hi, hphase])

theorem ended_step (log : ClusterLog) (step : Step) {i : Nat} {a : Append}
    (hi : s.appends[i]? = some a) (ha : a.unresolved = false) :
    (Pipeline.step log s step).appends[i]? = some a := by
  by_cases hne : ∀ k, step ≠ .Resolve k
  · obtain ⟨b, hb, hk⟩ := (step_frame log s step hne).1 i a hi
    rw [hk.ended ha] at hb
    exact hb
  · simp only [not_forall, not_not] at hne
    obtain ⟨k, rfl⟩ := hne
    show (s.resolve k).appends[i]? = some a
    rcases resolve_turn s k with heq | ⟨c, outcome, key, hk, hc, -, heq⟩
    · rw [heq]
      exact hi
    · -- the append that has its turn has no outcome yet
      rw [heq]
      refine (s.get_finish k outcome i a).mpr (.inl ⟨?_, hi⟩)
      rintro rfl
      rw [hi] at hk
      cases hk
      rw [ha] at hc
      cases hc

/-- An append after a step was there before, unless it is the one that was submitted. One that
has not failed had not failed before. -/
theorem append_of_step (log : ClusterLog) (h : Counts s) (step : Step) {i : Nat} {b : Append}
    (hlt : i < s.appends.length) (hi : (Pipeline.step log s step).appends[i]? = some b) :
    ∃ a, s.appends[i]? = some a ∧ a.offset = b.offset ∧ (b.failed = false → a.failed = false) := by
  obtain ⟨a, ha⟩ : ∃ a, s.appends[i]? = some a := ⟨_, List.getElem?_eq_getElem hlt⟩
  obtain ⟨b', hb', hsame⟩ := step_keeps_op log h step ha
  rw [hi] at hb'
  cases hb'
  refine ⟨a, ha, hsame.offset.symm, fun hb => ?_⟩
  by_cases hu : a.unresolved = true
  · exact Append.not_failed_of_unresolved hu
  · have hsame' := ended_step log step ha (by simpa using hu)
    rw [hi] at hsame'
    cases hsame'
    exact hb

end Pipeline

end mqtt_cluster.cluster_log
