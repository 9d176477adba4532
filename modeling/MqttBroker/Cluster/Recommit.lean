-- A run that is committed again (`retag`, `seed_key`, and what `log_for_key` hands from one to
-- the other): its new tags rise along the offsets and are not below the old ones, so that a later
-- merge takes the whole run, and appends go on above what the epoch has used.
import MqttBroker.Cluster.Takeover

namespace mqtt_cluster.cluster_log

/-! ## The tags of a re-commit -/

theorem tag_lt_tag (epoch : Epoch) {seq seq' : Nat} (h : seq < seq') :
    tag epoch seq < tag epoch seq' := Prod.Lex.lt_iff.mpr (.inr ⟨rfl, h⟩)

/-- The entry committed again is the same one, at a tag that is not lower. -/
structure Again (e e' : EpochEntry) : Prop where
  offset : e'.offset = e.offset
  record : e'.record = e.record
  tag_le : e.tag ≤ e'.tag

section retag

variable {epoch : Epoch} {prev : Nat} {run : List EpochEntry}

theorem retag_epoch (prev : Nat) (run : List EpochEntry) :
    ∀ e ∈ retag epoch prev run, e.epoch = epoch := by
  induction run generalizing prev with
  | nil => simp [retag]
  | cons e run ih =>
    intro x hx
    rcases List.mem_cons.mp hx with rfl | hx
    · rfl
    · exact ih _ x hx

theorem lt_retag_seq (epoch : Epoch) (prev : Nat) (e : EpochEntry) :
    prev < if e.epoch = epoch then max e.seq (prev + 1) else prev + 1 := by
  split <;> omega

theorem retag_rising (epoch : Epoch) (prev : Nat) (run : List EpochEntry) :
    (∀ e ∈ retag epoch prev run, prev < e.seq) ∧
      (retag epoch prev run).Pairwise (fun a b => a.seq < b.seq) := by
  induction run generalizing prev with
  | nil => simp [retag]
  | cons e run ih =>
    have hfirst := lt_retag_seq epoch prev e
    obtain ⟨habove, hrest⟩ := ih (if e.epoch = epoch then max e.seq (prev + 1) else prev + 1)
    refine ⟨?_, List.pairwise_cons.mpr ⟨habove, hrest⟩⟩
    intro x hx
    rcases List.mem_cons.mp hx with rfl | hx
    · exact hfirst
    · exact Nat.lt_trans hfirst (habove x hx)

theorem retag_again (prev : Nat) (h : ∀ e ∈ run, e.epoch ≤ epoch) :
    List.Forall₂ Again run (retag epoch prev run) := by
  induction run generalizing prev with
  | nil => exact .nil
  | cons e run ih =>
    refine .cons ⟨rfl, rfl, ?_⟩ (ih _ fun x hx => h x (List.mem_cons_of_mem e hx))
    refine (tag_le_iff _ _ _ _).mpr ?_
    rcases Nat.eq_or_lt_of_le (h e List.mem_cons_self) with heq | hlt
    · exact .inr ⟨heq, by rw [if_pos heq]; exact Nat.le_max_left _ _⟩
    · exact .inl hlt

/-- A run that has the tags of a re-commit keeps them. -/
theorem retag_idem (prev : Nat) (run : List EpochEntry) :
    retag epoch prev (retag epoch prev run) = retag epoch prev run := by
  induction run generalizing prev with
  | nil => rfl
  | cons e run ih =>
    have hkept : max (if e.epoch = epoch then max e.seq (prev + 1) else prev + 1) (prev + 1) =
        if e.epoch = epoch then max e.seq (prev + 1) else prev + 1 :=
      Nat.max_eq_left (lt_retag_seq epoch prev e)
    simp only [retag, if_true, hkept, ih]

theorem mem_of_again {run again : List EpochEntry} (h : List.Forall₂ Again run again)
    {e' : EpochEntry} (he : e' ∈ again) : ∃ e ∈ run, Again e e' := by
  induction h with
  | nil => cases he
  | @cons e x run again hagain _ ih =>
    rcases List.mem_cons.mp he with rfl | he
    · exact ⟨e, List.mem_cons_self, hagain⟩
    · obtain ⟨y, hy, hyx⟩ := ih he
      exact ⟨y, List.mem_cons_of_mem e hy, hyx⟩

theorem chain_of_again {run again : List EpochEntry} (h : List.Forall₂ Again run again)
    {R : Offset → Offset → Prop} (hrun : run.IsChain (fun a b => R a.offset b.offset)) :
    again.IsChain (fun a b => R a.offset b.offset) := by
  have hoffsets : again.map EpochEntry.offset = run.map EpochEntry.offset := by
    induction h with
    | nil => rfl
    | cons hagain _ ih => rw [List.map_cons, List.map_cons, hagain.offset, ih hrun.tail]
  rw [← List.isChain_map EpochEntry.offset (R := R)] at hrun ⊢
  rw [hoffsets]
  exact hrun

end retag

/-! ## The merge of a re-commit -/

/-- The read is truncated below the run, and holds nothing below it. -/
def BeginsAbove (run : List EpochEntry) (r : ReplicaRead) : Prop :=
  ∀ first ∈ run.head?, r.watermark < first.offset ∧ ∀ x ∈ r.entries, first.offset ≤ x.offset

/-- Where the read has an offset of the run, it has no newer attempt, and of the same attempt
the same record. -/
def NoNewer (run : List EpochEntry) (r : ReplicaRead) : Prop :=
  ∀ x ∈ r.entries, ∀ e ∈ run, x.offset = e.offset →
    x.tag ≤ e.tag ∧ (x.tag = e.tag → x.record = e.record)

section merge

variable {reads : List ReplicaRead} {run again : List EpochEntry} {copy : ReplicaRead}

theorem tag_le_of_again (h : List.Forall₂ Again run again) (hheld : again ⊆ copy.entries)
    (hnodup : (copy.entries.map EpochEntry.offset).Nodup)
    (hnewer : ∀ r ∈ reads, r ≠ copy → NoNewer run r) {e' x : EpochEntry} (he : e' ∈ again)
    (hx : Has reads x) (ho : x.offset = e'.offset) :
    x.tag ≤ e'.tag ∧ (x.tag = e'.tag → x.record = e'.record) := by
  obtain ⟨r, hr, hxr⟩ := hx
  by_cases hcopy : r = copy
  · subst hcopy
    rw [List.inj_on_of_nodup_map hnodup hxr (hheld he) ho]
    exact ⟨le_refl _, fun _ => rfl⟩
  · obtain ⟨e, he, hagain⟩ := mem_of_again h he
    obtain ⟨hle, hrecord⟩ := hnewer r hr hcopy x hxr e he (ho.trans hagain.offset)
    refine ⟨hle.trans hagain.tag_le, fun htag => ?_⟩
    have heq : x.tag = e.tag := le_antisymm hle (htag ▸ hagain.tag_le)
    rw [hrecord heq, hagain.record]

theorem low_water_lt {first : Offset} (h : ∀ r ∈ reads, r.watermark < first) (hpos : 0 < first) :
    low_water reads < first := by
  rcases low_water_mem reads with hzero | ⟨r, hr, heq⟩
  · exact hzero ▸ hpos
  · exact heq ▸ h r hr

/-- Where no other read has a newer attempt, the re-commit that a copy holds whole is a run of
the reads. -/
theorem isRun_again (h : List.Forall₂ Again run again)
    (hgap : run.IsChain (fun a b => b.offset = a.offset + 1))
    (hrising : again.Pairwise (fun a b => a.tag < b.tag)) (hcopy : copy ∈ reads)
    (hheld : again ⊆ copy.entries) (hnodup : (copy.entries.map EpochEntry.offset).Nodup)
    (hbelow : ∀ r ∈ reads, BeginsAbove run r) (hnewer : ∀ r ∈ reads, r ≠ copy → NoNewer run r) :
    IsRun reads again ∧ ∀ e ∈ again, OneRecord reads e := by
  have htop : ∀ e' ∈ again, ∀ x, Has reads x → x.offset = e'.offset →
      x.tag ≤ e'.tag ∧ (x.tag = e'.tag → x.record = e'.record) :=
    fun e' he x hx ho => tag_le_of_again h hheld hnodup hnewer he hx ho
  refine ⟨⟨fun e' he => ⟨⟨copy, hcopy, hheld he⟩, ?_, fun x hx ho => (htop e' he x hx ho).1⟩, ?_,
    chain_of_again (R := fun a b => b = a + 1) h hgap,
    hrising.isChain.imp fun _ _ => le_of_lt⟩, ?_⟩
  · -- the low-water is below the first entry, and so below every entry
    obtain ⟨e, he', -⟩ := mem_of_again h he
    obtain ⟨first, hfirst⟩ : ∃ first, run.head? = some first :=
      ⟨_, List.head?_eq_some_head (List.ne_nil_of_mem he')⟩
    have hpos : 0 < first.offset := Nat.zero_lt_of_lt (hbelow copy hcopy first hfirst).1
    exact Nat.lt_of_lt_of_le (low_water_lt (fun r hr => (hbelow r hr first hfirst).1) hpos)
      ((hbelow copy hcopy first hfirst).2 e' (hheld he))
  · rintro e' he x ⟨r, hr, hx⟩ -
    cases h with
    | nil => cases he
    | cons hagain _ =>
      obtain rfl := Option.some.inj he
      exact hagain.offset ▸ (hbelow r hr _ rfl).2 x hx
  · intro e' he x hx ho htag
    exact ((htop e' he x hx ho.symm).2 htag.symm).symm

end merge

/-! ## The appends after it -/

/-- The highest seq that a recovery read at the epoch of the owner, as `log_for_key` takes it
from the highest tag. -/
def seq_floor (epoch : Epoch) (reads_high : Option Tag) : Nat :=
  ((reads_high.filter (fun t => t.epoch = epoch)).map Tag.seq).getD 0

theorem highest_tag_ge {reads : List ReplicaRead} {e : EpochEntry} (h : Has reads e) :
    ∃ x, Has reads x ∧ highest_tag reads = some x.tag ∧ e.tag ≤ x.tag := by
  obtain ⟨r, hr, he⟩ := h
  have hmem : e.tag ∈ (reads.flatMap (fun r => r.entries)).map EpochEntry.tag :=
    List.mem_map_of_mem (List.mem_flatMap.mpr ⟨r, hr, he⟩)
  cases hmax : highest_tag reads with
  | none =>
    rw [highest_tag, List.max?_eq_none_iff] at hmax
    rw [hmax] at hmem
    cases hmem
  | some t =>
    obtain ⟨hin, hge⟩ := List.max?_eq_some_iff.mp hmax
    obtain ⟨x, hx, rfl⟩ := List.mem_map.mp hin
    obtain ⟨r', hr', hx⟩ := List.mem_flatMap.mp hx
    exact ⟨x, ⟨r', hr', hx⟩, rfl, hge _ hmem⟩

theorem le_seq_floor {reads : List ReplicaRead} {epoch : Epoch}
    (hlatest : ∀ e, Has reads e → e.epoch ≤ epoch) {e : EpochEntry} (h : Has reads e)
    (hepoch : e.epoch = epoch) : e.seq ≤ seq_floor epoch (highest_tag reads) := by
  obtain ⟨x, hx, hmax, hle⟩ := highest_tag_ge h
  have hsame : x.tag.epoch = epoch :=
    Nat.le_antisymm (hlatest x hx) (hepoch ▸ epoch_le_of_le hle)
  rw [hmax, seq_floor, Option.filter_some, if_pos (by simpa using hsame)]
  rcases (tag_le_iff _ _ _ _).mp hle with hlt | ⟨-, hseq⟩
  · exact absurd hlt (by rw [hepoch]; exact Nat.not_lt.mpr (hlatest x hx))
  · exact hseq

theorem next_append_above_floor (s : Pipeline) (entries : List EpochEntry) (low : Offset)
    (floor : Nat) (hempty : s.ks.entries.isEmpty = true) (hcommitted : s.ks.committed = 0)
    (record : Bytes) (tier : mqtt_storage.repl.DurabilityTier) :
    ∃ a, ((s.seed_key entries low floor).submit_tiered record tier).appends = s.appends ++ [a] ∧
      floor < a.seq := by
  unfold Pipeline.seed_key
  split
  · rename_i hnothing
    have hfloor : floor = 0 := by simpa using (Bool.and_eq_true_iff.mp hnothing).2
    exact ⟨_, rfl, hfloor ▸ Nat.succ_pos _⟩
  · rw [if_neg (by simp [hempty, hcommitted])]
    exact ⟨_, rfl, Nat.lt_succ_of_le (Nat.le_max_right _ _)⟩

/-- A merged run that is committed again at an epoch not below its own takes tags of that epoch,
rising along the offsets and none below the one before it, once and for all; a merge that reads
a copy of it whole, and nowhere a newer attempt or another record of the same one, returns it
first; and where no read is of a later epoch, the append after the seed is above every attempt
of the epoch that was read. -/
theorem a_recommit_never_plants_a_dipping_tag (reads : List ReplicaRead) (epoch : Epoch)
    (h : ∀ e ∈ merge_replica_logs_tagged reads, e.epoch ≤ epoch) :
    let run := merge_replica_logs_tagged reads
    let again := retag epoch 0 run
    ((∀ e ∈ again, e.epoch = epoch) ∧
      again.Pairwise (fun a b => a.offset < b.offset ∧ a.seq < b.seq) ∧
      List.Forall₂ (fun e e' => e'.offset = e.offset ∧ e'.record = e.record ∧ e.tag ≤ e'.tag)
        run again ∧
      retag epoch 0 again = again) ∧
    (∀ (copies : List ReplicaRead), ∀ copy ∈ copies, again ⊆ copy.entries →
      (copy.entries.map EpochEntry.offset).Nodup →
      (∀ r ∈ copies, ∀ first ∈ run.head?, r.watermark < first.offset ∧
        ∀ x ∈ r.entries, first.offset ≤ x.offset) →
      (∀ r ∈ copies, r ≠ copy → ∀ x ∈ r.entries, ∀ e ∈ run, x.offset = e.offset →
        x.tag ≤ e.tag ∧ (x.tag = e.tag → x.record = e.record)) →
      again <+: merge_replica_logs_tagged copies) ∧
    ((∀ e, Has reads e → e.epoch ≤ epoch) →
      ∀ (s : Pipeline) record tier, s.ks.entries.isEmpty = true → s.ks.committed = 0 →
        ∃ a, ((s.seed_key again (low_water reads) (seq_floor epoch (highest_tag reads))
          ).submit_tiered record tier).appends = s.appends ++ [a] ∧
          ∀ e, Has reads e → e.epoch = epoch → e.tag < tag epoch a.seq) := by
  intro run again
  have hrun := merge_isRun reads
  have hagain : List.Forall₂ Again run again := retag_again 0 h
  have hepoch : ∀ e ∈ again, e.epoch = epoch := retag_epoch 0 run
  have hseq := (retag_rising epoch 0 run).2
  have hoffset : again.Pairwise (fun a b => a.offset < b.offset) :=
    gapless_sorted (chain_of_again (R := fun a b => b = a + 1) hagain hrun.gapless)
  have hrising : again.Pairwise (fun a b => a.tag < b.tag) := by
    refine hseq.imp_of_mem fun {a b} ha hb hlt => ?_
    rw [EpochEntry.tag, EpochEntry.tag, hepoch a ha, hepoch b hb]
    exact tag_lt_tag epoch hlt
  refine ⟨⟨hepoch, hoffset.and hseq, ?_, retag_idem 0 run⟩, ?_, ?_⟩
  · exact hagain.imp fun e e' x => ⟨x.offset, x.record, x.tag_le⟩
  · intro copies copy hcopy hheld hnodup hbelow hnewer
    obtain ⟨hisRun, hone⟩ :=
      isRun_again hagain hrun.gapless hrising hcopy hheld hnodup hbelow hnewer
    exact isRun_prefix hisRun hone
  · intro hlatest s record tier hempty hcommitted
    obtain ⟨a, happends, hfloor⟩ := next_append_above_floor s again (low_water reads)
      (seq_floor epoch (highest_tag reads)) hempty hcommitted record tier
    refine ⟨a, happends, fun e he hsame => ?_⟩
    rw [EpochEntry.tag, hsame]
    exact tag_lt_tag epoch (Nat.lt_of_le_of_lt (le_seq_floor hlatest he hsame) hfloor)

/-- A copy of an entry of epoch 1 and one of epoch 2. -/
def old_copy : ReplicaRead := { entries := [⟨1, 3, 4, [7]⟩, ⟨2, 4, 5, [8]⟩] }

def new_copy : ReplicaRead := { entries := retag 2 0 (merge_replica_logs_tagged [old_copy]) }

/-- Committed again at epoch 2, it is merged whole beside the old copy, and the next append is
above it. -/
theorem an_old_copy_is_committed_again :
    (∀ e ∈ merge_replica_logs_tagged [old_copy], e.epoch ≤ 2) ∧
    new_copy.entries <+: merge_replica_logs_tagged [old_copy, new_copy] ∧
    ∃ a, ((Pipeline.seed_key {} new_copy.entries (low_water [old_copy])
      (seq_floor 2 (highest_tag [old_copy]))).submit_tiered [9] .Quorum).appends = [a] ∧
      ∀ e, Has [old_copy] e → e.epoch = 2 → e.tag < tag 2 a.seq := by
  have hepochs : ∀ e ∈ merge_replica_logs_tagged [old_copy], e.epoch ≤ 2 := by decide +kernel
  have hrun : merge_replica_logs_tagged [old_copy] = old_copy.entries := by decide +kernel
  have hlatest : ∀ e, Has [old_copy] e → e.epoch ≤ 2 := by
    rintro e ⟨r, hr, he⟩
    rw [List.mem_singleton.mp hr, ← hrun] at he
    exact hepochs e he
  obtain ⟨-, hmerge, hnext⟩ := a_recommit_never_plants_a_dipping_tag [old_copy] 2 hepochs
  refine ⟨hepochs, hmerge [old_copy, new_copy] new_copy (by simp) (fun _ he => he)
    (by decide +kernel) ?_ ?_, hnext hlatest {} [9] .Quorum (by decide +kernel) rfl⟩
  · rw [hrun]
    decide +kernel
  · rw [hrun]
    decide +kernel

/-- A copy that is read first and has another record under the same tag takes its place; and an
attempt of a later epoch, out of the reach of the merge, hides the floor of this one. -/
theorem an_equal_tag_or_a_later_epoch_breaks_the_recommit :
    (¬ ∀ (reads : List ReplicaRead) (epoch : Epoch) (copies : List ReplicaRead),
      (∀ e ∈ merge_replica_logs_tagged reads, e.epoch ≤ epoch) → ∀ copy ∈ copies,
      copy.entries = retag epoch 0 (merge_replica_logs_tagged reads) →
      (∀ r ∈ copies, ∀ first ∈ (merge_replica_logs_tagged reads).head?,
        r.watermark < first.offset ∧ ∀ x ∈ r.entries, first.offset ≤ x.offset) →
      (∀ r ∈ copies, r ≠ copy → ∀ x ∈ r.entries, ∀ e ∈ merge_replica_logs_tagged reads,
        x.offset = e.offset → x.tag ≤ e.tag) →
      retag epoch 0 (merge_replica_logs_tagged reads) <+: merge_replica_logs_tagged copies) ∧
    ¬ ∀ (reads : List ReplicaRead) (epoch : Epoch),
      (∀ e ∈ merge_replica_logs_tagged reads, e.epoch ≤ epoch) → ∀ record tier,
        ∃ a, ((Pipeline.seed_key {} (retag epoch 0 (merge_replica_logs_tagged reads))
          (low_water reads) (seq_floor epoch (highest_tag reads))).submit_tiered record
            tier).appends = [a] ∧
          ∀ e, Has reads e → e.epoch = epoch → e.tag < tag epoch a.seq := by
  constructor
  · intro h
    have hone := h [{ entries := [⟨1, 1, 1, [7]⟩] }] 1
      [{ entries := [⟨1, 1, 1, [8]⟩] }, { entries := [⟨1, 1, 1, [7]⟩] }] (by decide +kernel)
      { entries := [⟨1, 1, 1, [7]⟩] } (by simp) (by decide +kernel) (by decide +kernel)
      (by decide +kernel)
    exact absurd hone (by decide +kernel)
  · intro h
    obtain ⟨a, ha, habove⟩ := h
      [{ entries := [⟨2, 1, 1, [7]⟩] }, { entries := [⟨2, 9, 3, [8]⟩, ⟨3, 1, 5, [9]⟩] }] 2
      (by decide +kernel) [0] .Quorum
    have hlow := habove ⟨2, 9, 3, [8]⟩ ⟨_, List.mem_cons_of_mem _ List.mem_cons_self, by simp⟩ rfl
    have hseq : a.seq = 2 := by
      have hcall : ((Pipeline.seed_key {} (retag 2 0 (merge_replica_logs_tagged
          [{ entries := [⟨2, 1, 1, [7]⟩] }, { entries := [⟨2, 9, 3, [8]⟩, ⟨3, 1, 5, [9]⟩] }]))
          (low_water [{ entries := [⟨2, 1, 1, [7]⟩] },
            { entries := [⟨2, 9, 3, [8]⟩, ⟨3, 1, 5, [9]⟩] }]) (seq_floor 2 (highest_tag
            [{ entries := [⟨2, 1, 1, [7]⟩] }, { entries := [⟨2, 9, 3, [8]⟩, ⟨3, 1, 5, [9]⟩] }]))
          ).submit_tiered [0] .Quorum).appends.map (·.seq) = [2] := by decide +kernel
      rw [ha] at hcall
      simpa using hcall
    rw [hseq] at hlow
    exact absurd hlow (by decide +kernel)

end mqtt_cluster.cluster_log
