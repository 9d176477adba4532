-- What a recovery reads of a replica, and the log that it merges from the reads
-- (`merge_replica_logs_tagged` in `cluster_log.rs`): an entry is recovered
-- exactly when the copies have no hole and no older attempt on the way to it.
import MqttBroker.Cluster.Pipeline
import MqttBroker.Cluster.Slots

namespace mqtt_cluster.cluster_log

open placement mqtt_storage.repl

/-! ## A read -/

namespace EpochEntry

def tag (e : EpochEntry) : Tag := cluster_log.tag e.epoch e.seq

def of (offset : Offset) (v : Stored) : EpochEntry :=
  { epoch := v.1.epoch, seq := v.1.seq, offset, record := v.2 }

@[simp] theorem of_offset (offset : Offset) (v : Stored) : (of offset v).offset = offset := rfl
@[simp] theorem of_record (offset : Offset) (v : Stored) : (of offset v).record = v.2 := rfl
@[simp] theorem of_tag (offset : Offset) (v : Stored) : (of offset v).tag = v.1 := rfl

theorem of_eta (e : EpochEntry) : of e.offset (e.tag, e.record) = e := rfl

end EpochEntry

structure ReplicaRead where
  watermark : Offset := 0
  complete : Bool := false
  entries : List EpochEntry := []
  deriving DecidableEq, Repr

namespace ReplicaState

/-- The stored entries of a key with their tags, in offset order. -/
def epoch_entries (s : ReplicaState) (key : String) : List EpochEntry :=
  (logOf s.logs key).toList.map (fun x => EpochEntry.of x.1 x.2)

theorem mem_epoch_entries (s : ReplicaState) (key : String) (e : EpochEntry) :
    e ∈ s.epoch_entries key ↔ held s.logs key e.offset = some (e.tag, e.record) := by
  unfold epoch_entries
  rw [List.mem_map]
  constructor
  · rintro ⟨x, hx, rfl⟩
    exact (BTreeMap.mem_toList _ _ _).mp hx
  · intro h
    exact ⟨(e.offset, (e.tag, e.record)), (BTreeMap.mem_toList _ _ _).mpr h, e.of_eta⟩

def keys (s : ReplicaState) : List String :=
  (s.logs.toList.filter (fun x => !x.2.isEmpty)).map (fun x => x.1)

/-- The stored offsets of a key run without a gap from just above its low-water. -/
def complete (s : ReplicaState) (key : String) : Bool :=
  match s.logs[key]? with
  | none => true
  | some log =>
    (log.keys.foldl (fun (expected : Option Offset) offset =>
      match expected with
      | none => none
      | some e => if offset < e then some e else if offset ≠ e then none else some (e + 1))
      (some (s.watermark key + 1))).isSome

/-- What a replica answers a recovery read with. `current` says whether it is stamped as caught
up for the set of the key's group. -/
def read (s : ReplicaState) (key : String) (current : Bool) : ReplicaRead where
  watermark := s.watermark key
  complete := s.complete key && current
  entries := s.epoch_entries key

end ReplicaState

/-! ## The merge -/

def low_water (reads : List ReplicaRead) : Offset :=
  reads.foldl (fun low r => max low r.watermark) 0

/-- Puts an entry above the low-water in its place, unless one at least as new is there. -/
def merge_entry (low : Offset) (by_offset : BTreeMap Offset Stored) (e : EpochEntry) :
    BTreeMap Offset Stored :=
  if low < e.offset then
    match by_offset[e.offset]? with
    | some v => if v.1 < e.tag then by_offset.insert e.offset (e.tag, e.record) else by_offset
    | none => by_offset.insert e.offset (e.tag, e.record)
  else by_offset

/-- The newest version of every offset above the low-water. -/
def newest (reads : List ReplicaRead) : BTreeMap Offset Stored :=
  reads.foldl (fun m r => r.entries.foldl (merge_entry (low_water reads)) m) ∅

/-- The run from the lowest offset, up to the first gap or the first tag below the one before. -/
def run_of (expected : Option Offset) (high : Option Tag) : List (Offset × Stored) → List EpochEntry
  | [] => []
  | (offset, v) :: rest =>
    if expected.any (fun e => offset ≠ e) then []
    else if high.any (fun h => v.1 < h) then []
    else EpochEntry.of offset v :: run_of (some (offset + 1)) (some v.1) rest

def merge_replica_logs_tagged (reads : List ReplicaRead) : List EpochEntry :=
  run_of none none (newest reads).toList

def merge_replica_logs (reads : List ReplicaRead) : List LogEntry :=
  (merge_replica_logs_tagged reads).map (fun e => { offset := e.offset, record := e.record })

/-! ## What the merge returns -/

variable {reads : List ReplicaRead}

theorem low_water_le {r : ReplicaRead} (h : r ∈ reads) : r.watermark ≤ low_water reads := by
  have hfold : ∀ (reads : List ReplicaRead) (low : Offset),
      low ≤ reads.foldl (fun low r => max low r.watermark) low ∧
        ∀ r ∈ reads, r.watermark ≤ reads.foldl (fun low r => max low r.watermark) low := by
    intro reads
    induction reads with
    | nil => exact fun low => ⟨Nat.le_refl _, by simp⟩
    | cons x reads ih =>
      intro low
      obtain ⟨h1, h2⟩ := ih (max low x.watermark)
      refine ⟨Nat.le_trans (Nat.le_max_left _ _) h1, fun r hr => ?_⟩
      rcases List.mem_cons.mp hr with rfl | hr
      · exact Nat.le_trans (Nat.le_max_right _ _) h1
      · exact h2 r hr
  exact (hfold reads 0).2 r h

theorem low_water_mem (reads : List ReplicaRead) :
    low_water reads = 0 ∨ ∃ r ∈ reads, r.watermark = low_water reads := by
  have hfold : ∀ (reads : List ReplicaRead) (low : Offset),
      reads.foldl (fun low r => max low r.watermark) low = low ∨
        ∃ r ∈ reads, r.watermark = reads.foldl (fun low r => max low r.watermark) low := by
    intro reads
    induction reads with
    | nil => exact fun low => Or.inl rfl
    | cons x reads ih =>
      intro low
      rw [List.foldl_cons]
      rcases ih (max low x.watermark) with heq | ⟨r, hr, hw⟩
      · rw [heq]
        rcases Nat.le_total low x.watermark with hle | hle
        · rw [Nat.max_eq_right hle]
          exact Or.inr ⟨x, List.mem_cons_self, rfl⟩
        · rw [Nat.max_eq_left hle]
          exact Or.inl rfl
      · exact Or.inr ⟨r, List.mem_cons_of_mem x hr, hw⟩
  exact hfold reads 0

def Has (reads : List ReplicaRead) (e : EpochEntry) : Prop := ∃ r ∈ reads, e ∈ r.entries

/-- The map holds the newest of the entries above the low-water. -/
structure Newest (low : Offset) (es : EpochEntry → Prop) (m : BTreeMap Offset Stored) : Prop where
  mem : ∀ (o : Offset) v, m[o]? = some v → low < o ∧ es (EpochEntry.of o v)
  ge : ∀ e, es e → low < e.offset → ∃ v, m[e.offset]? = some v ∧ e.tag ≤ v.1

variable {low : Offset} {es : EpochEntry → Prop} {m : BTreeMap Offset Stored}

theorem newest_entry (h : Newest low es m) (e : EpochEntry) :
    Newest low (fun x => es x ∨ x = e) (merge_entry low m e) := by
  unfold merge_entry
  split
  · rename_i hlow
    -- The version that is there decides whether the entry goes in.
    have hput : (∀ v, m[e.offset]? = some v → v.1 < e.tag) →
        Newest low (fun x => es x ∨ x = e) (m.insert e.offset (e.tag, e.record)) := by
      intro hlt
      refine ⟨fun o v hv => ?_, fun x hx hxl => ?_⟩
      · rw [BTreeMap.get_insert] at hv
        split at hv
        · rename_i ho
          cases hv
          subst ho
          exact ⟨hlow, Or.inr e.of_eta⟩
        · exact ⟨(h.mem o v hv).1, Or.inl (h.mem o v hv).2⟩
      · rw [BTreeMap.get_insert]
        by_cases ho : e.offset = x.offset
        · rw [if_pos ho]
          refine ⟨_, rfl, ?_⟩
          rcases hx with hx | rfl
          · obtain ⟨v, hv, hle⟩ := h.ge x hx hxl
            rw [← ho] at hv
            exact le_trans hle (le_of_lt (hlt v hv))
          · exact le_refl _
        · rw [if_neg ho]
          rcases hx with hx | rfl
          · exact h.ge x hx hxl
          · exact absurd rfl ho
    rcases hm : m[e.offset]? with _ | v
    · exact hput (by simp [hm])
    · dsimp only
      split
      · rename_i hlt
        refine hput (fun w hw => ?_)
        rw [hm] at hw
        cases hw
        exact hlt
      · rename_i hge
        refine ⟨fun o w hw => ⟨(h.mem o w hw).1, Or.inl (h.mem o w hw).2⟩, fun x hx hxl => ?_⟩
        rcases hx with hx | rfl
        · exact h.ge x hx hxl
        · exact ⟨v, hm, le_of_not_gt hge⟩
  · rename_i hlow
    refine ⟨fun o w hw => ⟨(h.mem o w hw).1, Or.inl (h.mem o w hw).2⟩, fun x hx hxl => ?_⟩
    rcases hx with hx | rfl
    · exact h.ge x hx hxl
    · exact absurd hxl hlow

theorem newest_entries (entries : List EpochEntry) (h : Newest low es m) :
    Newest low (fun x => es x ∨ x ∈ entries) (entries.foldl (merge_entry low) m) := by
  induction entries generalizing es m with
  | nil => simpa using h
  | cons e entries ih =>
    have hrest := ih (newest_entry h e)
    simpa only [List.foldl_cons, List.mem_cons, or_assoc] using hrest

theorem newest_spec (reads : List ReplicaRead) :
    Newest (low_water reads) (Has reads) (newest reads) := by
  have hfold : ∀ (rs : List ReplicaRead) {es : EpochEntry → Prop} {m : BTreeMap Offset Stored},
      Newest (low_water reads) es m →
      Newest (low_water reads) (fun x => es x ∨ ∃ r ∈ rs, x ∈ r.entries)
        (rs.foldl (fun m r => r.entries.foldl (merge_entry (low_water reads)) m) m) := by
    intro rs
    induction rs with
    | nil =>
      intro es m h
      simpa using h
    | cons r rs ih =>
      intro es m h
      have hrest := ih (newest_entries r.entries h)
      simpa only [List.foldl_cons, List.mem_cons, exists_eq_or_imp, or_assoc] using hrest
  have hstart : Newest (low_water reads) (fun _ => False) ∅ := ⟨by simp, by simp⟩
  have h := hfold reads hstart
  simp only [false_or] at h
  exact h

/-- The head of the list goes on from `expected` and `high`. -/
def Starts (expected : Option Offset) (high : Option Tag) : List (Offset × Stored) → Prop
  | [] => True
  | x :: _ => expected.all (fun e => x.1 = e) = true ∧ high.all (fun h => h ≤ x.2.1) = true

/-- Below the offset, whatever is in the list is followed by the next offset at a tag that is
not lower. -/
def Unbroken (l : List (Offset × Stored)) (offset : Offset) : Prop :=
  ∀ x ∈ l, x.1 < offset → ∃ y ∈ l, y.1 = x.1 + 1 ∧ x.2.1 ≤ y.2.1

theorem mem_run_of (l : List (Offset × Stored)) (hs : l.Pairwise (fun a b => a.1 < b.1))
    (expected : Option Offset) (high : Option Tag) (offset : Offset) (v : Stored) :
    EpochEntry.of offset v ∈ run_of expected high l ↔
      (offset, v) ∈ l ∧ Starts expected high l ∧ Unbroken l offset := by
  induction l generalizing expected high with
  | nil => simp [run_of]
  | cons x rest ih =>
    obtain ⟨hlt, hrest⟩ := List.pairwise_cons.mp hs
    have hof : ∀ {o o' : Offset} {w w' : Stored}, EpochEntry.of o w = EpochEntry.of o' w' →
        o = o' ∧ w = w' := by
      intro o o' w w' h
      have h1 := congrArg EpochEntry.offset h
      have h2 := congrArg EpochEntry.tag h
      have h3 := congrArg EpochEntry.record h
      exact ⟨h1, Prod.ext h2 h3⟩
    obtain ⟨h, w⟩ := x
    unfold run_of
    split
    · rename_i hexp
      simp only [List.not_mem_nil, false_iff, not_and]
      rintro - ⟨hst, -⟩
      rcases expected with _ | e
      · simp at hexp
      · simp only [Option.any_some, ne_eq, decide_not, Bool.not_eq_true', decide_eq_false_iff_not] at hexp
        simp only [Option.all_some, decide_eq_true_eq] at hst
        exact absurd hst hexp
    · rename_i hexp
      split
      · rename_i hhigh
        simp only [List.not_mem_nil, false_iff, not_and]
        rintro - ⟨-, hst⟩
        rcases high with _ | t
        · simp at hhigh
        · simp only [Option.any_some, decide_eq_true_eq] at hhigh
          simp only [Option.all_some, decide_eq_true_eq] at hst
          exact absurd hst (not_le_of_gt hhigh)
      · rename_i hhigh
        have hstart : Starts expected high ((h, w) :: rest) := by
          constructor
          · rcases expected with _ | e
            · rfl
            · simpa using hexp
          · rcases high with _ | t
            · rfl
            · simpa using hhigh
        rw [List.mem_cons, ih hrest]
        constructor
        · rintro (heq | ⟨hmem, hst, hun⟩)
          · obtain ⟨rfl, rfl⟩ := hof heq
            refine ⟨List.mem_cons_self, hstart, fun y hy hlow => ?_⟩
            rcases List.mem_cons.mp hy with rfl | hy
            · exact absurd hlow (Nat.lt_irrefl _)
            · exact absurd (Nat.lt_trans (hlt y hy) hlow) (Nat.lt_irrefl _)
          · refine ⟨List.mem_cons_of_mem _ hmem, hstart, fun y hy hlow => ?_⟩
            rcases List.mem_cons.mp hy with rfl | hy
            · -- The rest is not empty, so it starts right above the head.
              rcases rest with _ | ⟨z, rest⟩
              · simp at hmem
              · simp only [Starts, Option.all_some, decide_eq_true_eq] at hst
                exact ⟨z, by simp, hst.1, hst.2⟩
            · obtain ⟨z, hz, hz1, hz2⟩ := hun y hy hlow
              exact ⟨z, List.mem_cons_of_mem _ hz, hz1, hz2⟩
        · rintro ⟨hmem, -, hun⟩
          rcases List.mem_cons.mp hmem with heq | hmem
          · cases heq
            exact Or.inl rfl
          · right
            have hho : h < offset := hlt _ hmem
            obtain ⟨y, hy, hy1, hy2⟩ := hun (h, w) List.mem_cons_self hho
            have hyrest : y ∈ rest := by
              rcases List.mem_cons.mp hy with rfl | hy
              · exact absurd hy1 (Nat.ne_of_lt (Nat.lt_succ_self _))
              · exact hy
            refine ⟨hmem, ?_, fun z hz hlow => ?_⟩
            · rcases rest with _ | ⟨z, rest⟩
              · trivial
              · have hz : z = y := by
                  rcases List.mem_cons.mp hyrest with rfl | hlater
                  · rfl
                  · have h1 := (List.pairwise_cons.mp hrest).1 y hlater
                    have h2 := hlt z List.mem_cons_self
                    have h3 : y.1 = h + 1 := hy1
                    unfold Offset at *
                    omega
                subst hz
                simp only [Starts, Option.all_some, decide_eq_true_eq]
                exact ⟨hy1, hy2⟩
            · obtain ⟨z', hz', hz1, hz2⟩ := hun z (List.mem_cons_of_mem _ hz) hlow
              refine ⟨z', ?_, hz1, hz2⟩
              rcases List.mem_cons.mp hz' with rfl | hz'
              · have hlt' := hlt z hz
                have h3 : h = z.1 + 1 := hz1
                unfold Offset at *
                omega
              · exact hz'

/-- On the way to the offset, whatever some read has above the low-water is followed by an
entry of some read at the next offset, with a tag that is not lower. -/
def HoleFree (reads : List ReplicaRead) (offset : Offset) : Prop :=
  ∀ e, Has reads e → low_water reads < e.offset → e.offset < offset →
    ∃ e', Has reads e' ∧ e'.offset = e.offset + 1 ∧ e.tag ≤ e'.tag

/-- An entry is merged exactly when it is the newest of its offset, above the low-water, and
the reads have no hole below it. -/
theorem mem_merge (reads : List ReplicaRead) (e : EpochEntry) :
    e ∈ merge_replica_logs_tagged reads ↔
      (newest reads)[e.offset]? = some (e.tag, e.record) ∧ HoleFree reads e.offset := by
  have hspec := newest_spec reads
  unfold merge_replica_logs_tagged
  rw [← e.of_eta, mem_run_of _ (BTreeMap.toList_sorted _), BTreeMap.mem_toList]
  simp only [EpochEntry.of_offset, EpochEntry.of_tag, EpochEntry.of_record]
  have hstart : Starts none none (newest reads).toList := by
    rcases (newest reads).toList with _ | ⟨x, l⟩
    · trivial
    · exact ⟨rfl, rfl⟩
  refine and_congr_right (fun _ => ?_)
  constructor
  · rintro ⟨-, hun⟩ x hx hlow hlt
    obtain ⟨v, hv, hle⟩ := hspec.ge x hx hlow
    obtain ⟨y, hy, hy1, hy2⟩ := hun (x.offset, v) ((BTreeMap.mem_toList _ _ _).mpr hv) hlt
    have hyget := (BTreeMap.mem_toList _ _ _).mp hy
    exact ⟨EpochEntry.of y.1 y.2, (hspec.mem y.1 y.2 hyget).2, hy1, le_trans hle hy2⟩
  · intro hfree
    refine ⟨hstart, fun x hx hlt => ?_⟩
    have hxget := (BTreeMap.mem_toList _ _ _).mp hx
    obtain ⟨hlow, hhas⟩ := hspec.mem x.1 x.2 hxget
    obtain ⟨e', he', ho, hle⟩ := hfree _ hhas hlow hlt
    have hlow' : low_water reads < e'.offset := by
      rw [ho]
      exact Nat.lt_succ_of_lt hlow
    obtain ⟨v, hv, hge⟩ := hspec.ge e' he' hlow'
    exact ⟨(e'.offset, v), (BTreeMap.mem_toList _ _ _).mpr hv, ho, le_trans hle hge⟩

/-! ## The merge as the longest run -/

/-- Reads of one attempt at an offset carry one record. -/
def Consistent (reads : List ReplicaRead) : Prop :=
  ∀ e e', Has reads e → Has reads e' → e.offset = e'.offset → e.tag = e'.tag → e.record = e'.record

/-- The entry is the newest that any read has at its offset, above the low-water. -/
structure IsNewest (reads : List ReplicaRead) (e : EpochEntry) : Prop where
  has : Has reads e
  above : low_water reads < e.offset
  ge : ∀ x, Has reads x → x.offset = e.offset → x.tag ≤ e.tag

/-- A run of the newest entries, from the lowest offset above the low-water on, without a gap
and without a tag below the one before. -/
structure IsRun (reads : List ReplicaRead) (run : List EpochEntry) : Prop where
  newest : ∀ e ∈ run, IsNewest reads e
  starts : ∀ e ∈ run.head?, ∀ x, Has reads x → low_water reads < x.offset → e.offset ≤ x.offset
  gapless : run.IsChain (fun a b => b.offset = a.offset + 1)
  rising : run.IsChain (fun a b => a.tag ≤ b.tag)

theorem mem_newest (reads : List ReplicaRead) {x : Offset × Stored} (h : x ∈ (newest reads).toList) :
    IsNewest reads (EpochEntry.of x.1 x.2) := by
  have hspec := newest_spec reads
  have hget := (BTreeMap.mem_toList _ _ _).mp h
  obtain ⟨hlow, hhas⟩ := hspec.mem x.1 x.2 hget
  refine ⟨hhas, hlow, fun y hy ho => ?_⟩
  obtain ⟨v, hv, hle⟩ := hspec.ge y hy (by rw [ho]; exact hlow)
  rw [ho, EpochEntry.of_offset, hget] at hv
  exact hle.trans (le_of_eq (congrArg Prod.fst (Option.some.inj hv).symm))

/-- Whatever the reads have of the attempt carries its record. -/
def OneRecord (reads : List ReplicaRead) (e : EpochEntry) : Prop :=
  ∀ x, Has reads x → e.offset = x.offset → e.tag = x.tag → e.record = x.record

theorem newest_mem {e : EpochEntry} (h : IsNewest reads e) (hone : OneRecord reads e) :
    (e.offset, (e.tag, e.record)) ∈ (newest reads).toList := by
  have hspec := newest_spec reads
  rw [BTreeMap.mem_toList]
  obtain ⟨v, hv, hle⟩ := hspec.ge e h.has h.above
  have hhas := (hspec.mem e.offset v hv).2
  have htag : e.tag = v.1 := le_antisymm hle (h.ge _ hhas rfl)
  have hrecord : e.record = v.2 := hone _ hhas rfl htag
  rw [hv, htag, hrecord]

theorem run_of_chain (l : List (Offset × Stored)) (expected : Option Offset) (high : Option Tag) :
    (run_of expected high l).IsChain (fun a b => b.offset = a.offset + 1) ∧
      (run_of expected high l).IsChain (fun a b => a.tag ≤ b.tag) ∧
      ∀ e ∈ (run_of expected high l).head?, (∀ o ∈ expected, e.offset = o) ∧ ∀ t ∈ high, t ≤ e.tag := by
  induction l generalizing expected high with
  | nil => simp [run_of]
  | cons x rest ih =>
    obtain ⟨offset, v⟩ := x
    obtain ⟨hgap, htag, hhead⟩ := ih (some (offset + 1)) (some v.1)
    unfold run_of
    split
    · simp
    · rename_i hexp
      split
      · simp
      · rename_i hhigh
        refine ⟨hgap.cons fun e he => (hhead e he).1 _ rfl,
          htag.cons fun e he => (hhead e he).2 _ rfl, ?_⟩
        rintro e he
        obtain rfl := Option.some.inj he
        refine ⟨?_, ?_⟩
        · rintro o rfl
          simpa using hexp
        · rintro t rfl
          simpa using hhigh

theorem run_of_prefix (l : List (Offset × Stored)) (expected : Option Offset) (high : Option Tag) :
    run_of expected high l <+: l.map (fun x => EpochEntry.of x.1 x.2) := by
  induction l generalizing expected high with
  | nil => simp [run_of]
  | cons x rest ih =>
    unfold run_of
    split
    · exact List.nil_prefix
    · split
      · exact List.nil_prefix
      · exact List.prefix_cons_inj _ |>.mpr (ih _ _)

theorem merge_isRun (reads : List ReplicaRead) : IsRun reads (merge_replica_logs_tagged reads) := by
  have hchain := run_of_chain (newest reads).toList none none
  have hpre := run_of_prefix (newest reads).toList none none
  have hsorted := BTreeMap.toList_sorted (newest reads)
  refine ⟨fun e he => ?_, fun e he x hx hlow => ?_, hchain.1, hchain.2.1⟩
  · obtain ⟨y, hy, rfl⟩ := List.mem_map.mp (hpre.subset he)
    exact mem_newest reads hy
  · -- The head of the run is that of the map.
    obtain ⟨v, hv, -⟩ := (newest_spec reads).ge x hx hlow
    have hmem := (BTreeMap.mem_toList (newest reads) _ _).mpr hv
    unfold merge_replica_logs_tagged at he
    rcases hl : (newest reads).toList with _ | ⟨y, rest⟩
    · rw [hl] at hmem
      cases hmem
    · rw [hl] at hmem hsorted hpre he
      have hhead : EpochEntry.of y.1 y.2 = e := by
        rcases hrun : run_of none none (y :: rest) with _ | ⟨z, run⟩
        · rw [hrun] at he
          cases he
        · rw [hrun] at he hpre
          exact (List.cons_prefix_cons.mp hpre).1.symm.trans (Option.some.inj he)
      rw [← hhead]
      rcases List.mem_cons.mp hmem with heq | hmem
      · exact le_of_eq (congrArg Prod.fst heq).symm
      · exact le_of_lt ((List.pairwise_cons.mp hsorted).1 _ hmem)

variable {run : List EpochEntry}

theorem gapless_sorted (h : run.IsChain (fun a b => b.offset = a.offset + 1)) :
    run.Pairwise (fun a b => a.offset < b.offset) := by
  have htrans : IsTrans EpochEntry fun a b => a.offset < b.offset := ⟨fun _ _ _ => Nat.lt_trans⟩
  exact (h.imp fun a b hnext => by rw [hnext]; exact Nat.lt_succ_self _).pairwise

/-- A run of entries of a map that goes on from `expected` and `high` is no longer than the one
that the merge takes. -/
theorem prefix_run_of (run : List EpochEntry) (l : List (Offset × Stored))
    (hs : l.Pairwise (fun a b => a.1 < b.1)) (expected : Option Offset) (high : Option Tag)
    (hmem : ∀ e ∈ run, (e.offset, (e.tag, e.record)) ∈ l)
    (hstart : ∀ e ∈ run.head?, (∀ x ∈ l, e.offset ≤ x.1) ∧ (∀ o ∈ expected, e.offset = o) ∧
      ∀ t ∈ high, t ≤ e.tag)
    (hgap : run.IsChain (fun a b => b.offset = a.offset + 1))
    (htag : run.IsChain (fun a b => a.tag ≤ b.tag)) : run <+: run_of expected high l := by
  induction run generalizing l expected high with
  | nil => exact List.nil_prefix
  | cons e run ih =>
    obtain ⟨hlow, hexp, hhigh⟩ := hstart e rfl
    have he := hmem e List.mem_cons_self
    rcases l with _ | ⟨x, rest⟩
    · cases he
    obtain ⟨hlt, hrest⟩ := List.pairwise_cons.mp hs
    -- The lowest entry of the map is the head of the run.
    have hx : x = (e.offset, (e.tag, e.record)) := by
      rcases List.mem_cons.mp he with heq | hin
      · exact heq.symm
      · exact absurd (hlt _ hin) (Nat.not_lt.mpr (hlow x List.mem_cons_self))
    subst hx
    unfold run_of
    rw [if_neg, if_neg]
    · refine List.cons_prefix_cons.mpr ⟨e.of_eta.symm, ih rest hrest _ _ ?_ ?_ hgap.tail htag.tail⟩
      · intro y hy
        refine (List.mem_cons.mp (hmem y (List.mem_cons_of_mem _ hy))).resolve_left fun heq => ?_
        have hlater : e.offset < y.offset :=
          (List.pairwise_cons.mp (gapless_sorted hgap)).1 y hy
        exact absurd (congrArg Prod.fst heq) (Nat.ne_of_gt hlater)
      · rintro y hy
        obtain ⟨run, rfl⟩ : ∃ tail, run = y :: tail := by
          cases run with
          | nil => cases hy
          | cons z run => exact ⟨run, by rw [Option.some.inj hy]⟩
        have hnext := (List.isChain_cons_cons.mp hgap).1
        refine ⟨fun z hz => ?_, ?_, ?_⟩
        · have hz := hlt z hz
          rw [hnext]
          exact hz
        · rintro o ⟨⟩
          exact hnext
        · rintro t ⟨⟩
          exact (List.isChain_cons_cons.mp htag).1
    · rcases high with _ | t
      · simp
      · simpa using hhigh t rfl
    · rcases expected with _ | o
      · simp
      · simpa using hexp o rfl

theorem isRun_prefix (h : IsRun reads run) (hone : ∀ e ∈ run, OneRecord reads e) :
    run <+: merge_replica_logs_tagged reads := by
  refine prefix_run_of run _ (BTreeMap.toList_sorted _) none none
    (fun e he => newest_mem (h.newest e he) (hone e he))
    (fun e he => ⟨fun x hx => ?_, nofun, nofun⟩) h.gapless h.rising
  have hx := mem_newest reads hx
  exact h.starts e he _ hx.has hx.above

theorem IsRun.oneRecord (h : IsRun reads run) (hc : Consistent reads) :
    ∀ e ∈ run, OneRecord reads e :=
  fun e he x hx => hc e x (h.newest e he).has hx

theorem isRun_congr {reads' : List ReplicaRead} (hsame : ∀ r, r ∈ reads' ↔ r ∈ reads)
    (h : IsRun reads' run) : IsRun reads run := by
  have hhas : ∀ e, Has reads' e ↔ Has reads e := by
    intro e
    unfold Has
    simp only [hsame]
  have hle : ∀ {a b : List ReplicaRead}, (∀ r, r ∈ a → r ∈ b) → low_water a ≤ low_water b := by
    intro a b hsub
    rcases low_water_mem a with h0 | ⟨r, hr, hw⟩
    · rw [h0]
      exact Nat.zero_le _
    · rw [← hw]
      exact low_water_le (hsub r hr)
  have hlow : low_water reads' = low_water reads :=
    Nat.le_antisymm (hle fun r => (hsame r).mp) (hle fun r => (hsame r).mpr)
  refine ⟨fun e he => ?_, fun e he x hx hxl => ?_, h.gapless, h.rising⟩
  · obtain ⟨h1, h2, h3⟩ := h.newest e he
    exact ⟨(hhas e).mp h1, hlow ▸ h2, fun x hx => h3 x ((hhas x).mpr hx)⟩
  · exact h.starts e he x ((hhas x).mpr hx) (hlow ▸ hxl)

/-- The merge is the longest run, whatever the order of the reads and however often one is
among them. -/
theorem the_merge_is_the_longest_run (reads : List ReplicaRead) (hc : Consistent reads) :
    (∀ reads', (∀ r, r ∈ reads' ↔ r ∈ reads) →
      merge_replica_logs_tagged reads' = merge_replica_logs_tagged reads) ∧
    IsRun reads (merge_replica_logs_tagged reads) ∧
    ∀ run, IsRun reads run → run <+: merge_replica_logs_tagged reads := by
  refine ⟨fun reads' hsame => ?_, merge_isRun reads, fun run h => isRun_prefix h (h.oneRecord hc)⟩
  have hc' : Consistent reads' := by
    rintro e e' ⟨r, hr, he⟩ ⟨r', hr', he'⟩
    exact hc e e' ⟨r, (hsame r).mp hr, he⟩ ⟨r', (hsame r').mp hr', he'⟩
  have hrun := isRun_congr hsame (merge_isRun reads')
  have hrun' := isRun_congr (fun r => (hsame r).symm) (merge_isRun reads)
  have h1 := isRun_prefix hrun (hrun.oneRecord hc)
  have h2 := isRun_prefix hrun' (hrun'.oneRecord hc')
  exact h1.eq_of_length_le h2.length_le

/-- Two copies that overlap, and a third that dropped the first offset, read in either order. -/
theorem the_newer_attempt_is_merged_in_any_order :
    merge_replica_logs_tagged
      [{ entries := [⟨1, 1, 1, [7]⟩, ⟨1, 2, 2, [8]⟩] }, { entries := [⟨1, 2, 2, [8]⟩, ⟨2, 1, 3, [9]⟩] },
        { watermark := 1 }] = [⟨1, 2, 2, [8]⟩, ⟨2, 1, 3, [9]⟩] ∧
    merge_replica_logs_tagged
      [{ watermark := 1 }, { entries := [⟨1, 2, 2, [8]⟩, ⟨2, 1, 3, [9]⟩] },
        { entries := [⟨1, 1, 1, [7]⟩, ⟨1, 2, 2, [8]⟩] }] = [⟨1, 2, 2, [8]⟩, ⟨2, 1, 3, [9]⟩] := by
  have hrun : merge_replica_logs_tagged
      [{ entries := [⟨1, 1, 1, [7]⟩, ⟨1, 2, 2, [8]⟩] }, { entries := [⟨1, 2, 2, [8]⟩, ⟨2, 1, 3, [9]⟩] },
        { watermark := 1 }] = [⟨1, 2, 2, [8]⟩, ⟨2, 1, 3, [9]⟩] := by decide +kernel
  refine ⟨hrun, ?_⟩
  refine ((the_merge_is_the_longest_run _ ?_).1 _ fun r => ?_).trans hrun
  · rintro e e' ⟨r, hr, he⟩ ⟨r', hr', he'⟩ ho ht
    simp only [List.mem_cons, List.not_mem_nil, or_false] at hr hr'
    rcases hr with rfl | rfl | rfl <;> rcases hr' with rfl | rfl | rfl <;>
      simp only [List.mem_cons, List.not_mem_nil, or_false] at he he' <;>
      first
        | (rcases he with rfl | rfl <;> rcases he' with rfl | rfl <;> first | rfl | cases ho)
  · simp only [List.mem_cons, List.not_mem_nil, or_false]
    tauto

end mqtt_cluster.cluster_log
