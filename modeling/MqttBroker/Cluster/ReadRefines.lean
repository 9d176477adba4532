-- What a read of the cluster log gives (`ClusterLog::read`), beside the log in memory that has
-- the same entries appended, truncated and removed (`InMemoryReplicatedLog` of `repl.rs`).
import MqttBroker.Cluster.KeyRemoval
import MqttBroker.Storage.LogTwins

namespace mqtt_cluster.cluster_log

open mqtt_storage.repl

/-! ## The same log in memory -/

/-- A seed finds something to seed and a key without entries. -/
def Pipeline.seeds (s : Pipeline) (entries : List EpochEntry) (floor : Offset) (seq_floor : Nat) :
    Bool :=
  !(entries.isEmpty && floor == 0 && seq_floor == 0) &&
    !(!s.ks.entries.isEmpty || s.ks.committed ≠ 0)

namespace KeyLife

variable (log : ClusterLog) (key : String)

/-- What the log in memory does when a move is made: an append that commits is appended, and
recovery finds the entries that it seeds. -/
def twin (s : KeyLife) (m : InMemoryReplicatedLog) : KeyMove → InMemoryReplicatedLog
  | .Remove => m.remove key
  | .On (.Resolve i) =>
    match s.pipe.appends[i]?, (s.pipe.resolve i).appends[i]? with
    | some a, some b =>
      if a.unresolved && !b.unresolved && !b.failed then (m.append key a.record).1 else m
    | _, _ => m
  | .On (.Truncate up_to) => m.truncate key up_to
  | .On (.TruncateAcked k own acked) =>
    match s.pipe.truncates[k]? with
    | some up_to => if log.quorum.met (log.tally_of own acked) then m.truncate key up_to else m
    | none => m
  | .On (.Seed entries floor seq_floor) =>
    if s.pipe.seeds entries floor seq_floor then
      { logs := m.logs.insert key {
          entries := entries.map (fun e => { offset := e.offset, record := e.record })
          next_offset := (s.pipe.seed_key entries floor seq_floor).ks.committed } }
    else m
  | _ => m

def runTwins (s : KeyLife) (m : InMemoryReplicatedLog) : List KeyMove →
    KeyLife × InMemoryReplicatedLog
  | [] => (s, m)
  | move :: moves => runTwins (s.step log move) (s.twin log key m move) moves

/-- A seed brings entries in the order of their offsets, to a key with no append in flight. -/
def Steady (s : KeyLife) (move : KeyMove) : Prop :=
  s.Clear move ∧ match move with
    | .On (.Seed entries floor seq_floor) => s.pipe.seeds entries floor seq_floor = true →
      (∀ a ∈ s.pipe.appends, a.unresolved = false) ∧
        entries.Pairwise (fun e e' => e.offset < e'.offset)
    | _ => True

def RunSteady (s : KeyLife) : List KeyMove → Prop
  | [] => True
  | move :: moves => s.Steady move ∧ RunSteady (s.step log move) moves

instance (s : KeyLife) (move : KeyMove) : Decidable (s.Steady move) :=
  match move with
  | .On (.Seed ..) => inferInstanceAs (Decidable (_ ∧ (_ → _)))
  | .On (.Submit ..) | .On (.Own ..) | .On (.Follower ..) | .On (.Resolve ..) | .On (.Truncate ..)
  | .On (.TruncateDurable ..) | .On (.TruncateAcked ..) | .Remove =>
    inferInstanceAs (Decidable (_ ∧ True))

instance runSteadyDecidable (s : KeyLife) : (moves : List KeyMove) → Decidable (s.RunSteady log moves)
  | [] => inferInstanceAs (Decidable True)
  | move :: moves =>
    have := runSteadyDecidable (s.step log move) moves
    inferInstanceAs (Decidable (_ ∧ _))

/-- A log in memory holds the committed entries of a key. -/
structure Mirrors (m : LogState) (ks : KeyState) : Prop where
  sorted : m.entries.Pairwise (fun e e' => e.offset < e'.offset)
  same : ∀ e : LogEntry, e ∈ m.entries ↔
    ks.entries[e.offset]? = some e.record ∧ e.offset ≤ ks.committed
  next : m.next_offset = ks.committed

variable {log key} {m : LogState} {ks : KeyState}

theorem mirrors_start : Mirrors {} {} := ⟨List.Pairwise.nil, fun e => by simp, rfl⟩

theorem mirrors_of_same (h : Mirrors m ks) {ks' : KeyState} (hc : ks'.committed = ks.committed)
    (he : ∀ o : Offset, o ≤ ks.committed → ks'.entries[o]? = ks.entries[o]?) : Mirrors m ks' := by
  refine ⟨h.sorted, fun e => ?_, h.next.trans hc.symm⟩
  rw [h.same, hc]
  constructor
  · rintro ⟨hget, hle⟩
    exact ⟨(he e.offset hle).trans hget, hle⟩
  · rintro ⟨hget, hle⟩
    exact ⟨(he e.offset hle).symm.trans hget, hle⟩

theorem mirrors_commit (h : Mirrors m ks) {ks' : KeyState} {offset : Offset} {record : Bytes}
    (hnext : ks.committed + 1 = offset) (hc : ks'.committed = offset)
    (he : ks'.entries = ks.entries) (hr : ks.entries[offset]? = some record) :
    Mirrors { entries := m.entries ++ [⟨m.next_offset + 1, record⟩]
              next_offset := m.next_offset + 1 } ks' := by
  have hoffset : m.next_offset + 1 = offset := by rw [h.next, hnext]
  refine ⟨?_, fun e => ?_, hoffset.trans hc.symm⟩
  · rw [List.pairwise_append]
    refine ⟨h.sorted, List.pairwise_singleton _ _, fun e hmem e' he' => ?_⟩
    rw [List.mem_singleton.mp he', h.next]
    exact Nat.lt_succ_of_le ((h.same e).mp hmem).2
  · rw [List.mem_append, h.same, List.mem_singleton, he, hc, hoffset]
    constructor
    · rintro (⟨hget, hle⟩ | rfl)
      · exact ⟨hget, Nat.le_trans hle (hnext ▸ Nat.le_succ _)⟩
      · exact ⟨hr, Nat.le_refl _⟩
    · rintro ⟨hget, hle⟩
      rcases Nat.lt_or_eq_of_le hle with hlt | heq
      · rw [← hnext] at hlt
        exact .inl ⟨hget, Nat.le_of_lt_succ hlt⟩
      · right
        rw [heq, hr] at hget
        cases hget
        rw [← heq]

theorem mirrors_drop (h : Mirrors m ks) {up_to up_to' : Offset}
    (hup : ∀ o : Offset, o ≤ ks.committed → (o ≤ up_to ↔ o ≤ up_to')) :
    Mirrors { m with entries := m.entries.dropWhile (fun e => decide (e.offset ≤ up_to)) }
      (ks.drop_to up_to') := by
  have hfilter : m.entries.dropWhile (fun e => decide (e.offset ≤ up_to)) =
      m.entries.filter (fun e => !decide (e.offset ≤ up_to)) :=
    mqtt_storage.persistent_log.dropWhile_eq_filter up_to h.sorted
  refine ⟨?_, fun e => ?_, h.next⟩
  · rw [hfilter]
    exact h.sorted.filter _
  · have hent : (ks.drop_to up_to').entries[e.offset]? =
        if e.offset ≤ up_to' then none else ks.entries[e.offset]? := BTreeMap.get_dropThrough _ _ _
    have hc : (ks.drop_to up_to').committed = ks.committed := rfl
    rw [hfilter, List.mem_filter, h.same, hent, hc]
    simp only [Bool.not_eq_true', decide_eq_false_iff_not]
    constructor
    · rintro ⟨⟨hget, hle⟩, hnot⟩
      rw [if_neg (fun hle' => hnot ((hup _ hle).mpr hle'))]
      exact ⟨hget, hle⟩
    · rintro ⟨hget, hle⟩
      split at hget
      · cases hget
      · rename_i hnot
        exact ⟨⟨hget, hle⟩, fun hle' => hnot ((hup _ hle).mp hle')⟩

theorem entries_of_mirrors (h : Mirrors m ks) (after : Offset) :
    (ks.entries.toList.filter (fun x => after < x.1 && x.1 ≤ ks.committed)).map
        (fun x => ({ offset := x.1, record := x.2 } : LogEntry)) =
      m.entries.filter (fun e => decide (after < e.offset)) := by
  have hleft : ((ks.entries.toList.filter (fun x => after < x.1 && x.1 ≤ ks.committed)).map
      (fun x => ({ offset := x.1, record := x.2 } : LogEntry))).Pairwise
        (fun e e' => e.offset < e'.offset) := by
    rw [List.pairwise_map]
    exact (BTreeMap.toList_sorted ks.entries).filter _
  have hright := h.sorted.filter (fun e => decide (after < e.offset))
  have hnodup : ∀ {l : List LogEntry}, l.Pairwise (fun e e' => e.offset < e'.offset) → l.Nodup :=
    fun hl => hl.imp (fun hlt heq => absurd hlt (by rw [heq]; exact Nat.lt_irrefl _))
  refine List.Perm.eq_of_pairwise
    (fun a b _ _ hab hba => absurd hab (Nat.not_lt.mpr (Nat.le_of_lt hba))) hleft hright ?_
  rw [List.perm_ext_iff_of_nodup (hnodup hleft) (hnodup hright)]
  rintro ⟨o, r⟩
  simp only [List.mem_map, List.mem_filter, h.same, Prod.exists, BTreeMap.mem_toList,
    Bool.and_eq_true, decide_eq_true_eq, LogEntry.mk.injEq]
  constructor
  · rintro ⟨o', r', ⟨hget, hlt, hle⟩, rfl, rfl⟩
    exact ⟨⟨hget, hle⟩, hlt⟩
  · rintro ⟨⟨hget, hle⟩, hlt⟩
    exact ⟨o, r, ⟨hget, hlt, hle⟩, rfl, rfl⟩

/-- A read of a log in memory is the read of the key that it mirrors, as long as the cursor is
not past the watermark. -/
theorem read_of_mirrors (h : Mirrors m ks) (after : Offset) (limit : Nat)
    (hle : after ≤ ks.committed) :
    ks.read after limit =
      some ((m.entries.filter (fun e => decide (after < e.offset))).take limit) := by
  rw [KeyState.read, if_neg (Nat.not_lt.mpr hle), List.map_take, entries_of_mirrors h]

/-! ## A seed -/

theorem seed_fold_entries (es : List EpochEntry) (ks : KeyState) :
    (es.foldl KeyState.seed_entry ks).entries =
      (es.map (fun e => (e.offset, e.record))).foldl
        (fun (m : BTreeMap Offset Bytes) p => m.insert p.1 p.2) ks.entries := by
  induction es generalizing ks with
  | nil => rfl
  | cons e es ih => exact ih (ks.seed_entry e)

theorem seed_fold_committed (es : List EpochEntry) (ks : KeyState) {e : EpochEntry} (he : e ∈ es) :
    e.offset ≤ (es.foldl KeyState.seed_entry ks).committed := by
  induction es generalizing ks with
  | nil => cases he
  | cons x es ih =>
    rcases List.mem_cons.mp he with rfl | he
    · exact Nat.le_trans (Nat.le_max_right _ _)
        (Pipeline.seed_fold es (ks.seed_entry e)).1
    · exact ih (ks.seed_entry x) he

theorem mirrors_seed {es : List EpochEntry} (hempty : ks.entries.isEmpty = true)
    (hsorted : es.Pairwise (fun e e' => e.offset < e'.offset)) (floor : Offset) (seq_floor : Nat) :
    Mirrors { entries := es.map (fun e => { offset := e.offset, record := e.record })
              next_offset := (ks.seed_entries es floor seq_floor).committed }
      (ks.seed_entries es floor seq_floor) := by
  refine ⟨?_, fun e => ?_, rfl⟩
  · rw [List.pairwise_map]
    exact hsorted
  · have hent : (ks.seed_entries es floor seq_floor).entries =
        (es.foldl KeyState.seed_entry ks).entries := rfl
    have hdiff : (es.map (fun e => (e.offset, e.record))).Pairwise (fun a b => a.1 ≠ b.1) := by
      rw [List.pairwise_map]
      exact hsorted.imp (fun hlt => Nat.ne_of_lt hlt)
    have hnone := (BTreeMap.isEmpty_iff _).mp hempty
    rw [hent, seed_fold_entries, BTreeMap.get_foldl_insert _ hdiff, hnone]
    simp only [List.mem_map, Prod.mk.injEq, reduceCtorEq, and_false, or_false]
    constructor
    · rintro ⟨x, hx, rfl⟩
      exact ⟨⟨x, hx, rfl, rfl⟩, Nat.le_trans (seed_fold_committed es ks hx) (Nat.le_max_left _ _)⟩
    · rintro ⟨⟨x, hx, ho, hr⟩, -⟩
      exact ⟨x, hx, by rw [ho, hr]⟩

/-! ## The two logs side by side -/

/-- The state of a key in the log in memory: a key without one reads as a new key. -/
def memory (key : String) (m : InMemoryReplicatedLog) : LogState := m.logs[key]?.getD {}

theorem memory_append (m : InMemoryReplicatedLog) (record : Bytes) :
    memory key (m.append key record).1 =
      { entries := (memory key m).entries ++ [⟨(memory key m).next_offset + 1, record⟩]
        next_offset := (memory key m).next_offset + 1 } := by
  simp [memory, InMemoryReplicatedLog.append]

theorem memory_truncate (m : InMemoryReplicatedLog) (up_to : Nat) :
    memory key (m.truncate key up_to) =
      { memory key m with
        entries := (memory key m).entries.dropWhile (fun e => decide (e.offset ≤ up_to)) } := by
  rcases h : m.logs[key]? with _ | s
  · simp [memory, InMemoryReplicatedLog.truncate, h]
  · simp [memory, InMemoryReplicatedLog.truncate, h]

theorem memory_read (m : InMemoryReplicatedLog) (after limit : Nat) :
    m.read key after limit =
      ((memory key m).entries.filter (fun e => decide (after < e.offset))).take limit := by
  rcases h : m.logs[key]? with _ | s
  · simp [memory, InMemoryReplicatedLog.read, h]
  · simp [memory, InMemoryReplicatedLog.read, h]

/-- The floor is above the watermark, and stands only with appends in flight. -/
structure Floors (ks : KeyState) : Prop where
  above : ∀ f, ks.abort_floor = some f → ks.committed < f
  busy : ks.pending = 0 → ks.abort_floor = none

structure Twinned (log : ClusterLog) (key : String) (s : KeyLife) (m : InMemoryReplicatedLog) :
    Prop where
  parted : Parted log s
  floors : Floors s.pipe.ks
  mirrors : Mirrors (memory key m) s.pipe.ks

theorem floors_start : Floors {} := ⟨nofun, fun _ => rfl⟩

theorem busy_resolved (ks : KeyState) (hz : ks.pipeline_resolved.pending = 0) :
    ks.pipeline_resolved.abort_floor = none := by
  unfold KeyState.pipeline_resolved at hz ⊢
  dsimp only at hz ⊢
  split
  · rfl
  · rename_i hne
    rw [if_neg hne] at hz
    exact absurd hz hne

variable {s : KeyLife} {mem : InMemoryReplicatedLog}

theorem twinned_submit (h : Twinned log key s mem) (record : Bytes) (tier : DurabilityTier) :
    Floors (s.pipe.submit_tiered record tier).ks ∧
      Mirrors (memory key mem) (s.pipe.submit_tiered record tier).ks := by
  refine ⟨⟨h.floors.above, fun hz => absurd hz (Nat.succ_ne_zero _)⟩,
    mirrors_of_same h.mirrors rfl (fun o hle => ?_)⟩
  have hent : (s.pipe.submit_tiered record tier).ks.entries =
      s.pipe.ks.entries.insert (s.pipe.ks.stage record).1 record := rfl
  have hlt := (Pipeline.stage_offset s.pipe.ks record).2
  rw [hent, BTreeMap.get_insert, if_neg ?_]
  intro heq
  rw [heq] at hlt
  exact absurd hlt (Nat.not_lt.mpr hle)

theorem twinned_turn (h : Twinned log key s mem) {i : Nat} {a : Append} {met : Bool}
    {ks' : KeyState} {outcome : Except ReplError Offset} (hi : s.pipe.appends[i]? = some a)
    (hphase : a.phase = .Counted met) (hkey : s.pipe.key ≠ none)
    (hres : s.pipe.ks.resolve a.offset met = (some outcome, ks')) :
    Floors ks' ∧
      Mirrors (if outcome.isOk then memory key (mem.append key a.record).1 else memory key mem)
        ks' := by
  have ha : a.unresolved = true := by simp [Append.unresolved, hphase]
  have hle : s.before ≤ i := by
    by_contra hlt
    rw [h.parted.ended i a hkey (Nat.not_le.mp hlt) hi] at ha
    cases ha
  obtain ⟨k, rfl⟩ := Nat.exists_eq_add_of_le hle
  rw [← get_since h.parted] at hi
  have habove := h.parted.sound.above k a hi ha
  have hpresent := h.parted.sound.present k a hi ha
  rw [since_ks] at habove hpresent
  obtain ⟨hturn, -⟩ := Pipeline.turned_of_resolve hres h.floors.above habove
  rcases KeyState.resolve_cases hres with
    ⟨hfl, hr, rfl⟩ | ⟨hfl, -, hr, rfl⟩ | ⟨hfl, -, hnext, hr, rfl⟩ | ⟨-, -, hr, -⟩
  · cases hr
    refine ⟨⟨hturn.floor, busy_resolved _⟩, mirrors_of_same h.mirrors ?_ hturn.entries⟩
    simp [KeyState.tail_fail]
  · cases hr
    refine ⟨⟨hturn.floor, busy_resolved _⟩, mirrors_of_same h.mirrors ?_ hturn.entries⟩
    simp [KeyState.abort_from]
  · cases hr
    refine ⟨⟨hturn.floor, busy_resolved _⟩, ?_⟩
    rw [memory_append]
    exact mirrors_commit h.mirrors hnext (by simp) (by simp) (hpresent hfl)
  · cases hr

theorem twinned_resolve (h : Twinned log key s mem) (i : Nat) :
    Floors (s.pipe.resolve i).ks ∧
      Mirrors (memory key (s.twin log key mem (.On (.Resolve i)))) (s.pipe.resolve i).ks := by
  rcases hi : s.pipe.appends[i]? with _ | a
  · have hsame : s.pipe.resolve i = s.pipe := by simp only [Pipeline.resolve, hi]
    simp only [twin, hi, hsame]
    exact ⟨h.floors, h.mirrors⟩
  -- a turn that leaves its append as it is
  have hstays : s.pipe.resolve i = s.pipe → Floors (s.pipe.resolve i).ks ∧
      Mirrors (memory key (s.twin log key mem (.On (.Resolve i)))) (s.pipe.resolve i).ks := by
    intro hsame
    have htwin : s.twin log key mem (.On (.Resolve i)) = mem := by
      simp only [twin, hsame, hi]
      cases a.unresolved <;> simp
    rw [htwin, hsame]
    exact ⟨h.floors, h.mirrors⟩
  rcases hphase : a.phase with _ | _ | met | _
  · exact hstays (by simp only [Pipeline.resolve, hi, hphase])
  · exact hstays (by simp only [Pipeline.resolve, hi, hphase])
  · have ha : a.unresolved = true := by simp [Append.unresolved, hphase]
    have hdone : ∀ outcome, (s.pipe.finish i outcome)[i]? = some { a with phase := .Done outcome } :=
      fun outcome => (s.pipe.get_finish i outcome i _).mpr (.inr ⟨rfl, a, hi, rfl⟩)
    rcases hkey : s.pipe.key with _ | ks
    · have hres : s.pipe.resolve i =
          { s.pipe with appends := s.pipe.finish i (.error .NoQuorum) } := by
        simp only [Pipeline.resolve, hi, hphase, hkey]
      have htwin : s.twin log key mem (.On (.Resolve i)) = mem := by
        simp [twin, hres, hi, hdone, Append.failed]
      rw [htwin, hres]
      exact ⟨h.floors, h.mirrors⟩
    · have hks : s.pipe.ks = ks := by simp [Pipeline.ks, hkey]
      rcases hturn : ks.resolve a.offset met with ⟨_ | outcome, ks'⟩
      · exact hstays (by simp only [Pipeline.resolve, hi, hphase, hkey, hturn])
      · have hres : s.pipe.resolve i =
            { s.pipe with key := some ks', appends := s.pipe.finish i outcome } := by
          simp only [Pipeline.resolve, hi, hphase, hkey, hturn]
        have htwin : memory key (s.twin log key mem (.On (.Resolve i))) =
            if outcome.isOk then memory key (mem.append key a.record).1 else memory key mem := by
          simp only [twin, hres, hi, hdone]
          rcases outcome with e | o
          · simp [Append.failed, Except.isOk, Except.toBool]
          · simp [Append.unresolved, Append.failed, Except.isOk, Except.toBool, hphase]
        rw [htwin, hres]
        exact twinned_turn h hi hphase (by simp [hkey]) (hks.symm ▸ hturn)
  · exact hstays (by simp only [Pipeline.resolve, hi, hphase])

theorem twinned_drop (h : Twinned log key s mem) (up_to : Offset) (clamp : KeyState → Offset)
    (hup : ∀ o : Offset, o ≤ s.pipe.ks.committed → (o ≤ up_to ↔ o ≤ clamp s.pipe.ks)) :
    Floors ((s.pipe.key.map (fun ks => ks.drop_to (clamp ks))).getD {}) ∧
      Mirrors (memory key (mem.truncate key up_to))
        ((s.pipe.key.map (fun ks => ks.drop_to (clamp ks))).getD {}) := by
  have hmirrors := mirrors_drop h.mirrors hup
  rw [← memory_truncate] at hmirrors
  have hfloors := h.floors
  rcases hkey : s.pipe.key with _ | ks
  · have hks : s.pipe.ks = {} := by simp [Pipeline.ks, hkey]
    rw [hks] at hmirrors
    refine ⟨floors_start, mirrors_of_same hmirrors rfl (fun o _ => ?_)⟩
    have hent : (({} : KeyState).drop_to (clamp {})).entries[o]? =
        if o ≤ clamp {} then none else (∅ : BTreeMap Offset Bytes)[o]? :=
      BTreeMap.get_dropThrough _ _ _
    rw [hent]
    simp
  · have hks : s.pipe.ks = ks := by simp [Pipeline.ks, hkey]
    rw [hks] at hmirrors hfloors
    exact ⟨⟨hfloors.above, hfloors.busy⟩, hmirrors⟩

theorem twinned_seed (h : Twinned log key s mem) {entries : List EpochEntry} {floor : Offset}
    {seq_floor : Nat} (hs : s.Steady (.On (.Seed entries floor seq_floor))) :
    Floors (s.pipe.seed_key entries floor seq_floor).ks ∧
      Mirrors (memory key (s.twin log key mem (.On (.Seed entries floor seq_floor))))
        (s.pipe.seed_key entries floor seq_floor).ks := by
  by_cases hseeds : s.pipe.seeds entries floor seq_floor = true
  · obtain ⟨hended, hsorted⟩ := hs.2 hseeds
    have hseeds' := hseeds
    simp only [Pipeline.seeds, Bool.and_eq_true, Bool.not_eq_true', Bool.or_eq_false_iff,
      Bool.not_eq_false'] at hseeds'
    obtain ⟨hsome, hempty, hzero⟩ := hseeds'
    have hks : (s.pipe.seed_key entries floor seq_floor).ks =
        s.pipe.ks.seed_entries entries floor seq_floor := by
      simp only [Pipeline.seed_key, hsome, hempty, hzero]
      rfl
    have hnone : s.pipe.ks.abort_floor = none := by
      have hpending := h.parted.sound.pending
      rw [since_ks, List.countP_eq_zero.mpr (fun a ha => ?_)] at hpending
      · exact h.floors.busy hpending
      · obtain ⟨k, hk⟩ := List.mem_iff_getElem?.mp ha
        rw [get_since h.parted] at hk
        simp [hended a (List.mem_of_getElem? hk)]
    have hfloor : (s.pipe.ks.seed_entries entries floor seq_floor).abort_floor = none := by
      obtain ⟨-, -, -, hf, -⟩ := Pipeline.seed_fold entries s.pipe.ks
      exact hf.trans hnone
    rw [hks]
    refine ⟨⟨fun f hf => ?_, fun _ => hfloor⟩, ?_⟩
    · rw [hfloor] at hf
      cases hf
    · simp only [twin, hseeds, if_true, memory, hks]
      simpa using mirrors_seed hempty hsorted floor seq_floor
  · have hks : (s.pipe.seed_key entries floor seq_floor).ks = s.pipe.ks := by
      unfold Pipeline.seed_key
      split
      · rfl
      · split
        · rfl
        · rename_i h1 h2
          simp only [Pipeline.seeds, h1, h2] at hseeds
          exact absurd rfl hseeds
    rw [hks]
    simp only [twin, hseeds]
    exact ⟨h.floors, h.mirrors⟩

theorem twinned_step (h : Twinned log key s mem) (move : KeyMove) (hs : s.Steady move) :
    Twinned log key (s.step log move) (s.twin log key mem move) := by
  have hparted := parted_step h.parted move hs.1
  cases move with
  | Remove =>
    refine ⟨hparted, floors_start, ?_⟩
    have hgone : memory key (mem.remove key) = {} := by
      simp [memory, InMemoryReplicatedLog.remove]
    show Mirrors (memory key (mem.remove key)) {}
    rw [hgone]
    exact mirrors_start
  | On step =>
    cases step with
    | Submit record tier =>
      obtain ⟨hfloors, hmirrors⟩ := twinned_submit h record tier
      exact ⟨hparted, hfloors, hmirrors⟩
    | Own i ok => exact ⟨hparted, h.floors, h.mirrors⟩
    | Follower i f ok => exact ⟨hparted, h.floors, h.mirrors⟩
    | Resolve i =>
      obtain ⟨hfloors, hmirrors⟩ := twinned_resolve h i
      exact ⟨hparted, hfloors, hmirrors⟩
    | Truncate up_to =>
      obtain ⟨hfloors, hmirrors⟩ := twinned_drop h up_to (fun ks => min up_to ks.committed)
        (fun o hle => ⟨fun ho => Nat.le_min.mpr ⟨ho, hle⟩, fun ho => (Nat.le_min.mp ho).1⟩)
      exact ⟨hparted, hfloors, hmirrors⟩
    | TruncateDurable up_to =>
      have hkey := (Pipeline.truncate_durable_frame log s.pipe up_to).2
      have hks : (s.step log (.On (.TruncateDurable up_to))).pipe.ks = s.pipe.ks := by
        rw [KeyLife.step, Pipeline.ks, hkey]
        rfl
      exact ⟨hparted, hks.symm ▸ h.floors, hks.symm ▸ h.mirrors⟩
    | TruncateAcked k own acked =>
      have hboth : Floors (Pipeline.truncate_acked log s.pipe k own acked).ks ∧
          Mirrors (memory key (s.twin log key mem (.On (.TruncateAcked k own acked))))
            (Pipeline.truncate_acked log s.pipe k own acked).ks := by
        rcases hk : s.pipe.truncates[k]? with _ | up_to
        · simp only [Pipeline.truncate_acked, twin, hk]
          exact ⟨h.floors, h.mirrors⟩
        · simp only [Pipeline.truncate_acked, twin, hk, Pipeline.ks]
          split
          · exact twinned_drop h up_to (fun _ => up_to) (fun o _ => Iff.rfl)
          · exact ⟨h.floors, h.mirrors⟩
      exact ⟨hparted, hboth.1, hboth.2⟩
    | Seed entries floor seq_floor =>
      obtain ⟨hfloors, hmirrors⟩ := twinned_seed h hs
      exact ⟨hparted, hfloors, hmirrors⟩

theorem twinned_start : Twinned log key {} {} :=
  ⟨parted_start, floors_start, mirrors_start⟩

theorem twinned_run {s : KeyLife} {mem : InMemoryReplicatedLog} (h : Twinned log key s mem)
    (moves : List KeyMove) (hs : s.RunSteady log moves) :
    Twinned log key (s.runTwins log key mem moves).1 (s.runTwins log key mem moves).2 := by
  induction moves generalizing s mem with
  | nil => exact h
  | cons move moves ih => exact ih (twinned_step h move hs.1) hs.2

/-! ## The read -/

theorem read_of_twinned (h : Twinned log key s mem) (after : Offset) (limit : Nat) :
    s.read after limit = some (mem.read key after limit) ↔
      s.pipe.key = none ∨ after ≤ s.pipe.ks.committed := by
  have hmirrors := h.mirrors
  rw [memory_read]
  rcases hkey : s.pipe.key with _ | ks
  · -- there is nothing on either side
    have hks : s.pipe.ks = {} := by simp [Pipeline.ks, hkey]
    rw [hks] at hmirrors
    have hempty : (memory key mem).entries = [] := by
      refine List.eq_nil_iff_forall_not_mem.mpr (fun e he => ?_)
      have hget := ((hmirrors.same e).mp he).1
      simp at hget
    simp [read, hkey, hempty]
  · have hks : s.pipe.ks = ks := by simp [Pipeline.ks, hkey]
    rw [hks] at hmirrors ⊢
    simp only [read, hkey, reduceCtorEq, false_or]
    constructor
    · intro hread
      by_contra hlt
      rw [KeyState.read, if_pos (Nat.not_le.mp hlt)] at hread
      cases hread
    · exact read_of_mirrors hmirrors after limit

/-- In every run whose seeds and removes meet no append in flight, a read of the cluster log is
that of the log in memory, at every cursor that is not past the watermark, and at no other. -/
theorem a_read_is_that_of_the_log_in_memory (log : ClusterLog) (key : String) (moves : List KeyMove)
    (hs : ({} : KeyLife).RunSteady log moves) (after : Offset) (limit : Nat) :
    let twins := ({} : KeyLife).runTwins log key {} moves
    twins.1.read after limit = some (twins.2.read key after limit) ↔
      twins.1.pipe.key = none ∨ after ≤ twins.1.pipe.ks.committed :=
  read_of_twinned (twinned_run twinned_start moves hs) after limit

open Pipeline (ownerOfThree)

/-- Two appends of which one is truncated, and one that is in flight. -/
def appendAndTruncate : List KeyMove :=
  [.On (.Submit [1] .Local), .On (.Own 0 true), .On (.Resolve 0), .On (.Submit [2] .Local),
    .On (.Own 1 true), .On (.Resolve 1), .On (.Truncate 1), .On (.Submit [3] .Quorum)]

theorem a_read_gives_what_is_committed_and_kept :
    (({} : KeyLife).runTwins ownerOfThree "q/c" {} appendAndTruncate).1.read 0 10 =
        some ((({} : KeyLife).runTwins ownerOfThree "q/c" {} appendAndTruncate).2.read "q/c" 0 10) ∧
      (({} : KeyLife).runTwins ownerOfThree "q/c" {} appendAndTruncate).1.read 0 10 =
        some [{ offset := 2, record := [2] }] :=
  ⟨(a_read_is_that_of_the_log_in_memory ownerOfThree "q/c" appendAndTruncate
    (by decide +kernel) 0 10).mpr (.inr (by decide +kernel)), by decide +kernel⟩

/-- An append is in flight and nothing has committed: a read after the first offset panics. -/
theorem a_cursor_past_the_watermark_panics :
    ({} : KeyLife).RunSteady ownerOfThree [.On (.Submit [1] .Quorum)] ∧
      (({} : KeyLife).runTwins ownerOfThree "q/c" {} [.On (.Submit [1] .Quorum)]).1.read 1 10 =
        none ∧
      (({} : KeyLife).runTwins ownerOfThree "q/c" {} [.On (.Submit [1] .Quorum)]).2.read "q/c" 1 10 =
        [] :=
  ⟨by decide +kernel, by decide +kernel, by decide +kernel⟩

end KeyLife

end mqtt_cluster.cluster_log
