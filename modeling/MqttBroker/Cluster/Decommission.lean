-- The decommission drain (`decommission.rs`): each round compares this node's copy of
-- every key with the copies of the replica set that the key's group will have without
-- this node. When no copy falls short, a recovery from any of the copies that the round
-- read has all that this node holds, so that the node may leave.
import MqttBroker.Cluster.Merge
import MqttBroker.Cluster.Placement

namespace mqtt_cluster

open placement mqtt_storage.repl cluster_log

namespace placement.Placement

def member_count (p : Placement) : Nat := p.eligible.size

end placement.Placement

namespace cluster_log.ReplicaState

theorem run_covers {l : List Offset} (hs : l.Pairwise (· < ·)) {expected : Offset}
    (h : (l.foldl (fun (expected : Option Offset) offset =>
      match expected with
      | none => none
      | some e => if offset < e then some e else if offset ≠ e then none else some (e + 1))
      (some expected)).isSome = true) {o p : Offset} (ho : o ∈ l) (hp : expected ≤ p)
    (hpo : p ≤ o) : p ∈ l := by
  induction l generalizing expected with
  | nil => simp at ho
  | cons x l ih =>
    obtain ⟨hlt, hs⟩ := List.pairwise_cons.mp hs
    rw [List.foldl_cons] at h
    dsimp only at h
    have hnone : ∀ l : List Offset, l.foldl (fun (expected : Option Offset) offset =>
        match expected with
        | none => none
        | some e => if offset < e then some e else if offset ≠ e then none else some (e + 1))
        none = none := by
      intro l
      induction l with
      | nil => rfl
      | cons y l ih => exact ih
    by_cases hbelow : x < expected
    · rw [if_pos hbelow] at h
      have hol : o ∈ l := by
        rcases List.mem_cons.mp ho with rfl | hol
        · exact absurd (Nat.lt_of_le_of_lt hpo hbelow) (Nat.not_lt.mpr hp)
        · exact hol
      exact List.mem_cons_of_mem _ (ih hs h hol hp)
    · rw [if_neg hbelow] at h
      by_cases hx : x = expected
      · rw [if_neg (by simp [hx])] at h
        rcases Nat.eq_or_lt_of_le hp with rfl | hlater
        · exact hx ▸ List.mem_cons_self
        · have hol : o ∈ l := by
            rcases List.mem_cons.mp ho with rfl | hol
            · exact absurd (Nat.lt_of_lt_of_le hlater hpo) (by rw [hx]; exact Nat.lt_irrefl _)
            · exact hol
          exact List.mem_cons_of_mem _ (ih hs h hol hlater)
      · rw [if_pos hx, hnone] at h
        simp at h

theorem complete_covers {s : ReplicaState} {key : String} (h : s.complete key = true)
    {e : EpochEntry} (he : e ∈ s.epoch_entries key) {p : Offset} (hlow : s.watermark key < p)
    (hp : p ≤ e.offset) : ∃ x ∈ s.epoch_entries key, x.offset = p := by
  have hheld := (s.mem_epoch_entries key e).mp he
  unfold complete at h
  unfold held logOf at hheld
  cases hlog : s.logs[key]? with
  | none => simp [hlog] at hheld
  | some log =>
    simp only [hlog, Option.getD_some] at h hheld
    have hmem : e.offset ∈ log.keys := (BTreeMap.mem_keys log e.offset).mpr ⟨_, hheld⟩
    have hkeys := run_covers log.keys_sorted h hmem hlow hp
    obtain ⟨v, hv⟩ := (BTreeMap.mem_keys log p).mp hkeys
    refine ⟨EpochEntry.of p v, (s.mem_epoch_entries key _).mpr ?_, rfl⟩
    simpa [held, logOf, hlog] using hv

theorem epoch_entries_unique {s : ReplicaState} {key : String} {e e' : EpochEntry}
    (he : e ∈ s.epoch_entries key) (he' : e' ∈ s.epoch_entries key)
    (ho : e.offset = e'.offset) : e = e' := by
  have h := (s.mem_epoch_entries key e).mp he
  have h' := (s.mem_epoch_entries key e').mp he'
  rw [ho, h'] at h
  simp only [Option.some.injEq, Prod.mk.injEq] at h
  rw [← e.of_eta, ← e'.of_eta, ho, h.1, h.2]

end cluster_log.ReplicaState

namespace decommission

/-! ## A round -/

/-- What the round meets when it comes to a key: the placement, this node's copies, and the
copies of the peers that answer, each with whether the peer is stamped as caught up. -/
structure View where
  placement : Placement
  replicas : ReplicaState
  peers : NodeId → Option (ReplicaState × Bool)

/-- The answer of a peer to a recovery read; none when it cannot be reached. -/
def View.read_replica (v : View) (successor : NodeId) (key : String) : Option ReplicaRead :=
  (v.peers successor).map (fun peer => peer.1.read key peer.2)

/-- The handing over of a key to a successor: by this node, or asked of the group's owner. -/
inductive CatchUp
  | ByUs (key : String) (successor : NodeId)
  | ByOwner (owner : NodeId) (key : String) (successor : NodeId)
  deriving DecidableEq

structure Drain where
  node : NodeId
  /-- Whether this node can hand over the keys of its own groups. -/
  source : Bool

namespace Drain

def their_records (theirs : ReplicaRead) : BTreeMap Offset Bytes :=
  theirs.entries.foldl (fun m e => m.insert e.offset e.record) ∅

/-- The copy has reached our low-water, and has each of our entries above its own. -/
def sufficient (our_watermark : Offset) (our_entries : List EpochEntry) :
    Option ReplicaRead → Bool
  | some theirs =>
    decide (our_watermark ≤ theirs.watermark) && our_entries.all (fun e =>
      decide (e.offset ≤ theirs.watermark) || (their_records theirs)[e.offset]? == some e.record)
  | none => false

structure Progress where
  pending : Nat := 0
  asked : List CatchUp := []

def successors (d : Drain) (v : View) (key : String) : List NodeId :=
  v.placement.group_replica_set_without (group_of_key key) d.node

def catch_up (d : Drain) (v : View) (key : String) (successor : NodeId) : List CatchUp :=
  let owner := v.placement.group_owner (group_of_key key)
  if owner = d.node then
    if d.source then [.ByUs key successor] else []
  else [.ByOwner owner key successor]

def compare_copy (d : Drain) (v : View) (key : String) (p : Progress) (successor : NodeId) :
    Progress :=
  if sufficient (v.replicas.watermark key) (v.replicas.epoch_entries key)
      (v.read_replica successor key) then p
  else { pending := p.pending + 1, asked := p.asked ++ d.catch_up v key successor }

def compare_key (d : Drain) (view : String → View) (p : Progress) (key : String) : Progress :=
  (d.successors (view key) key).foldl (d.compare_copy (view key) key) p

/-- One round over the keys that this node holds at its start. A node alone has nowhere to hand
its keys to. -/
def round (d : Drain) (start : View) (view : String → View) : Progress :=
  if start.placement.member_count ≤ 1 then {}
  else start.replicas.keys.foldl (d.compare_key view) {}

/-- The reads that the round took of a key. -/
def taken (d : Drain) (v : View) (key : String) : List ReplicaRead :=
  (d.successors v key).filterMap (fun successor => v.read_replica successor key)

/-! ## What a round of no shortfall says -/

theorem compare_copy_mono (d : Drain) (v : View) (key : String) (p : Progress) (s : NodeId) :
    p.pending ≤ (d.compare_copy v key p s).pending := by
  unfold compare_copy
  split
  · exact Nat.le_refl _
  · exact Nat.le_succ _

/-- A pass that ends at nothing pending began at nothing pending, and found every copy
sufficient. -/
theorem sufficient_of_pass {d : Drain} {v : View} {key : String} {l : List NodeId} {p : Progress}
    (h : (l.foldl (d.compare_copy v key) p).pending = 0) :
    p.pending = 0 ∧ ∀ s ∈ l, sufficient (v.replicas.watermark key) (v.replicas.epoch_entries key)
      (v.read_replica s key) = true := by
  induction l generalizing p with
  | nil => exact ⟨h, by simp⟩
  | cons s l ih =>
    obtain ⟨hp, hrest⟩ := ih h
    have hs : sufficient (v.replicas.watermark key) (v.replicas.epoch_entries key)
        (v.read_replica s key) = true := by
      by_contra hnot
      simp [compare_copy, hnot] at hp
    refine ⟨Nat.le_zero.mp (hp ▸ compare_copy_mono d v key p s), ?_⟩
    intro s' hs'
    rcases List.mem_cons.mp hs' with rfl | hs'
    · exact hs
    · exact hrest s' hs'

theorem sufficient_of_keys {d : Drain} {view : String → View} {keys : List String} {p : Progress}
    (h : (keys.foldl (d.compare_key view) p).pending = 0) :
    p.pending = 0 ∧ ∀ key ∈ keys, ∀ s ∈ d.successors (view key) key,
      sufficient ((view key).replicas.watermark key) ((view key).replicas.epoch_entries key)
        ((view key).read_replica s key) = true := by
  induction keys generalizing p with
  | nil => exact ⟨h, by simp⟩
  | cons key keys ih =>
    obtain ⟨hp, hrest⟩ := ih h
    obtain ⟨hp, hkey⟩ := sufficient_of_pass hp
    refine ⟨hp, ?_⟩
    intro key' hkey'
    rcases List.mem_cons.mp hkey' with rfl | hkey'
    · exact hkey
    · exact hrest key' hkey'

theorem mem_of_their_records {theirs : ReplicaRead} {o : Offset} {r : Bytes}
    (h : (their_records theirs)[o]? = some r) :
    ∃ e ∈ theirs.entries, e.offset = o ∧ e.record = r := by
  have hfold : ∀ (es : List EpochEntry) (m : BTreeMap Offset Bytes),
      (es.foldl (fun (m : BTreeMap Offset Bytes) e => m.insert e.offset e.record) m)[o]? = some r →
      m[o]? = some r ∨ ∃ e ∈ es, e.offset = o ∧ e.record = r := by
    intro es
    induction es with
    | nil => exact fun m hm => .inl hm
    | cons e es ih =>
      intro m hm
      rcases ih _ hm with hin | ⟨e', he', heq⟩
      · rw [BTreeMap.get_insert] at hin
        split at hin
        · rename_i ho
          exact .inr ⟨e, by simp, ho, Option.some.inj hin⟩
        · exact .inl hin
      · exact .inr ⟨e', List.mem_cons_of_mem _ he', heq⟩
  rcases hfold _ _ h with hin | hfound
  · simp at hin
  · exact hfound

/-- The copies that the round read of a key hold enough of this node's copy. -/
structure Holds (s : ReplicaState) (key : String) (theirs : ReplicaRead) : Prop where
  watermark : s.watermark key ≤ theirs.watermark
  entries : ∀ e ∈ s.epoch_entries key, theirs.watermark < e.offset →
    ∃ e' ∈ theirs.entries, e'.offset = e.offset ∧ e'.record = e.record
  unique : ∀ e ∈ theirs.entries, ∀ e' ∈ theirs.entries, e.offset = e'.offset → e = e'

theorem holds_of_round {d : Drain} {start : View} {view : String → View}
    (hmembers : 2 ≤ start.placement.member_count) (hround : (d.round start view).pending = 0)
    {key : String} (hkey : key ∈ start.replicas.keys) {r : ReplicaRead}
    (hr : r ∈ d.taken (view key) key) : Holds (view key).replicas key r := by
  unfold round at hround
  rw [if_neg (by omega)] at hround
  obtain ⟨s, hs, hread⟩ := List.mem_filterMap.mp hr
  have hsuff := (sufficient_of_keys hround).2 key hkey s hs
  rw [hread] at hsuff
  simp only [sufficient, Bool.and_eq_true, decide_eq_true_eq, List.all_eq_true, Bool.or_eq_true,
    beq_iff_eq] at hsuff
  refine ⟨hsuff.1, ?_, ?_⟩
  · intro e he hlow
    rcases hsuff.2 e he with hle | hrec
    · exact absurd hle (Nat.not_le.mpr hlow)
    · exact mem_of_their_records hrec
  · obtain ⟨peer, -, rfl⟩ := Option.map_eq_some_iff.mp hread
    intro e he e' he' ho
    exact ReplicaState.epoch_entries_unique he he' ho

/-! ## The recovery without the node -/

/-- The tags of a read do not dip along its offsets. -/
def Rising (r : ReplicaRead) : Prop :=
  ∀ e ∈ r.entries, ∀ e' ∈ r.entries, e.offset ≤ e'.offset → e.tag ≤ e'.tag

section recovery

variable {s : ReplicaState} {key : String} {reads : List ReplicaRead}

theorem holeFree_of_holds (hcopy : s.complete key = true)
    (hholds : ∀ r ∈ reads, Holds s key r) (hrising : ∀ r ∈ reads, Rising r) {e : EpochEntry}
    (he : e ∈ s.epoch_entries key) : HoleFree reads e.offset := by
  rintro x ⟨r, hr, hx⟩ hlow hlt
  have hw : s.watermark key ≤ r.watermark := (hholds r hr).watermark
  have hmax : r.watermark ≤ low_water reads := low_water_le hr
  have hnext : s.watermark key < x.offset + 1 :=
    Nat.lt_succ_of_lt (Nat.lt_of_le_of_lt (Nat.le_trans hw hmax) hlow)
  obtain ⟨y, hy, hyo⟩ := ReplicaState.complete_covers hcopy he hnext hlt
  have hylow : r.watermark < y.offset := by
    rw [hyo]
    exact Nat.lt_succ_of_lt (Nat.lt_of_le_of_lt hmax hlow)
  obtain ⟨z, hz, hzo, -⟩ := (hholds r hr).entries y hy hylow
  refine ⟨z, ⟨r, hr, hz⟩, hzo.trans hyo, hrising r hr x hx z hz ?_⟩
  rw [hzo, hyo]
  exact Nat.le_succ _

theorem merge_has_entry (hne : reads ≠ []) (hcopy : s.complete key = true)
    (hholds : ∀ r ∈ reads, Holds s key r) (hrising : ∀ r ∈ reads, Rising r) {e : EpochEntry}
    (he : e ∈ s.epoch_entries key) (hlow : low_water reads < e.offset) :
    ∃ e' ∈ merge_replica_logs_tagged reads, e'.offset = e.offset ∧ e'.record = e.record := by
  have hread : ∀ r ∈ reads, ∃ x ∈ r.entries, x.offset = e.offset ∧ x.record = e.record := by
    intro r hr
    exact (hholds r hr).entries e he (Nat.lt_of_le_of_lt (low_water_le hr) hlow)
  have hspec := newest_spec reads
  obtain ⟨r₀, hr₀⟩ := List.exists_mem_of_ne_nil reads hne
  obtain ⟨x₀, hx₀, hxo₀, -⟩ := hread r₀ hr₀
  obtain ⟨v, hv, -⟩ := hspec.ge x₀ ⟨r₀, hr₀, hx₀⟩ (hxo₀ ▸ hlow)
  rw [hxo₀] at hv
  obtain ⟨-, r, hr, hin⟩ := hspec.mem e.offset v hv
  obtain ⟨x, hx, hxo, hxr⟩ := hread r hr
  -- The newest version is the entry of some read, and that read has our bytes there.
  have hsame : EpochEntry.of e.offset v = x := (hholds r hr).unique _ hin x hx hxo.symm
  have hrec : v.2 = e.record := by
    rw [← hxr, ← hsame]
    rfl
  refine ⟨EpochEntry.of e.offset v, (mem_merge reads _).mpr ⟨hv, ?_⟩, rfl, hrec⟩
  show HoleFree reads e.offset
  exact holeFree_of_holds hcopy hholds hrising he

theorem merge_above_watermark (hne : reads ≠ []) (hholds : ∀ r ∈ reads, Holds s key r)
    {e : EpochEntry} (he : e ∈ merge_replica_logs_tagged reads) : s.watermark key < e.offset := by
  obtain ⟨r, hr⟩ := List.exists_mem_of_ne_nil reads hne
  have hlow := ((newest_spec reads).mem e.offset _ ((mem_merge reads e).mp he).1).1
  exact Nat.lt_of_le_of_lt (Nat.le_trans (hholds r hr).watermark (low_water_le hr)) hlow

end recovery

/-- After a round with no shortfall, a recovery from any of the copies that it read has every
entry of this node's copy that is not dropped there, and nothing that this node saw dropped. -/
theorem drained_node_leaves_without_loss {d : Drain} {start : View} {view : String → View}
    (hmembers : 2 ≤ start.placement.member_count) (hround : (d.round start view).pending = 0)
    {key : String} (hkey : key ∈ start.replicas.keys)
    (hcopy : (view key).replicas.complete key = true) {reads : List ReplicaRead}
    (hne : reads ≠ []) (htaken : ∀ r ∈ reads, r ∈ d.taken (view key) key)
    (hrising : ∀ r ∈ reads, Rising r) :
    (∀ e ∈ (view key).replicas.epoch_entries key, low_water reads < e.offset →
      ∃ e' ∈ merge_replica_logs_tagged reads, e'.offset = e.offset ∧ e'.record = e.record) ∧
    ∀ e ∈ merge_replica_logs_tagged reads, (view key).replicas.watermark key < e.offset := by
  have hholds : ∀ r ∈ reads, Holds (view key).replicas key r :=
    fun r hr => holds_of_round hmembers hround hkey (htaken r hr)
  refine ⟨?_, ?_⟩
  · exact fun e he hlow => merge_has_entry hne hcopy hholds hrising he hlow
  · exact fun e he => merge_above_watermark hne hholds he

/-- A copy of one key with its entries at the offsets 1 and 2. -/
def twoEntries (seq : Nat) : ReplicaState where
  logs := (∅ : ReplicaLogs).insert "q/k" (((∅ : BTreeMap Offset Stored).insert 1 (tag 1 seq, [7])).insert
    2 (tag 1 (seq + 1), [8]))

/-- Two members; the one that stays holds the entries at later attempts. -/
def twoMembers : View where
  placement := {
    node := "a"
    eligible := ((∅ : BTreeSet NodeId).insert "a").insert "b"
    replicas := 2 }
  replicas := twoEntries 1
  peers := fun n => if n = "b" then some (twoEntries 3, true) else none

theorem two_members_drained :
    (Drain.round ⟨"a", true⟩ twoMembers (fun _ => twoMembers)).pending = 0 ∧
      ∃ e' ∈ merge_replica_logs_tagged [(twoEntries 3).read "q/k" true],
        e'.offset = 2 ∧ e'.record = [8] := by
  have hround : (Drain.round ⟨"a", true⟩ twoMembers (fun _ => twoMembers)).pending = 0 := by
    decide +kernel
  refine ⟨hround, ?_⟩
  have hleave := @drained_node_leaves_without_loss ⟨"a", true⟩ twoMembers (fun _ => twoMembers)
    (by decide +kernel) hround "q/k" (by decide +kernel) (by decide +kernel)
    [(twoEntries 3).read "q/k" true] (by simp) (by decide +kernel)
    (by unfold Rising; decide +kernel)
  exact hleave.1 (EpochEntry.of 2 (tag 1 2, [8])) (by decide +kernel) (by decide +kernel)

end Drain

end decommission

end mqtt_cluster
