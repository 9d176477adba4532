-- What holds of a replica and its store after every call, and after a restart:
-- the persisted fences are those of the disk, no entry is above them, and the
-- store reloads to the logs and the low-waters in memory.
import MqttBroker.Cluster.Calls

namespace mqtt_cluster.cluster_log

open placement TaggedRegister

namespace ReplicaState

/-! ## The home shards after a commit -/

def diskFence (s : ReplicaState) (g : GroupId) : Epoch := (homeLoad s.dbs g).fences[g]?.getD 0

variable {s s' : ReplicaState} {advanced : Fences} {ops passed : List (Epoch × ReplOp)}

theorem homeLoad_moved (h : Moved s s' advanced ops) (hne : 0 < s.dbs.length) (g : GroupId) :
    homeLoad s'.dbs g = drive_plan
      (s.share (s.unpersisted advanced) ops (shard_of_group g s.dbs.length)) (homeLoad s.dbs g) := by
  unfold homeLoad
  rw [h.length, h.disk]
  have hlt := shard_of_group_lt g hne
  simp [List.getElem?_eq_getElem hlt]

theorem fences_moved (h : Moved s s' advanced ops) (hne : 0 < s.dbs.length) (g : GroupId) :
    (homeLoad s'.dbs g).fences[g]? =
      (s.unpersisted advanced)[g]?.or (homeLoad s.dbs g).fences[g]? := by
  rw [homeLoad_moved h hne, fences_drive_plan, BTreeMap.get_extend]
  simp only [share]
  rw [BTreeMap.get_filter]
  rcases (s.unpersisted advanced)[g]? with _ | e
  · rfl
  · simp

variable {key : String} {offset : Offset} {p : Epoch × ReplOp}

theorem slotStep_other (h : op_key p.2 ≠ key) (v : Option Stored) :
    slotStep key offset v p = v := by
  obtain ⟨e, op⟩ := p
  cases op with
  | Append k o q r =>
    have hk : k ≠ key := h
    simp [slotStep, slotEvent, hk]
  | Truncate k u =>
    have hk : k ≠ key := h
    simp [slotStep, slotEvent, hk]
  | Remove k =>
    have hk : k ≠ key := h
    simp [slotStep, slotEvent, hk]

theorem lowStep_other {base : Offset} (h : op_key p.2 ≠ key) (v : Option Offset) :
    lowStep base key v p = v := by
  obtain ⟨e, op⟩ := p
  cases op with
  | Append k o q r => rfl
  | Truncate k u =>
    have hk : k ≠ key := h
    simp [lowStep, hk]
  | Remove k =>
    have hk : k ≠ key := h
    simp [lowStep, hk]

/-- Steps that do nothing for the ops left out make the same run. -/
theorem foldl_filter_of_idle {β σ : Type} (f : σ → β → σ) (p : β → Bool) (xs : List β) (v : σ)
    (h : ∀ x ∈ xs, p x = false → ∀ v, f v x = v) : (xs.filter p).foldl f v = xs.foldl f v := by
  induction xs generalizing v with
  | nil => rfl
  | cons x xs ih =>
    have hrest : ∀ y ∈ xs, p y = false → ∀ v, f v y = v := fun y hy =>
      h y (List.mem_cons_of_mem x hy)
    rw [List.filter_cons]
    by_cases hx : p x = true
    · rw [if_pos hx]
      exact ih _ hrest
    · rw [if_neg hx, List.foldl_cons, h x List.mem_cons_self (by simpa using hx)]
      exact ih _ hrest

theorem op_key_ne_of_shard {n : Nat}
    (h : decide (shard_of_group (op_group p.2) n = shard_of_group (group_of_key key) n) = false) :
    op_key p.2 ≠ key := by
  rintro rfl
  simp [op_group] at h

theorem held_moved (h : Moved s s' advanced ops) (hne : 0 < s.dbs.length) (key : String)
    (offset : Offset) :
    held (keyLoad s'.dbs key).logs key offset =
      ops.foldl (slotStep key offset) (held (keyLoad s.dbs key).logs key offset) := by
  unfold keyLoad
  rw [homeLoad_moved h hne, held_drive_plan]
  exact foldl_filter_of_idle _ _ _ _ (fun p _ hp => slotStep_other (op_key_ne_of_shard hp))

/-- A low-water on disk after a commit has what the ops did to it, on top of the one before
the commit. -/
theorem truncated_moved (h : Moved s s' advanced ops) (hne : 0 < s.dbs.length) (key : String)
    (hm : s.truncated[key]? = (keyLoad s.dbs key).truncated[key]?) :
    (keyLoad s'.dbs key).truncated[key]? =
      ops.foldl (lowStep (s.watermark key) key) s.truncated[key]? := by
  have hbase : ∀ (ps : List (Epoch × ReplOp)) (b b' : Offset) (v : Option Offset),
      (ps.any (truncates key) = true → b = b') →
      ps.foldl (lowStep b key) v = ps.foldl (lowStep b' key) v := by
    intro ps
    induction ps with
    | nil => exact fun b b' v _ => rfl
    | cons p ps ih =>
      intro b b' v hb
      have hone : lowStep b key v p = lowStep b' key v p := by
        obtain ⟨e, op⟩ := p
        cases op with
        | Append k o q r => rfl
        | Truncate k u =>
          by_cases hk : k = key
          · rw [hb (by simp [hk])]
          · simp [lowStep, hk]
        | Remove k => rfl
      rw [List.foldl_cons, List.foldl_cons, hone]
      exact ih b b' _ (fun ht => hb (by rw [List.any_cons, ht, Bool.or_true]))
  have hlow : ∀ ps : List (Epoch × ReplOp), ps.any (truncates key) = true →
      (s.lows ps)[key]?.getD 0 = s.watermark key := by
    intro ps ht
    rw [get_lows, if_pos ht]
    rfl
  unfold keyLoad at hm ⊢
  rw [homeLoad_moved h hne, truncated_drive_plan]
  · rw [← hm]
    refine (hbase _ _ (s.watermark key) _ (fun ht => hlow _ ht)).trans ?_
    exact foldl_filter_of_idle _ _ _ _ (fun p _ hp => lowStep_other (op_key_ne_of_shard hp))
  · intro x hx ht
    rw [← hm] at hx
    rw [show (s.share (s.unpersisted advanced) ops
      (shard_of_group (group_of_key key) s.dbs.length)).watermarks[key]?.getD 0 = s.watermark key from
      hlow _ ht, watermark, hx]
    rfl

theorem slot_origin {v : Stored} (ops : List (Epoch × ReplOp)) {v0 : Option Stored}
    (h : ops.foldl (slotStep key offset) v0 = some v) :
    v0 = some v ∨ ∃ p ∈ ops, op_key p.2 = key ∧ v.1.epoch = p.1 := by
  induction ops generalizing v0 with
  | nil => exact Or.inl h
  | cons p ops ih =>
    rcases ih h with hv | ⟨q, hq, hk⟩
    · obtain ⟨e, op⟩ := p
      unfold slotStep at hv
      rcases hev : slotEvent key offset (e, op) with _ | ev
      · rw [hev] at hv
        exact Or.inl hv
      · rw [hev] at hv
        refine Or.inr ⟨(e, op), List.mem_cons_self, ?_⟩
        cases op with
        | Append k o q r =>
          simp only [slotEvent, Option.ite_none_right_eq_some, Option.some.injEq] at hev
          obtain ⟨⟨rfl, rfl⟩, rfl⟩ := hev
          cases hv
          exact ⟨rfl, rfl⟩
        | Truncate k u =>
          simp only [slotEvent, Option.ite_none_right_eq_some, Option.some.injEq] at hev
          rw [← hev.2] at hv
          cases hv
        | Remove k =>
          simp only [slotEvent, Option.ite_none_right_eq_some, Option.some.injEq] at hev
          rw [← hev.2] at hv
          cases hv
    · exact Or.inr ⟨q, List.mem_cons_of_mem p hq, hk⟩

/-! ## The fences of memory and of disk -/

/-- The store is routed, its fences are the persisted ones and not above those in memory, and
no entry, in memory or on disk, is above the fence of its group on disk. Nor is an op that
was accepted. -/
structure FencesKept (s : ReplicaState) (accepted : List (Epoch × ReplOp)) : Prop where
  stored : 0 < s.dbs.length
  routed : Routed s.dbs
  mirror : ∀ g : GroupId, s.persisted_fences[g]? = (homeLoad s.dbs g).fences[g]?
  led : ∀ g, s.diskFence g ≤ s.fence_of g
  entries : ∀ key offset v, held s.logs key offset = some v →
    v.1.epoch ≤ s.diskFence (group_of_key key)
  rows : ∀ key offset v, held (keyLoad s.dbs key).logs key offset = some v →
    v.1.epoch ≤ s.diskFence (group_of_key key)
  accepted : ∀ p ∈ accepted, p.1 ≤ s.diskFence (op_group p.2)

/-- A commit leaves the fence of a group on disk no lower, and at what it advances to at
least. -/
theorem diskFence_moved (h : Moved s s' advanced ops) (hne : 0 < s.dbs.length)
    (hmirror : ∀ g : GroupId, s.persisted_fences[g]? = (homeLoad s.dbs g).fences[g]?)
    (g : GroupId) :
    s.diskFence g ≤ s'.diskFence g ∧
      (∀ e, advanced[g]? = some e → e ≤ s'.diskFence g) ∧
      (s'.diskFence g = s.diskFence g ∨ advanced[g]? = some (s'.diskFence g)) := by
  have hf := fences_moved h hne g
  rw [unpersisted, BTreeMap.get_filter, hmirror] at hf
  unfold diskFence
  rw [hf]
  rcases ha : advanced[g]? with _ | e
  · refine ⟨by simp, by simp, by simp⟩
  · rcases hd : (homeLoad s.dbs g).fences[g]? with _ | on_disk
    · simp [Option.filter_some]
    · rw [Option.filter_some, Option.all_some]
      by_cases hlt : on_disk < e
      · rw [if_pos (decide_eq_true hlt)]
        refine ⟨Nat.le_of_lt hlt, fun x hx => ?_, Or.inr rfl⟩
        cases hx
        exact Nat.le_refl _
      · rw [if_neg (by simpa using hlt)]
        refine ⟨Nat.le_refl _, fun x hx => ?_, Or.inl rfl⟩
        cases hx
        exact Nat.le_of_not_gt hlt

theorem stale_epoch_le (h : s.is_stale_attempt p.1 p.2 = true) {f : Epoch}
    (hf : ∀ key offset v, held s.logs key offset = some v → group_of_key key = op_group p.2 →
      v.1.epoch ≤ f) : p.1 ≤ f := by
  obtain ⟨e, op⟩ := p
  cases op with
  | Append k o q r =>
    rw [is_stale_attempt_append, below_iff] at h
    obtain ⟨v, hv, hlt⟩ := h
    have hle : e ≤ v.1.epoch := epoch_le_of_le (le_of_lt hlt)
    exact Nat.le_trans hle (hf k o v hv rfl)
  | Truncate k u => simp at h
  | Remove k => simp at h

theorem routed_moved (h : Moved s s' advanced ops) (hr : Routed s.dbs) : Routed s'.dbs := by
  intro i shard hi
  have hd := h.disk i
  rw [hi] at hd
  rcases hdb : s.dbs[i]? with _ | db
  · rw [hdb] at hd
    cases hd
  · rw [hdb] at hd
    simp only [Option.map_some, Option.some.injEq] at hd
    rw [hd, h.length]
    refine routedTo_drive_plan (hr i db hdb) (fun g e hge => ?_) (fun p hp => ?_)
    · simp only [share] at hge
      rw [BTreeMap.get_filter, Option.filter_eq_some_iff] at hge
      simpa using hge.2
    · simp only [share, List.mem_filter] at hp
      simpa using hp.2

variable {acc : List (Epoch × ReplOp)}

theorem fencesKept_outcome (hk : FencesKept s acc) (ho : Outcome s s' advanced passed ops) :
    FencesKept s' (acc ++ passed) := by
  cases ho with
  | unchanged =>
    rw [List.append_nil]
    exact hk
  | learned advanced passed hadv =>
    refine ⟨hk.stored, hk.routed, hk.mirror, fun g => ?_, hk.entries, hk.rows, fun p hp => ?_⟩
    · refine Nat.le_trans (hk.led g) ?_
      rw [fence_of, fence_of, BTreeMap.get_extend]
      rcases ha : advanced[g]? with _ | e
      · simp
      · exact hadv.up g e ha
    · rcases List.mem_append.mp hp with hp | hp
      · exact hk.accepted p hp
      · -- With nothing persisted every op was stale, so an entry on disk is above it.
        have hs : s.is_stale_attempt p.1 p.2 = true := by simpa using hadv.stale p hp
        refine stale_epoch_le hs (fun key offset v hv hg => ?_)
        rw [← hg]
        exact hk.entries key offset v hv
  | moved s' advanced passed ops hadv hm =>
    have hdf := diskFence_moved hm hk.stored hk.mirror
    have hpassed : ∀ p ∈ passed, p.1 ≤ s'.diskFence (op_group p.2) := by
      intro p hp
      obtain ⟨e, he, hle⟩ := hadv.covers p hp
      exact Nat.le_trans hle ((hdf (op_group p.2)).2.1 e he)
    have hentry : ∀ key offset v v0, ops.foldl (slotStep key offset) v0 = some v →
        (∀ w, v0 = some w → w.1.epoch ≤ s.diskFence (group_of_key key)) →
        v.1.epoch ≤ s'.diskFence (group_of_key key) := by
      intro key offset v v0 hv hold
      rcases slot_origin ops hv with h0 | ⟨p, hp, hkey, hep⟩
      · exact Nat.le_trans (hold v h0) (hdf _).1
      · rw [hep, ← hkey]
        exact hpassed p (hadv.sub p hp)
    refine ⟨by rw [hm.length]; exact hk.stored, routed_moved hm hk.routed, fun g => ?_, fun g => ?_,
      fun key offset v hv => ?_, fun key offset v hv => ?_, fun p hp => ?_⟩
    · rw [hm.persisted, BTreeMap.get_extend, fences_moved hm hk.stored, hk.mirror]
    · have hfence : s'.fence_of g = (advanced[g]?.or s.fences[g]?).getD 0 := by
        rw [fence_of, hm.fences, BTreeMap.get_extend]
      rw [hfence]
      rcases (hdf g).2.2 with heq | ha
      · rw [heq]
        rcases ha : advanced[g]? with _ | e
        · exact hk.led g
        · exact Nat.le_trans (hk.led g) (hadv.up g e ha)
      · rw [ha]
        exact Nat.le_refl _
    · rw [hm.logs, held_apply_all] at hv
      exact hentry key offset v _ hv (hk.entries key offset)
    · rw [held_moved hm hk.stored] at hv
      exact hentry key offset v _ hv (hk.rows key offset)
    · rcases List.mem_append.mp hp with hp | hp
      · exact Nat.le_trans (hk.accepted p hp) (hdf _).1
      · exact hpassed p hp

theorem outcome_above (ho : Outcome s s' advanced passed ops) :
    (∀ p ∈ passed, s.fence_of (op_group p.2) ≤ p.1) ∧
      passed.Pairwise (fun p q => op_group p.2 = op_group q.2 → p.1 ≤ q.1) := by
  cases ho with
  | unchanged => simp
  | learned advanced passed hadv => exact ⟨hadv.above, hadv.ordered⟩
  | moved s' advanced passed ops hadv hm => exact ⟨hadv.above, hadv.ordered⟩

theorem outcome_length (ho : Outcome s s' advanced passed ops) : s'.dbs.length = s.dbs.length := by
  cases ho with
  | unchanged => rfl
  | learned advanced passed hadv => rfl
  | moved s' advanced passed ops hadv hm => exact hm.length

theorem fencesKept_reopen (hk : FencesKept s acc) : FencesKept (reopen s.dbs) acc := by
  obtain ⟨h1, h2, h3, -⟩ := reopen_home hk.routed
  have hdbs : (reopen s.dbs).dbs = s.dbs := (reopen_fields s.dbs).2.2.2.2
  have hdf : ∀ g, (reopen s.dbs).diskFence g = s.diskFence g := fun g => by
    rw [diskFence, hdbs, diskFence]
  refine ⟨by rw [hdbs]; exact hk.stored, by rw [hdbs]; exact hk.routed, fun g => ?_, fun g => ?_,
    fun key offset v hv => ?_, fun key offset v hv => ?_, fun p hp => ?_⟩
  · rw [h2, hdbs]
  · rw [hdf, diskFence, fence_of, h1]
  · rw [h3] at hv
    rw [hdf]
    exact hk.rows key offset v hv
  · rw [hdbs] at hv
    rw [hdf]
    exact hk.rows key offset v hv
  · rw [hdf]
    exact hk.accepted p hp

/-! ## Runs -/

/-- A call whose commits all succeed or all fail, or a restart. -/
inductive Event
  | Call (io : Bool) (c : Call)
  | Restart

def event (s : ReplicaState) : Event → List (Epoch × ReplOp) × ReplicaState
  | .Call io c => s.call (fun _ => io) c
  | .Restart => ([], reopen s.dbs)

/-- The events one after another: every op accepted, in order, and the state after them. -/
def run (s : ReplicaState) : List Event → List (Epoch × ReplOp) × ReplicaState
  | [] => ([], s)
  | ev :: events =>
    let (accepted, s) := s.event ev
    let (rest, s) := run s events
    (accepted ++ rest, s)

/-- The sender routes the batches of a shard's writer. -/
def EventRouted (n : Nat) : Event → Prop
  | .Call _ c => CallRouted n c
  | .Restart => True

/-- The shards of a store that holds nothing yet. -/
def EmptyStore (dbs : List Shard) : Prop := dbs ≠ [] ∧ ∀ shard ∈ dbs, shard.load = {}

theorem fencesKept_event (hk : FencesKept s acc) (ev : Event) (hr : EventRouted s.dbs.length ev) :
    FencesKept (s.event ev).2 (acc ++ (s.event ev).1) ∧
      (∀ p ∈ (s.event ev).1, s.fence_of (op_group p.2) ≤ p.1) ∧
      (s.event ev).1.Pairwise (fun p q => op_group p.2 = op_group q.2 → p.1 ≤ q.1) ∧
      (s.event ev).2.dbs.length = s.dbs.length := by
  cases ev with
  | Call io c =>
    obtain ⟨advanced, ops, -, -, ho⟩ := s.call_outcome io c hk.stored hr
    obtain ⟨h1, h2⟩ := outcome_above ho
    exact ⟨fencesKept_outcome hk ho, h1, h2, outcome_length ho⟩
  | Restart =>
    simp only [event, List.append_nil]
    refine ⟨fencesKept_reopen hk, by simp, by simp, ?_⟩
    rw [(reopen_fields s.dbs).2.2.2.2]

theorem fencesKept_start {dbs : List Shard} (h : EmptyStore dbs) : FencesKept (reopen dbs) [] := by
  have hload : ∀ g, homeLoad dbs g = {} := by
    intro g
    unfold homeLoad
    rcases hd : dbs[shard_of_group g dbs.length]? with _ | shard
    · rfl
    · rw [Option.map_some, Option.getD_some]
      exact h.2 shard (List.mem_of_getElem? hd)
  have hrouted : Routed dbs := by
    intro i shard hi
    rw [h.2 shard (List.mem_of_getElem? hi)]
    exact ⟨fun g e he => by simp at he, fun k log hl => by simp at hl,
      fun k o ho => by simp at ho⟩
  obtain ⟨h1, h2, h3, -⟩ := reopen_home hrouted
  have hdbs : (reopen dbs).dbs = dbs := (reopen_fields dbs).2.2.2.2
  refine ⟨?_, by rw [hdbs]; exact hrouted, fun g => by rw [h2, hdbs], fun g => ?_,
    fun key offset v hv => ?_, fun key offset v hv => ?_, by simp⟩
  · rw [hdbs]
    exact List.length_pos_iff.mpr h.1
  · rw [diskFence, hdbs, fence_of, h1]
  · rw [h3, keyLoad, hload] at hv
    simp at hv
  · rw [hdbs, keyLoad, hload] at hv
    simp at hv

theorem run_accepts_in_order (hk : FencesKept s acc)
    (hord : acc.Pairwise (fun p q => op_group p.2 = op_group q.2 → p.1 ≤ q.1))
    (events : List Event) (hr : ∀ ev ∈ events, EventRouted s.dbs.length ev) :
    FencesKept (s.run events).2 (acc ++ (s.run events).1) ∧
      (acc ++ (s.run events).1).Pairwise (fun p q => op_group p.2 = op_group q.2 → p.1 ≤ q.1) := by
  induction events generalizing s acc with
  | nil => simpa [run] using ⟨hk, hord⟩
  | cons ev events ih =>
    obtain ⟨h1, h2, h3, h4⟩ := fencesKept_event hk ev (hr ev List.mem_cons_self)
    have hord' : (acc ++ (s.event ev).1).Pairwise
        (fun p q => op_group p.2 = op_group q.2 → p.1 ≤ q.1) := by
      refine List.pairwise_append.mpr ⟨hord, h3, fun p hp q hq hg => ?_⟩
      calc p.1 ≤ s.diskFence (op_group p.2) := hk.accepted p hp
        _ ≤ s.fence_of (op_group p.2) := hk.led _
        _ = s.fence_of (op_group q.2) := by rw [hg]
        _ ≤ q.1 := h2 q hq
    have hrest := ih h1 hord' (fun e he => by rw [h4]; exact hr e (List.mem_cons_of_mem ev he))
    simpa only [run, List.append_assoc] using hrest

/-- Over every run of calls, failed commits and restarts, from a store that holds nothing, no
op is accepted below an epoch that its group had accepted before. -/
theorem a_fenced_epoch_stays_fenced (dbs : List Shard) (hdbs : EmptyStore dbs)
    (events : List Event) (hr : ∀ ev ∈ events, EventRouted dbs.length ev) :
    ((reopen dbs).run events).1.Pairwise (fun p q => op_group p.2 = op_group q.2 → p.1 ≤ q.1) := by
  have hlen : (reopen dbs).dbs = dbs := (reopen_fields dbs).2.2.2.2
  have h := run_accepts_in_order (fencesKept_start hdbs) List.Pairwise.nil events
    (by rw [hlen]; exact hr)
  simpa using h.2

/-- Two shards, one of each backend, with nothing in them. -/
def twoShards : List Shard := [.Redb {}, .Log []]

theorem twoShards_empty : EmptyStore twoShards := by
  refine ⟨by simp [twoShards], fun shard hs => ?_⟩
  simp only [twoShards, List.mem_cons, List.not_mem_nil, or_false] at hs
  rcases hs with rfl | rfl
  · simp [Shard.load, load, load_logs]
  · rfl

/-- An epoch that only a stale attempt taught survives a restart: the entry above it kept the
fence on disk. -/
theorem a_learned_epoch_stays_fenced :
    ((reopen twoShards).run [.Call true (.Apply 7 (.Append "q/a" 1 5 [1])),
        .Call true (.Apply 7 (.Append "q/a" 1 2 [2])), .Restart,
        .Call true (.Apply 6 (.Append "q/a" 2 9 [3])),
        .Call true (.Apply 8 (.Append "q/a" 2 1 [4]))]).1.map (fun p => p.1) = [7, 7, 8] ∧
      ((reopen twoShards).run [.Call true (.Apply 7 (.Append "q/a" 1 5 [1])),
        .Call true (.Apply 7 (.Append "q/a" 1 2 [2])), .Restart,
        .Call true (.Apply 6 (.Append "q/a" 2 9 [3])),
        .Call true (.Apply 8 (.Append "q/a" 2 1 [4]))]).1.Pairwise
        (fun p q => op_group p.2 = op_group q.2 → p.1 ≤ q.1) :=
  ⟨by decide +kernel, a_fenced_epoch_stays_fenced twoShards twoShards_empty _ (by
    simp [EventRouted, CallRouted])⟩

/-! ## The low-water of memory and of disk -/

def lowEvent (key : String) : Epoch × ReplOp → Option (Option Offset)
  | (_, .Append _ _ _ _) => none
  | (_, .Truncate k u) => if k = key then some (some u) else none
  | (_, .Remove k) => if k = key then some none else none

/-- A truncate raises the low-water from `base`, a remove takes it. -/
def lowWrite (base : Offset) (v : Option Offset) : Option Offset → Option Offset
  | none => none
  | some u => some (max (v.getD base) u)

theorem foldl_lowStep (base : Offset) (key : String) (ops : List (Epoch × ReplOp))
    (v : Option Offset) :
    ops.foldl (lowStep base key) v = (ops.filterMap (lowEvent key)).foldl (lowWrite base) v := by
  induction ops generalizing v with
  | nil => rfl
  | cons p ops ih =>
    rw [List.foldl_cons, ih, List.filterMap_cons]
    obtain ⟨e, op⟩ := p
    cases op with
    | Append k o q r => rfl
    | Truncate k u => by_cases hk : k = key <;> simp [lowStep, lowEvent, hk, lowWrite]
    | Remove k => by_cases hk : k = key <;> simp [lowStep, lowEvent, hk, lowWrite]

/-- A key that the ops remove and then truncate is truncated to its old low-water at least. -/
def LowKept (s : ReplicaState) (ops : List (Epoch × ReplOp)) : Prop :=
  ∀ key, (sinceClear (ops.filterMap (lowEvent key))).1 = true →
    (sinceClear (ops.filterMap (lowEvent key))).2 ≠ [] →
    ∃ u ∈ (sinceClear (ops.filterMap (lowEvent key))).2, s.watermark key ≤ u

theorem foldl_lowWrite_some (base x : Offset) (us : List Offset) :
    us.foldl (fun v u => lowWrite base v (some u)) (some x) = some (us.foldl max x) := by
  induction us generalizing x with
  | nil => rfl
  | cons u us ih => exact ih (max x u)

theorem foldl_max_eq_iff (x y : Nat) (us : List Nat) (h : x ≤ y) :
    us.foldl max y = us.foldl max x ↔ y = x ∨ ∃ u ∈ us, y ≤ u := by
  induction us generalizing x y with
  | nil => simp
  | cons u us ih =>
    rw [List.foldl_cons, List.foldl_cons, ih _ _ (max_le_max h (Nat.le_refl u))]
    simp only [List.mem_cons, exists_eq_or_imp]
    by_cases hy : y ≤ u
    · have hx : x ≤ u := Nat.le_trans h hy
      simp [hy, hx]
    · have hu : u < y := Nat.lt_of_not_ge hy
      rw [max_eq_left (Nat.le_of_lt hu)]
      simp only [hy, false_or]
      constructor
      · rintro (he | hex)
        · left
          rcases le_total x u with hxu | hux
          · rw [max_eq_right hxu] at he
            omega
          · rw [max_eq_left hux] at he
            exact he
        · exact Or.inr hex
      · rintro (rfl | hex)
        · left
          exact (max_eq_left (Nat.le_of_lt hu)).symm
        · exact Or.inr hex

/-- The low-waters that the ops leave on disk and in memory are the same exactly when the ops
keep the low-water. -/
theorem low_eq_iff (v : Option Offset) (evs : List (Option Offset)) :
    evs.foldl (lowWrite (v.getD 0)) v = evs.foldl (lowWrite 0) v ↔
      ((sinceClear evs).1 = true → (sinceClear evs).2 ≠ [] → ∃ u ∈ (sinceClear evs).2, v.getD 0 ≤ u) := by
  rw [foldl_sinceClear (lowWrite (v.getD 0)) none (fun _ => rfl),
    foldl_sinceClear (lowWrite 0) none (fun _ => rfl)]
  generalize (sinceClear evs).1 = removed
  generalize (sinceClear evs).2 = us
  cases removed with
  | false =>
    simp only [Bool.false_eq_true, if_false, false_imp_iff, iff_true]
    rcases v with _ | x
    · rfl
    · rw [foldl_lowWrite_some, foldl_lowWrite_some]
  | true =>
    simp only [if_true, forall_const]
    rcases us with _ | ⟨u, us⟩
    · simp
    · have hstart : ∀ base : Offset, lowWrite base none (some u) = some (max base u) :=
        fun _ => rfl
      rw [List.foldl_cons, List.foldl_cons, hstart, hstart, Nat.zero_max, foldl_lowWrite_some,
        foldl_lowWrite_some, Option.some.injEq, foldl_max_eq_iff _ _ _ (le_max_right _ _)]
      simp only [ne_eq, reduceCtorEq, not_false_eq_true, List.mem_cons, exists_eq_or_imp,
        max_le_iff, max_eq_right_iff, forall_const]
      constructor
      · rintro (h | ⟨w, hw, h1, -⟩)
        · exact Or.inl h
        · exact Or.inr ⟨w, hw, h1⟩
      · rintro (h | ⟨w, hw, h1⟩)
        · exact Or.inl h
        · rcases le_total (v.getD 0) u with hvu | huv
          · exact Or.inl hvu
          · exact Or.inr ⟨w, hw, h1, Nat.le_trans huv h1⟩

/-! ## The logs of memory and of disk -/

/-- The store holds the logs and the low-waters that are in memory. -/
structure Mirrored (s : ReplicaState) : Prop where
  logs : ∀ key offset, held (keyLoad s.dbs key).logs key offset = held s.logs key offset
  truncated : ∀ key : String, s.truncated[key]? = (keyLoad s.dbs key).truncated[key]?

theorem mirrored_moved_iff (h : Moved s s' advanced ops) (hne : 0 < s.dbs.length)
    (hm : Mirrored s) : Mirrored s' ↔ LowKept s ops := by
  have hlow : ∀ key : String, s'.truncated[key]? = (keyLoad s'.dbs key).truncated[key]? ↔
      ((sinceClear (ops.filterMap (lowEvent key))).1 = true →
        (sinceClear (ops.filterMap (lowEvent key))).2 ≠ [] →
        ∃ u ∈ (sinceClear (ops.filterMap (lowEvent key))).2, s.watermark key ≤ u) := by
    intro key
    rw [h.truncated, truncated_apply_all, truncated_moved h hne key (hm.truncated key),
      foldl_lowStep, foldl_lowStep, eq_comm]
    exact low_eq_iff _ _
  constructor
  · exact fun hm' key => (hlow key).mp (hm'.truncated key)
  · refine fun hk => ⟨fun key offset => ?_, fun key => (hlow key).mpr (hk key)⟩
    rw [held_moved h hne, h.logs, held_apply_all, hm.logs]

theorem mirrored_outcome (hne : 0 < s.dbs.length) (hm : Mirrored s)
    (ho : Outcome s s' advanced passed ops) (hk : LowKept s ops) : Mirrored s' := by
  cases ho with
  | unchanged => exact hm
  | learned advanced passed hadv => exact ⟨hm.logs, hm.truncated⟩
  | moved s' advanced passed ops hadv hmv => exact (mirrored_moved_iff hmv hne hm).mpr hk

theorem lowKept_nil (s : ReplicaState) : LowKept s [] := by
  intro key h
  simp [sinceClear] at h

/-- A call that commits keeps the low-water of every key that it removes and truncates. -/
def EventKeepsLow (s : ReplicaState) : Event → Prop
  | .Call io c => io = true → LowKept s (s.passed (s.callOps c))
  | .Restart => True

/-- Every event of a run, in the state it finds, keeps the low-waters. -/
def RunKeepsLow (s : ReplicaState) : List Event → Prop
  | [] => True
  | ev :: events => s.EventKeepsLow ev ∧ RunKeepsLow (s.event ev).2 events

theorem lowEvents_fresh (s : ReplicaState) (batch : List (Epoch × ReplOp)) (key : String) :
    (s.fresh batch).filterMap (lowEvent key) = (s.passed batch).filterMap (lowEvent key) := by
  unfold fresh
  generalize s.passed batch = ps
  induction ps with
  | nil => rfl
  | cons p ps ih =>
    obtain ⟨e, op⟩ := p
    rw [List.filter_cons]
    cases op with
    | Append k o q r =>
      by_cases hs : s.is_stale_attempt e (.Append k o q r) = true <;>
        simp [hs, List.filterMap_cons, lowEvent, ih]
    | Truncate k u => simp [List.filterMap_cons, ih]
    | Remove k => simp [List.filterMap_cons, ih]

theorem lowKept_fresh {batch : List (Epoch × ReplOp)} (h : LowKept s (s.passed batch)) :
    LowKept s (s.fresh batch) := by
  intro key
  rw [lowEvents_fresh]
  exact h key

theorem mirrored_reopen (hr : Routed s.dbs) : Mirrored (reopen s.dbs) := by
  obtain ⟨-, -, h3, h4⟩ := reopen_home hr
  have hdbs : (reopen s.dbs).dbs = s.dbs := (reopen_fields s.dbs).2.2.2.2
  refine ⟨fun key offset => ?_, fun key => ?_⟩
  · rw [hdbs, h3]
  · rw [hdbs, h4]

theorem mirrored_event (hf : FencesKept s acc) (hm : Mirrored s) (ev : Event)
    (hr : EventRouted s.dbs.length ev) (hk : s.EventKeepsLow ev) : Mirrored (s.event ev).2 := by
  cases ev with
  | Call io c =>
    obtain ⟨advanced, ops, -, hops, ho⟩ := s.call_outcome io c hf.stored hr
    refine mirrored_outcome hf.stored hm ho ?_
    rcases hops with rfl | ⟨hio, rfl⟩
    · exact lowKept_nil s
    · exact lowKept_fresh (hk hio)
  | Restart => exact mirrored_reopen hf.routed

theorem mirrored_run (hf : FencesKept s acc) (hm : Mirrored s) (events : List Event)
    (hr : ∀ ev ∈ events, EventRouted s.dbs.length ev) (hk : s.RunKeepsLow events) :
    Mirrored (s.run events).2 := by
  induction events generalizing s acc with
  | nil => exact hm
  | cons ev events ih =>
    obtain ⟨h1, -, -, h4⟩ := fencesKept_event hf ev (hr ev List.mem_cons_self)
    have hrest : ∀ e ∈ events, EventRouted (s.event ev).2.dbs.length e := fun e he => by
      rw [h4]
      exact hr e (List.mem_cons_of_mem ev he)
    exact ih h1 (mirrored_event hf hm ev (hr ev List.mem_cons_self) hk.1) hrest hk.2

/-- After every run of calls, with commits that fail or not, that keeps the low-waters, a
reload gives the logs and the low-waters in memory, and no fence below an accepted op. -/
theorem a_reload_gives_what_memory_holds (dbs : List Shard) (hdbs : EmptyStore dbs)
    (events : List Event) (hr : ∀ ev ∈ events, EventRouted dbs.length ev)
    (hk : (reopen dbs).RunKeepsLow events) :
    (∀ key offset, held (reopen ((reopen dbs).run events).2.dbs).logs key offset =
        held ((reopen dbs).run events).2.logs key offset) ∧
      (reopen ((reopen dbs).run events).2.dbs).truncated = ((reopen dbs).run events).2.truncated ∧
      ∀ p ∈ ((reopen dbs).run events).1,
        p.1 ≤ (reopen ((reopen dbs).run events).2.dbs).fence_of (op_group p.2) := by
  have hstart := fencesKept_start hdbs
  have hlen : (reopen dbs).dbs = dbs := (reopen_fields dbs).2.2.2.2
  have hr' : ∀ ev ∈ events, EventRouted (reopen dbs).dbs.length ev := by
    rw [hlen]
    exact hr
  have hmstart : Mirrored (reopen dbs) := by
    have hrouted := hstart.routed
    rw [hlen] at hrouted
    exact mirrored_reopen (s := { dbs }) hrouted
  have hm := mirrored_run hstart hmstart events hr' hk
  have hf := (run_accepts_in_order hstart List.Pairwise.nil events hr').1
  obtain ⟨h1, -, h3, h4⟩ := reopen_home hf.routed
  refine ⟨fun key offset => ?_, ?_, fun p hp => ?_⟩
  · rw [h3, hm.logs]
  · ext key : 1
    rw [h4, hm.truncated]
  · have hle := hf.accepted p hp
    rwa [diskFence, ← h1] at hle

/-- A batch that removes a key and truncates it lower: memory has the new low-water, the
store the old one. -/
theorem a_reload_brings_a_low_water_back :
    ¬ (reopen ((reopen [.Redb {}]).run [.Call true (.Apply 1 (.Truncate "q/a" 10)),
          .Call true (.ApplyBatch [(1, .Remove "q/a"), (1, .Truncate "q/a" 3)])]).2.dbs).truncated =
        ((reopen [.Redb {}]).run [.Call true (.Apply 1 (.Truncate "q/a" 10)),
          .Call true (.ApplyBatch [(1, .Remove "q/a"), (1, .Truncate "q/a" 3)])]).2.truncated := by
  decide +kernel

/-- A truncate, an append that fails, and a batch that removes the key and truncates it to where
it was. -/
def removeAndTruncate : List Event :=
  [.Call true (.Apply 1 (.Truncate "q/a" 10)), .Call false (.Apply 2 (.Append "q/a" 11 1 [1])),
    .Call true (.ApplyBatch [(1, .Remove "q/a"), (1, .Truncate "q/a" 10)])]

theorem removeAndTruncate_keeps_low : (reopen twoShards).RunKeepsLow removeAndTruncate := by
  refine ⟨fun _ => ?_, ⟨fun h => absurd h (by decide), ⟨fun _ => ?_, trivial⟩⟩⟩
  · have hp : (reopen twoShards).passed [(1, .Truncate "q/a" 10)] = [(1, .Truncate "q/a" 10)] := by
      decide +kernel
    rw [callOps, hp]
    intro key h
    by_cases hk : "q/a" = key <;> simp [sinceClear, lowEvent, sinceClearStep, hk] at h
  · generalize hs : (event (event (reopen twoShards) _).2 _).2 = s
    have hp : s.passed [(1, .Remove "q/a"), (1, .Truncate "q/a" 10)] =
        [(1, .Remove "q/a"), (1, .Truncate "q/a" 10)] := by
      rw [← hs]
      decide +kernel
    have hw : s.watermark "q/a" = 10 := by
      rw [← hs]
      decide +kernel
    rw [callOps, hp]
    intro key h hne
    by_cases hk : "q/a" = key
    · subst hk
      exact ⟨10, by decide, Nat.le_of_eq hw⟩
    · simp [sinceClear, lowEvent, hk] at h

theorem a_reload_gives_what_memory_holds_after_a_remove :
    ((reopen twoShards).run removeAndTruncate).1.length = 3 ∧
      (reopen ((reopen twoShards).run removeAndTruncate).2.dbs).truncated =
        ((reopen twoShards).run removeAndTruncate).2.truncated :=
  ⟨by decide +kernel, (a_reload_gives_what_memory_holds twoShards twoShards_empty removeAndTruncate
    (by simp [removeAndTruncate, EventRouted, CallRouted]) removeAndTruncate_keeps_low).2.1⟩

end ReplicaState

end mqtt_cluster.cluster_log
