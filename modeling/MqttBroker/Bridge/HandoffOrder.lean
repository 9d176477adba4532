-- The handoff of one side between its spool and its live path (`Handoff` in `engine.rs`), over
-- every interleaving of the router's forwards with the supervisor's opening and closing. A
-- forward goes behind everything that was accepted before it for as long as an opening finds
-- nothing in the spool that it has to leave there.
import Mathlib.Data.List.ReduceOption
import MqttBroker.Bridge.Engine
import MqttBroker.Bridge.SpoolFaults

namespace mqtt_bridge

open ByteCodec Wire

/-! ## What is waiting in a spool -/

namespace Spool

/-- Which forward each record is of, the oldest first. -/
def tags (s : Spool) : List (Option Origin) :=
  match s.inner with
  | .Mem q _ => q.map (·.2)
  | .Disk table _ _ => table.toList.map (·.2.2)

/-- The forwards that are in the spool, the oldest first. -/
def waiting (s : Spool) : List Origin := s.tags.reduceOption

/-- A drain can take everything: there is no record, or its transaction is through and reads
each one. -/
def Clears (s : Spool) (fault : Option DiskFault) (skipped : List Nat) : Prop :=
  match s.inner with
  | .Mem _ _ => True
  | .Disk table _ _ => ∀ (k : Nat) v, table[k]? = some v → fault = none ∧ k ∉ skipped

variable {s : Spool} {fault : Option DiskFault} {msg : SpooledMessage} {o : Option Origin}

theorem len_eq_tags (s : Spool) : s.len = s.tags.length := by
  unfold len tags
  cases s.inner with
  | Mem q bytes => simp
  | Disk table next bytes => exact (BTreeMap.size_eq table).trans (List.length_map _).symm

theorem waiting_of_len (h : s.len = 0) : s.waiting = [] := by
  rw [len_eq_tags, List.length_eq_zero_iff] at h
  simp [waiting, h, List.reduceOption]

/-- The records of a queue that lost its oldest ones and took one more. -/
theorem waiting_sublist {l l' : List (Option Origin)} (h : l'.Sublist (l ++ [o])) :
    l'.reduceOption.Sublist (l.reduceOption ++ o.toList) := by
  have hmap := h.filterMap id
  rw [List.filterMap_append] at hmap
  cases o <;> simpa [List.reduceOption] using hmap

theorem shed_drops (incoming : Nat) (q : List (SpooledMessage × Option Origin)) (bytes : Nat) :
    (s.shed incoming q bytes).1.Sublist q := by
  induction q generalizing bytes with
  | nil => simp [shed]
  | cons e q ih =>
    rw [shed]
    split
    · exact (ih _).trans (List.sublist_cons_self _ _)
    · simp

theorem evict_drops (incoming limit : Nat) (rows : List (Nat × Bytes × Option Origin))
    (table : BTreeMap Nat (Bytes × Option Origin)) (bytes : Nat) (hrows : table.toList = rows) :
    ∃ n, (s.evict incoming limit rows table bytes).1.toList = rows.drop n := by
  induction limit generalizing rows table bytes with
  | zero => exact ⟨0, by cases rows <;> simpa [evict] using hrows⟩
  | succ limit ih =>
    cases rows with
    | nil => exact ⟨0, by simpa [evict] using hrows⟩
    | cons e rest =>
      rw [evict]
      split
      · obtain ⟨n, hn⟩ := ih rest (table.erase e.1) _ (BTreeMap.toList_erase_first hrows)
        exact ⟨n + 1, by simpa using hn⟩
      · exact ⟨0, by simpa using hrows⟩

/-- What a push leaves: the newcomer, if it was taken, behind some of the old records. -/
structure Queued (s : Spool) (o : Option Origin) (r : Except SpoolError Unit × Spool) : Prop where
  fresh : r.2.Fresh
  taken : r.2.tags.Sublist (s.tags ++ [o])
  refused : ∀ e, r.1 = .error e → r.2.tags = s.tags

theorem queued_self (hf : s.Fresh) (x : Except SpoolError Unit) (dropped : Nat) :
    Queued s o (x, { s with dropped }) :=
  ⟨hf, List.sublist_append_left _ _, fun _ _ => rfl⟩

section inner

variable {table : BTreeMap Nat (Bytes × Option Origin)} {next bytes : Nat}

theorem tags_disk (h : s.inner = .Disk table next bytes) :
    s.tags = table.toList.map (·.2.2) := by
  unfold tags
  rw [h]

theorem queued_failed (hf : s.Fresh) (hin : s.inner = .Disk table next bytes) (e : SpoolError)
    {next' : Nat} (hnext : next ≤ next') (bytes' dropped : Nat) :
    Queued s o (.error e, { s with inner := .Disk table next' bytes', dropped }) := by
  unfold Fresh at hf
  rw [hin] at hf
  have htags : s.tags = table.toList.map (·.2.2) := tags_disk hin
  refine ⟨fun k v hk => Nat.lt_of_lt_of_le (hf k v hk) hnext, ?_, fun _ _ => ?_⟩
  · rw [htags]
    exact List.sublist_append_left _ _
  · rw [htags]
    simp [tags]

theorem queued_inserted {kept : BTreeMap Nat (Bytes × Option Origin)} {n : Nat} (hf : s.Fresh)
    (hin : s.inner = .Disk table next bytes) (hkept : kept.toList = table.toList.drop n)
    (record : Bytes) (bytes' dropped : Nat) :
    Queued s o (.ok (), { s with
      inner := .Disk (kept.insert next (record, o)) (next + 1) bytes', dropped }) := by
  unfold Fresh at hf
  rw [hin] at hf
  have hfresh := fresh_of_drop hkept hf
  have hlast := BTreeMap.toList_insert_last (v := (record, o)) hfresh
  refine ⟨?_, ?_, fun e he => by cases he⟩
  · intro k v hk
    rw [BTreeMap.get_insert] at hk
    split at hk
    · rename_i heq
      omega
    · exact Nat.lt_succ_of_lt (hfresh k v hk)
  · rw [tags_disk hin]
    simp only [tags, hlast, List.map_append, hkept, List.map_drop, List.map_cons, List.map_nil]
    exact (List.drop_sublist _ _).append (List.Sublist.refl _)

theorem push_disk_drop_oldest_queued (hf : s.Fresh) (hin : s.inner = .Disk table next bytes) :
    Queued s o (s.push_disk_drop_oldest table next bytes fault msg o) := by
  unfold push_disk_drop_oldest
  cases fault with
  | none =>
    obtain ⟨n, hn⟩ := evict_drops (s := s) (message_bytes msg) table.size table.toList table
      bytes rfl
    exact queued_inserted hf hin hn _ _ _
  | some f =>
    cases f with
    | Read => exact queued_self hf _ _
    | Begin => exact queued_self hf _ _
    | Evict done => exact queued_failed hf hin _ (Nat.le_refl _) _ _
    | Remove done => exact queued_failed hf hin _ (Nat.le_refl _) _ _
    | Insert => exact queued_failed hf hin _ (Nat.le_refl _) _ _
    | Commit => exact queued_failed hf hin _ (Nat.le_succ _) _ _

end inner

theorem append_queued (hf : s.Fresh) : Queued s o (s.append fault msg o) := by
  refine ⟨append_fresh hf, ?_, ?_⟩ <;> unfold append
  all_goals
    cases hin : s.inner with
    | Mem q bytes => simp [tags, hin]
    | Disk table next bytes => ?_
  · cases fault with
    | none => exact (queued_inserted (n := 0) hf hin rfl (encode msg) _ s.dropped).taken
    | some f => cases f <;> simp [tags, hin]
  · cases fault with
    | none => simp
    | some f => cases f <;> simp [tags, hin]

theorem push_queued (hf : s.Fresh) : Queued s o (s.push fault msg o) := by
  unfold push
  dsimp only
  split
  · exact queued_self hf _ _
  split
  · split
    · exact queued_self hf _ _
    · exact queued_self hf _ _
  split
  · split
    · exact queued_self hf _ _
    · cases hin : s.inner with
      | Mem q bytes =>
        refine ⟨trivial, ?_, fun e he => by cases he⟩
        have hq := (shed_drops (s := s) (message_bytes msg) q bytes).map Prod.snd
        simp only [tags, hin, List.map_append, List.map_cons, List.map_nil]
        exact hq.append (List.Sublist.refl _)
      | Disk table next bytes => exact push_disk_drop_oldest_queued hf hin
  · exact append_queued hf

theorem drain_gives {skipped : List Nat} {out : List (SpooledMessage × Option Origin)}
    (h : (s.drain fault skipped).1 = .ok out) :
    (out.map Prod.snd).reduceOption.Sublist s.waiting := by
  unfold drain at h
  unfold waiting tags
  cases hin : s.inner with
  | Mem q bytes =>
    rw [hin] at h
    cases h
    exact List.Sublist.refl _
  | Disk table next bytes =>
    simp only [hin] at h
    split at h
    · cases h
    · cases h
      refine List.Sublist.filterMap id ?_
      have hfound : (table.toList.filter (fun e => decide (e.1 ∉ skipped))).Sublist
          table.toList := List.filter_sublist
      refine List.Sublist.trans ?_ (hfound.map (fun e => e.2.2))
      induction table.toList.filter (fun e => decide (e.1 ∉ skipped)) with
      | nil => simp
      | cons e rest ih =>
        rw [List.filterMap_cons]
        cases decode e.2.1 with
        | none => exact ih.trans (List.sublist_cons_self _ _)
        | some m => exact ih.cons_cons _

/-- A drain leaves no record exactly when it can take everything. -/
theorem drain_len_iff {skipped : List Nat} :
    (s.drain fault skipped).2.len = 0 ↔ s.Clears fault skipped := by
  unfold drain Clears
  cases hin : s.inner with
  | Mem q bytes => simp [len]
  | Disk table next bytes =>
    have hempty (t : BTreeMap Nat (Bytes × Option Origin)) :
        t.size = 0 ↔ ∀ (k : Nat) v, t[k]? ≠ some v := by
      rw [BTreeMap.size_eq, List.length_eq_zero_iff, List.eq_nil_iff_forall_not_mem]
      constructor
      · intro h k v hk
        exact h (k, v) ((BTreeMap.mem_toList t k v).mpr hk)
      · rintro h ⟨k, v⟩ hk
        exact h k v ((BTreeMap.mem_toList t k v).mp hk)
    dsimp only
    cases fault with
    | some f =>
      simp only [Option.isSome_some, if_true, len, hin, hempty]
      simp
    | none =>
      simp only [Option.isSome_none, Bool.false_eq_true, if_false, len, hempty, true_and,
        BTreeMap.get_foldl_erase]
      constructor
      · intro h k v hk hskip
        refine h k v ?_
        rw [if_neg]
        · exact hk
        · simp [hskip]
      · intro h k v hk
        split at hk
        · cases hk
        · rename_i hnot
          refine hnot (List.mem_map.mpr ⟨(k, v), ?_, rfl⟩)
          rw [List.mem_filter, BTreeMap.mem_toList]
          exact ⟨hk, by simpa using h k v hk⟩

end Spool

/-! ## The handoff -/

/-- What reaches the handoff of a side: a forward of the router, and the connection of the
side coming up and going. Each takes the gate, so it is one step. -/
inductive Gated
  | Forward (fault : Option DiskFault) (p : mqtt_codec.Publish) (f : Forward)
  | Open (fault : Option DiskFault) (skipped : List Nat)
  | Close

/-- A side with the history of its forwards: how many there were, and those that were accepted,
in that order. -/
structure Handoff where
  side : SideState
  forwards : Nat := 0
  accepted : List Origin := []

def Command.forwarded : Command → Option Origin
  | .Publish _ _ _ _ _ _ origin => origin
  | _ => none

namespace Handoff

/-- Each forward has a number of its own, by which it is told from the others. -/
def step (h : Handoff) : Gated → Handoff
  | .Forward fault p f =>
    let o := (h.forwards, 0)
    let (accepted, side) := h.side.forward fault (live p f (some o)) (spooled p f) (some o)
    { side
      forwards := h.forwards + 1
      accepted := if accepted.toBool then h.accepted ++ [o] else h.accepted }
  | .Open fault skipped => { h with side := h.side.openHandoff fault skipped }
  | .Close => { h with side := h.side.closeHandoff }

def run (h : Handoff) (events : List Gated) : Handoff := events.foldl step h

/-- A side that is down, over the spool that it was started with. -/
def new (spool : Spool) : Handoff := { side := { spool } }

/-- The forwards that are on the channel, in its order. -/
def sent (h : Handoff) : List Origin := h.side.commands.filterMap Command.forwarded

/-- Forwards reach the channel at most once each and in the order in which they were accepted,
and a side that is up has an empty spool. -/
structure Orderly (h : Handoff) : Prop where
  once : h.sent.Nodup
  order : h.sent.Sublist h.accepted
  drained : h.side.connected = true → h.side.spool.len = 0

/-- What an opening has to meet: its drain can take everything that is in the spool. -/
def Meets (h : Handoff) : Gated → Prop
  | .Open fault skipped => h.side.spool.Clears fault skipped
  | _ => True

def AllMeet (h : Handoff) : List Gated → Prop
  | [] => True
  | e :: rest => h.Meets e ∧ (h.step e).AllMeet rest

/-! ## The invariant -/

/-- What was sent and then what waits is in the order of acceptance; no forward has a number
that is still to come. -/
structure Ordered (h : Handoff) : Prop where
  fresh : h.side.spool.Fresh
  order : (h.sent ++ h.side.spool.waiting).Sublist h.accepted
  numbered : h.accepted.Pairwise (fun a b => a.1 < b.1)
  below : ∀ o ∈ h.accepted, o.1 < h.forwards
  drained : h.side.connected = true → h.side.spool.len = 0

variable {h : Handoff} {e : Gated}

theorem Ordered.orderly (hi : h.Ordered) : h.Orderly := by
  have hsent : h.sent.Sublist h.accepted := (List.sublist_append_left _ _).trans hi.order
  refine ⟨?_, hsent, hi.drained⟩
  refine (hi.numbered.imp ?_).sublist hsent
  intro a b hab heq
  rw [heq] at hab
  exact Nat.lt_irrefl _ hab

theorem Ordered.numbered_next (hi : h.Ordered) :
    (h.accepted ++ [((h.forwards, 0) : Origin)]).Pairwise (fun a b => a.1 < b.1) := by
  refine List.pairwise_append.mpr ⟨hi.numbered, List.pairwise_singleton _ _, ?_⟩
  intro a ha b hb
  rw [List.mem_singleton.mp hb]
  exact hi.below a ha

theorem Ordered.below_next (hi : h.Ordered) :
    ∀ o ∈ h.accepted ++ [(h.forwards, 0)], o.1 < h.forwards + 1 := by
  intro o ho
  rcases List.mem_append.mp ho with ho | ho
  · exact Nat.lt_succ_of_lt (hi.below o ho)
  · rw [List.mem_singleton.mp ho]
    exact Nat.lt_succ_self _

theorem Ordered.forward_live (hi : h.Ordered) (hup : h.side.connected = true)
    (fault : Option DiskFault) (p : mqtt_codec.Publish) (f : Forward) :
    (h.step (.Forward fault p f)).Ordered := by
  have hstep : h.step (.Forward fault p f) =
      { side := { h.side with
          commands := h.side.commands ++ [live p f (some (h.forwards, 0))] }
        forwards := h.forwards + 1
        accepted := h.accepted ++ [(h.forwards, 0)] } := by
    simp [step, SideState.forward, hup, Except.toBool]
  rw [hstep]
  refine ⟨hi.fresh, ?_, hi.numbered_next, hi.below_next, hi.drained⟩
  have horder := hi.order
  rw [Spool.waiting_of_len (hi.drained hup), List.append_nil] at horder
  simp only [sent, Spool.waiting_of_len (hi.drained hup), List.append_nil,
    List.filterMap_append]
  exact horder.append (List.Sublist.refl _)

theorem Ordered.forward_spooled (hi : h.Ordered) (hdown : h.side.connected = false)
    (fault : Option DiskFault) (p : mqtt_codec.Publish) (f : Forward) :
    (h.step (.Forward fault p f)).Ordered := by
  have hq : Spool.Queued h.side.spool (some (h.forwards, 0))
      (h.side.spool.push fault (spooled p f) (some (h.forwards, 0))) :=
    Spool.push_queued hi.fresh
  rcases hpush : h.side.spool.push fault (spooled p f) (some (h.forwards, 0)) with ⟨x, spool⟩
  rw [hpush] at hq
  have hstep : h.step (.Forward fault p f) =
      { side := { h.side with spool }
        forwards := h.forwards + 1
        accepted := if x.toBool then h.accepted ++ [(h.forwards, 0)] else h.accepted } := by
    simp [step, SideState.forward, hdown, hpush]
  rw [hstep]
  have hdrained : h.side.connected = true → spool.len = 0 := by
    rw [hdown]
    intro hup
    cases hup
  cases x with
  | ok u =>
    refine ⟨hq.fresh, ?_, hi.numbered_next, hi.below_next, hdrained⟩
    have hwait : spool.waiting.Sublist (h.side.spool.waiting ++ [(h.forwards, 0)]) :=
      Spool.waiting_sublist hq.taken
    refine ((List.Sublist.refl h.sent).append hwait).trans ?_
    rw [← List.append_assoc]
    exact hi.order.append (List.Sublist.refl _)
  | error err =>
    refine ⟨hq.fresh, ?_, hi.numbered, ?_, hdrained⟩
    · have hwait : spool.waiting = h.side.spool.waiting :=
        congrArg List.reduceOption (hq.refused err rfl)
      show (h.sent ++ spool.waiting).Sublist h.accepted
      rw [hwait]
      exact hi.order
    · intro o ho
      exact Nat.lt_succ_of_lt (hi.below o ho)

theorem forwarded_replay (msgs : List (SpooledMessage × Option Origin)) :
    (msgs.map (fun e => e.1.command e.2)).filterMap Command.forwarded =
      (msgs.map Prod.snd).reduceOption := by
  rw [List.filterMap_map, List.reduceOption, List.filterMap_map]
  rfl

theorem Ordered.opened (hi : h.Ordered) {fault : Option DiskFault} {skipped : List Nat}
    (hc : h.side.spool.Clears fault skipped) : (h.step (.Open fault skipped)).Ordered := by
  have hlen := Spool.drain_len_iff.mpr hc
  refine ⟨Spool.drain_fresh skipped hi.fresh, ?_, hi.numbered, hi.below, fun _ => hlen⟩
  refine List.Sublist.trans ?_ hi.order
  have hwait := Spool.waiting_of_len hlen
  simp only [step, SideState.openHandoff, sent, hwait, List.append_nil, List.filterMap_append]
  refine (List.Sublist.refl _).append ?_
  rcases hout : (h.side.spool.drain fault skipped).1 with err | msgs
  · exact List.nil_sublist _
  · rw [forwarded_replay]
    exact Spool.drain_gives hout

theorem Ordered.step (hi : h.Ordered) (hm : h.Meets e) : (h.step e).Ordered := by
  cases e with
  | Forward fault p f =>
    cases hc : h.side.connected with
    | true => exact hi.forward_live hc fault p f
    | false => exact hi.forward_spooled hc fault p f
  | Open fault skipped => exact hi.opened hm
  | Close => exact ⟨hi.fresh, hi.order, hi.numbered, hi.below, fun hup => by cases hup⟩

/-- An opening that has to leave a record in the spool leaves it there with the side up. -/
theorem meets_of_orderly (ho : (h.step e).Orderly) : h.Meets e := by
  cases e with
  | Forward fault p f => trivial
  | Open fault skipped => exact Spool.drain_len_iff.mp (ho.drained rfl)
  | Close => trivial

theorem ordered_new {spool : Spool} (hs : spool.Opened) : (new spool).Ordered := by
  have hwait : spool.waiting = [] := by
    obtain ⟨c, rfl | ⟨file, rfl⟩⟩ := hs
    · simp [Spool.waiting, Spool.tags, List.reduceOption, Config.in_memory, Spool.in_memory,
        Spool.with_overflow, Spool.with_max_bytes]
    · simp [Spool.waiting, Spool.tags, List.reduceOption, Config.on_disk, Spool.on_disk,
        Spool.with_overflow, Spool.with_max_bytes]
  refine ⟨(Spool.exact_of_opened hs).fresh, ?_, List.Pairwise.nil, ?_, fun hup => by cases hup⟩
  · simp [new, sent, hwait]
  · simp [new]

theorem Ordered.run_iff (hi : h.Ordered) (events : List Gated) :
    h.AllMeet events ↔ ∀ done left, events = done ++ left → (h.run done).Orderly := by
  induction events generalizing h with
  | nil =>
    refine iff_of_true trivial (fun done left heq => ?_)
    obtain ⟨rfl, -⟩ := List.append_eq_nil_iff.mp heq.symm
    exact hi.orderly
  | cons e rest ih =>
    constructor
    · rintro ⟨hm, hrest⟩ done left heq
      cases done with
      | nil => exact hi.orderly
      | cons d done =>
        obtain ⟨rfl, rfl⟩ := List.cons_eq_cons.mp heq
        exact (ih (hi.step hm)).mp hrest done left rfl
    · intro hall
      have hm : h.Meets e := meets_of_orderly (hall [e] rest rfl)
      refine ⟨hm, (ih (hi.step hm)).mpr (fun done left heq => ?_)⟩
      exact hall (e :: done) left (by rw [heq, List.cons_append])

/-- A handoff stays orderly through every state of a run exactly when each opening of the run
can take everything out of the spool. -/
theorem handoff_is_orderly_iff (spool : Spool) (hs : spool.Opened) (events : List Gated) :
    (new spool).AllMeet events ↔
      ∀ done left, events = done ++ left → ((new spool).run done).Orderly :=
  (ordered_new hs).run_iff events

/-- A message of one byte for the broker of this side. -/
def tick : mqtt_codec.Publish :=
  { dup := false, qos := .AtLeastOnce, retain := false, topic := "t", pkid := some 1,
    properties := [], payload := [1] }

def toLocal : Forward :=
  { dest := .Local, topic := "t", qos := 1, retain_ok := true }

def freshFile : Spool := (Config.mk 4 0 .Refuse).on_disk ∅

theorem opened_freshFile : freshFile.Opened := ⟨_, .inr ⟨∅, rfl⟩⟩

theorem clears_none (s : Spool) : s.Clears none [] := by
  unfold Spool.Clears
  split
  · trivial
  · intro k v _
    simp

/-- A message waits in the spool, is replayed when the side is up, and the next goes behind it. -/
theorem a_replayed_forward_is_followed_by_a_live_one :
    ((new freshFile).run
      [.Forward none tick toLocal, .Open none [], .Forward none tick toLocal]).Orderly ∧
    ((new freshFile).run
      [.Forward none tick toLocal, .Open none [], .Forward none tick toLocal]).sent =
        [(0, 0), (1, 0)] := by
  refine ⟨?_, by decide +kernel⟩
  have hmeet : (new freshFile).AllMeet
      [.Forward none tick toLocal, .Open none [], .Forward none tick toLocal] := by
    refine ⟨trivial, ?_, trivial, trivial⟩
    unfold Meets
    exact clears_none _
  exact (handoff_is_orderly_iff freshFile opened_freshFile _).mp hmeet _ [] rfl

/-- The drain of the first opening fails, and the side is up with a message in its spool. -/
theorem a_failed_drain_leaves_a_record_on_a_side_that_is_up :
    ((new freshFile).run [.Forward none tick toLocal, .Open (some .Commit) []]).side.connected =
      true ∧
    ((new freshFile).run [.Forward none tick toLocal, .Open (some .Commit) []]).side.spool.len =
      1 ∧
    ¬ ∀ spool : Spool, spool.Opened → ∀ events, ((new spool).run events).Orderly := by
  have hup : ((new freshFile).run
      [.Forward none tick toLocal, .Open (some .Commit) []]).side.connected = true := by
    decide +kernel
  have hlen : ((new freshFile).run
      [.Forward none tick toLocal, .Open (some .Commit) []]).side.spool.len = 1 := by
    decide +kernel
  refine ⟨hup, hlen, ?_⟩
  intro hall
  have hempty := (hall freshFile opened_freshFile _).drained hup
  rw [hlen] at hempty
  cases hempty

end Handoff

end mqtt_bridge
