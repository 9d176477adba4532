-- The spool on disk beside the spool in memory: every run of pushes and drains, with the
-- one on disk opened again at any points, leaves the two alike. What is accepted comes out
-- in one drain and in the order it was accepted in, unless the policy is to drop.
import MqttBroker.Bridge.SpoolQueue

namespace mqtt_bridge

open ByteCodec Wire BoundedQueue

/-! ## Runs of the two -/

/-- A call on both spools; `Reopen` is of the one on disk. -/
inductive Op
  | Push (msg : SpooledMessage)
  | Drain
  | Reopen

inductive Reply
  | Pushed (r : Except SpoolError Unit)
  | Drained (r : Except SpoolError (List SpooledMessage))
  | Reopened

def Spool.file (s : Spool) : BTreeMap Nat Bytes :=
  match s.inner with
  | .Mem _ _ => ∅
  | .Disk table _ _ => table.map (fun _ row => row.1)

def Spool.answer (s : Spool) : Op → Reply × Spool
  | .Push msg => (.Pushed (s.push none msg none).1, (s.push none msg none).2)
  | .Drain =>
    (.Drained ((s.drain none []).1.map (fun out => out.map Prod.fst)), (s.drain none []).2)
  | .Reopen => (.Reopened, s)

/-- The two spools, how many messages the one in memory had dropped at the last reopening, and
the calls with both answers. -/
structure Twins where
  memory : Spool
  disk : Spool
  before : Nat := 0
  log : List (Op × Reply × Reply) := []

namespace Twins

def step (c : Config) (t : Twins) (op : Op) : Twins :=
  { memory := (t.memory.answer op).2
    disk := match op with
      | .Reopen => c.on_disk t.disk.file
      | _ => (t.disk.answer op).2
    before := match op with
      | .Reopen => t.memory.dropped
      | _ => t.before
    log := t.log ++ [(op, (t.memory.answer op).1, (t.disk.answer op).1)] }

def start (c : Config) : Twins := { memory := c.in_memory, disk := c.on_disk ∅ }

def run (c : Config) (ops : List Op) : Twins := ops.foldl (step c) (start c)

theorem run_concat (c : Config) (ops : List Op) (op : Op) :
    run c (ops ++ [op]) = step c (run c ops) op := by
  simp [run]

end Twins

def acceptedBy : Op × Reply × Reply → Option SpooledMessage
  | (.Push msg, .Pushed (.ok ()), _) => some msg
  | _ => none

def drainedBy : Op × Reply × Reply → List SpooledMessage
  | (_, .Drained (.ok out), _) => out
  | _ => []

/-- A drain of the spool gives all that it holds, in order, and leaves nothing. -/
def Spool.DrainsAll (s : Spool) : Prop :=
  ∃ out, (s.answer .Drain).1 = .Drained (.ok out) ∧ out.map some = s.records ∧
    (s.answer .Drain).2.records = []

/-! ## The queue stays within its bounds -/

variable {b : Bounds} {policy : Overflow} {q : Queue} {msg : SpooledMessage}

theorem Queue.offer_holds (hcap : 0 < b.cap) (h : b.Holds recordBytes q.records) :
    b.Holds recordBytes (q.offer b policy msg).2.records := by
  unfold Queue.offer
  dsimp only
  split
  · cases policy <;> exact h
  · rename_i hbig
    split
    · rename_i hroom
      exact Bounds.holds_append (x := some msg) hroom
    · cases policy with
      | Refuse => exact h
      | DropOldest =>
        exact Bounds.holds_append (x := some msg) (Bounds.room_drop_excess hcap hbig)

theorem Queue.offer_refuse (b : Bounds) (q : Queue) (msg : SpooledMessage) :
    (q.offer b .Refuse msg = (.error .Full, q)) ∨
      q.offer b .Refuse msg = (.ok (), { q with records := q.records ++ [some msg] }) := by
  unfold Queue.offer
  dsimp only
  split
  · exact .inl rfl
  · split
    · exact .inr rfl
    · exact .inl rfl

theorem Queue.offer_messages {held : List SpooledMessage} (h : q.records = held.map some) :
    ∃ held' : List SpooledMessage, (q.offer b policy msg).2.records = held'.map some := by
  unfold Queue.offer
  dsimp only
  split
  · cases policy <;> exact ⟨held, h⟩
  · split
    · exact ⟨held ++ [msg], by simp [h]⟩
    · cases policy with
      | Refuse => exact ⟨held, h⟩
      | DropOldest =>
        exact ⟨held.drop (b.excess recordBytes (message_bytes msg) q.records) ++ [msg], by
          simp [h, List.map_drop]⟩

/-! ## The two stay alike -/

/-- The two spools hold the same within the bounds of the configuration. -/
structure Alike (c : Config) (t : Twins) : Prop where
  exact_memory : t.memory.Exact
  exact_disk : t.disk.Exact
  bounds_memory : t.memory.bounds = c.bounds
  bounds_disk : t.disk.bounds = c.bounds
  overflow_memory : t.memory.overflow = c.overflow
  overflow_disk : t.disk.overflow = c.overflow
  medium : t.disk.onDisk = true
  same : t.memory.records = t.disk.records
  messages : ∃ held : List SpooledMessage, t.memory.records = held.map some
  dropped : t.memory.dropped = t.before + t.disk.dropped
  holds : c.bounds.Holds recordBytes t.memory.records
  answers : ∀ e ∈ t.log, e.2.1 = e.2.2
  order : c.overflow = .Refuse →
    (t.log.filterMap acceptedBy).map some =
      (t.log.flatMap drainedBy).map some ++ t.memory.records

variable {c : Config} {t : Twins}

theorem alike_start (c : Config) : Alike c (Twins.start c) where
  exact_memory := c.exact_in_memory
  exact_disk := c.exact_on_disk ∅
  bounds_memory := rfl
  bounds_disk := rfl
  overflow_memory := rfl
  overflow_disk := rfl
  medium := rfl
  same := by
    show [] = (c.on_disk ∅).records
    rw [c.records_on_disk]
    simp
  messages := ⟨[], rfl⟩
  dropped := rfl
  holds := Bounds.holds_nil _
  answers := by simp [Twins.start]
  order := fun _ => rfl

/-- The two queues drop as many. -/
theorem offer_same {records : List (Option SpooledMessage)} (n m : Nat) :
    ((⟨records, n + m⟩ : Queue).offer b policy msg).1 =
        ((⟨records, m⟩ : Queue).offer b policy msg).1 ∧
      ((⟨records, n + m⟩ : Queue).offer b policy msg).2.records =
        ((⟨records, m⟩ : Queue).offer b policy msg).2.records ∧
      ((⟨records, n + m⟩ : Queue).offer b policy msg).2.dropped =
        n + ((⟨records, m⟩ : Queue).offer b policy msg).2.dropped := by
  unfold Queue.offer
  dsimp only
  split
  · cases policy with
    | Refuse => exact ⟨rfl, rfl, rfl⟩
    | DropOldest => exact ⟨rfl, rfl, Nat.add_assoc _ _ _⟩
  · split
    · exact ⟨rfl, rfl, rfl⟩
    · cases policy with
      | Refuse => exact ⟨rfl, rfl, rfl⟩
      | DropOldest => exact ⟨rfl, rfl, Nat.add_assoc _ _ _⟩

theorem alike_push (h : Alike c t) (hfit : Fits msg)
    (hsum : load recordBytes t.memory.records + message_bytes msg ≤ USIZE_MAX) :
    Alike c (t.step c (.Push msg)) := by
  obtain ⟨hmem, hleft⟩ := Spool.push_offers (o := none) h.exact_memory hfit hsum
  obtain ⟨hdisk, hright⟩ := Spool.push_offers (o := none) h.exact_disk hfit (h.same ▸ hsum)
  rw [h.bounds_memory, h.overflow_memory] at hmem hleft
  rw [h.bounds_disk, h.overflow_disk] at hdisk hright
  have hqueue : t.memory.queue = ⟨t.disk.records, t.before + t.disk.dropped⟩ := by
    unfold Spool.queue
    rw [h.same, h.dropped]
  obtain ⟨hanswer, hrecords, hdropped⟩ := @offer_same c.bounds c.overflow msg t.disk.records
    t.before t.disk.dropped
  rw [← hqueue] at hanswer hrecords hdropped
  have hheld : (t.memory.push none msg none).2.records =
      (t.memory.queue.offer c.bounds c.overflow msg).2.records :=
    congrArg Queue.records hleft.queue
  refine ⟨hleft.exact, hright.exact, hleft.bounds.trans h.bounds_memory,
    hright.bounds.trans h.bounds_disk, hleft.overflow.trans h.overflow_memory,
    hright.overflow.trans h.overflow_disk, hright.medium.trans h.medium, ?_, ?_, ?_, ?_, ?_, ?_⟩
  · show (t.memory.push none msg none).2.records = (t.disk.push none msg none).2.records
    rw [hheld, hrecords]
    exact (congrArg Queue.records hright.queue).symm
  · obtain ⟨held, hmessages⟩ := h.messages
    rw [show (t.step c (.Push msg)).memory.records = _ from hheld]
    exact Queue.offer_messages hmessages
  · show (t.memory.push none msg none).2.dropped = t.before + (t.disk.push none msg none).2.dropped
    rw [show (t.memory.push none msg none).2.dropped = _ from congrArg Queue.dropped hleft.queue,
      hdropped]
    congr 1
    exact (congrArg Queue.dropped hright.queue).symm
  · rw [show (t.step c (.Push msg)).memory.records = _ from hheld]
    exact Queue.offer_holds (Nat.lt_of_lt_of_le Nat.zero_lt_one (Nat.le_max_right _ _)) h.holds
  · intro e he
    rcases List.mem_append.mp he with he | he
    · exact h.answers e he
    · rw [List.mem_singleton.mp he]
      show Reply.Pushed (t.memory.push none msg none).1 =
        Reply.Pushed (t.disk.push none msg none).1
      rw [hmem, hdisk, hanswer]
      rfl
  · intro hpolicy
    have horder := h.order hpolicy
    show ((t.log ++ [_]).filterMap acceptedBy).map some =
      ((t.log ++ [_]).flatMap drainedBy).map some ++ (t.memory.push none msg none).2.records
    rw [hheld, List.filterMap_append, List.flatMap_append, List.map_append, List.map_append, horder]
    have hreply : (t.memory.answer (.Push msg)).1 =
        .Pushed (t.memory.queue.offer c.bounds c.overflow msg).1 := congrArg Reply.Pushed hmem
    rw [hreply, hpolicy]
    rcases Queue.offer_refuse c.bounds t.memory.queue msg with hoffer | hoffer
    · rw [hoffer]
      simp [acceptedBy, drainedBy, Spool.queue]
    · rw [hoffer]
      simp [acceptedBy, drainedBy, Spool.queue]

theorem alike_drain (h : Alike c t) : Alike c (t.step c .Drain) := by
  obtain ⟨out, hmem, hout, hleft⟩ := Spool.drain_empties h.exact_memory
  obtain ⟨out', hdisk, hout', hright⟩ := Spool.drain_empties h.exact_disk
  have hrecords : (t.memory.drain none []).2.records = [] := congrArg Queue.records hleft.queue
  have hrecords' : (t.disk.drain none []).2.records = [] := congrArg Queue.records hright.queue
  have hreply : (t.memory.answer .Drain).1 = .Drained (.ok (out.map Prod.fst)) := by
    show Reply.Drained ((t.memory.drain none []).1.map _) = _
    rw [hmem]
    rfl
  have hreply' : (t.disk.answer .Drain).1 = .Drained (.ok (out'.map Prod.fst)) := by
    show Reply.Drained ((t.disk.drain none []).1.map _) = _
    rw [hdisk]
    rfl
  refine ⟨hleft.exact, hright.exact, hleft.bounds.trans h.bounds_memory,
    hright.bounds.trans h.bounds_disk, hleft.overflow.trans h.overflow_memory,
    hright.overflow.trans h.overflow_disk, hright.medium.trans h.medium,
    hrecords.trans hrecords'.symm, ⟨[], hrecords⟩, ?_, ?_, ?_, ?_⟩
  · show (t.memory.drain none []).2.dropped = t.before + (t.disk.drain none []).2.dropped
    rw [show (t.memory.drain none []).2.dropped = _ from congrArg Queue.dropped hleft.queue,
      show (t.disk.drain none []).2.dropped = _ from congrArg Queue.dropped hright.queue]
    exact h.dropped
  · rw [show (t.step c .Drain).memory.records = [] from hrecords]
    exact Bounds.holds_nil _
  · intro e he
    rcases List.mem_append.mp he with he | he
    · exact h.answers e he
    · rw [List.mem_singleton.mp he, hreply, hreply', hout, hout', h.same]
  · intro hpolicy
    have horder := h.order hpolicy
    obtain ⟨held, hheld⟩ := h.messages
    have hall : out.map Prod.fst = held := by
      rw [hout, hheld]
      simp [List.reduceOption]
    show ((t.log ++ [_]).filterMap acceptedBy).map some =
      ((t.log ++ [_]).flatMap drainedBy).map some ++ (t.memory.drain none []).2.records
    rw [hrecords, List.filterMap_append, List.flatMap_append, List.map_append, List.map_append,
      horder, hreply, hall, hheld]
    simp [acceptedBy, drainedBy]

theorem Alike.drains_all (h : Alike c t) : t.memory.DrainsAll ∧ t.disk.DrainsAll := by
  obtain ⟨held, hheld⟩ := h.messages
  have hall : ∀ s : Spool, s.Exact → s.records = held.map some → s.DrainsAll := by
    intro s hs hrecords
    obtain ⟨out, hdrain, hout, hleaves⟩ := Spool.drain_empties hs
    refine ⟨out.map Prod.fst, ?_, ?_, congrArg Queue.records hleaves.queue⟩
    · show Reply.Drained ((s.drain none []).1.map _) = _
      rw [hdrain]
      rfl
    · rw [hout, hrecords]
      simp [List.reduceOption]
  exact ⟨hall _ h.exact_memory hheld, hall _ h.exact_disk (h.same ▸ hheld)⟩

theorem records_reopened {s : Spool} (h : s.onDisk = true) :
    (c.on_disk s.file).records = s.records := by
  rw [c.records_on_disk]
  unfold Spool.onDisk Spool.file Spool.records at *
  cases hin : s.inner with
  | Mem q bytes =>
    rw [hin] at h
    cases h
  | Disk table next bytes =>
    simp only [BTreeMap.toList_map, List.map_map]
    rfl

theorem alike_reopen (h : Alike c t) : Alike c (t.step c .Reopen) := by
  have hsame := records_reopened (c := c) h.medium
  refine ⟨h.exact_memory, c.exact_on_disk _, h.bounds_memory, rfl, h.overflow_memory, rfl, rfl,
    h.same.trans hsame.symm, h.messages, rfl, h.holds, ?_, ?_⟩
  · intro e he
    rcases List.mem_append.mp he with he | he
    · exact h.answers e he
    · rw [List.mem_singleton.mp he]
      rfl
  · intro hpolicy
    have horder := h.order hpolicy
    show ((t.log ++ [_]).filterMap acceptedBy).map some =
      ((t.log ++ [_]).flatMap drainedBy).map some ++ t.memory.records
    rw [List.filterMap_append, List.flatMap_append, List.map_append, List.map_append, horder]
    simp [acceptedBy, drainedBy, Spool.answer]

/-- What is held together with each message is within what a machine word counts. -/
def Counted (c : Config) (ops : List Op) : Prop :=
  ∀ before msg after, ops = before ++ .Push msg :: after →
    load recordBytes (Twins.run c before).memory.records + message_bytes msg ≤ USIZE_MAX

theorem alike_run {ops : List Op} (hfit : ∀ msg, Op.Push msg ∈ ops → Fits msg)
    (hsum : Counted c ops) : Alike c (Twins.run c ops) := by
  induction ops using List.reverseRecOn with
  | nil => exact alike_start c
  | append_singleton ops op ih =>
    have halike := ih (fun msg hmsg => hfit msg (List.mem_append_left _ hmsg))
      (fun before msg after heq => hsum before msg (after ++ [op]) (by simp [heq]))
    rw [Twins.run_concat]
    cases op with
    | Push msg => exact alike_push halike (hfit msg (by simp)) (hsum ops msg [] rfl)
    | Drain => exact alike_drain halike
    | Reopen => exact alike_reopen halike

/-- In every run the two spools answer alike, hold the same, account the same and drop the same;
they stay within both bounds; a drain gives all that is held, and a spool that refuses has given
each message that it accepted in one drain, in order, or holds it; and a message over the whole
budget takes no other's place. -/
theorem the_disk_spool_is_the_memory_spool (c : Config) (ops : List Op)
    (hfit : ∀ msg, Op.Push msg ∈ ops → Fits msg) (hsum : Counted c ops) :
    (∀ e ∈ (Twins.run c ops).log, e.2.1 = e.2.2) ∧
    (Twins.run c ops).memory.records = (Twins.run c ops).disk.records ∧
    (Twins.run c ops).memory.bytes = (Twins.run c ops).disk.bytes ∧
    (Twins.run c ops).memory.dropped =
      (Twins.run c ops).before + (Twins.run c ops).disk.dropped ∧
    (Twins.run c ops).memory.records.length ≤ max c.cap 1 ∧
    (c.max_bytes ≠ 0 → (Twins.run c ops).memory.bytes ≤ c.max_bytes) ∧
    (c.overflow = .Refuse → ((Twins.run c ops).log.filterMap acceptedBy).map some =
      ((Twins.run c ops).log.flatMap drainedBy).map some ++ (Twins.run c ops).memory.records) ∧
    (Twins.run c ops).memory.DrainsAll ∧ (Twins.run c ops).disk.DrainsAll ∧
    ∀ msg, c.max_bytes ≠ 0 → c.max_bytes < message_bytes msg →
      ((Twins.run c ops).memory.push none msg none).2.records =
        (Twins.run c ops).memory.records ∧
      ((Twins.run c ops).disk.push none msg none).2.records = (Twins.run c ops).disk.records := by
  have h := alike_run hfit hsum
  have hmost : c.max_bytes ≠ 0 → c.bounds.budget = some (min c.max_bytes USIZE_MAX) := by
    intro hne
    exact if_neg hne
  refine ⟨h.answers, h.same, ?_, h.dropped, h.holds.1, ?_, h.order, h.drains_all.1,
    h.drains_all.2, ?_⟩
  · rw [h.exact_memory.bytes, h.exact_disk.bytes, h.same]
  · intro hne
    rw [h.exact_memory.bytes]
    exact Nat.le_trans (h.holds.2 _ (hmost hne)) (Nat.min_le_left _ _)
  · intro msg hne hbig
    have hover : c.bounds.Oversized (message_bytes msg) :=
      ⟨_, hmost hne, Nat.lt_of_le_of_lt (Nat.min_le_left _ _) hbig⟩
    exact ⟨Spool.push_oversized (h.bounds_memory.symm ▸ hover),
      Spool.push_oversized (h.bounds_disk.symm ▸ hover)⟩

def reading : SpooledMessage :=
  { topic := "plant/line", payload := [1, 2], qos := 1, retain := false, user_properties := [] }

theorem fits_reading : Fits reading :=
  ⟨by decide, by decide, by decide, by simp [reading]⟩

/-- A message is pushed, the file is opened again, and the message comes out. -/
theorem a_reopened_spool_gives_its_message :
    Counted ⟨2, 600, .Refuse⟩ [.Push reading, .Reopen, .Drain] ∧
    ∀ e ∈ (Twins.run ⟨2, 600, .Refuse⟩ [.Push reading, .Reopen, .Drain]).log, e.2.1 = e.2.2 := by
  have hfit : ∀ msg, Op.Push msg ∈ [.Push reading, .Reopen, .Drain] → Fits msg := by
    intro msg hmsg
    simp only [List.mem_cons, Op.Push.injEq, reduceCtorEq, List.not_mem_nil, or_false] at hmsg
    rw [hmsg]
    exact fits_reading
  have hsum : Counted ⟨2, 600, .Refuse⟩ [.Push reading, .Reopen, .Drain] := by
    intro before msg after heq
    -- only the first call is a push
    rcases before with _ | ⟨_, _ | ⟨_, _ | ⟨_, before⟩⟩⟩ <;> simp at heq
    rw [← heq.1]
    exact show 0 + message_bytes reading ≤ USIZE_MAX by decide
  exact ⟨hsum, (the_disk_spool_is_the_memory_spool _ _ hfit hsum).1⟩

end mqtt_bridge
