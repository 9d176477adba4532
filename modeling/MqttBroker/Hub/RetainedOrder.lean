-- The order of one node's retained mutations at the authority: they commit in the
-- order in which the node enqueued them, as long as no copy of a hand-off outlives
-- the hand-off.
import MqttBroker.Hub.RetainedQueue

namespace mqttd.hub

namespace Queues

/-! ## The line of a node's own mutations -/

def own_commit (q : Queues) : List RetainedMutation :=
  match q.commit with
  | some c => if c.mutation.reply.isNone then [c.mutation] else []
  | none => []

def held (q : Queues) : List RetainedMutation :=
  match q.retained_handoff with
  | some (_, _, m) => [m]
  | none => []

/-- The own mutations that are not answered for, oldest first. -/
def line (q : Queues) : List RetainedMutation := q.own_commit ++ q.held ++ q.retained_queue

/-- A mutation that may still be committed at this node: it waits in the routed queue, or
its commit runs or has failed. -/
def Copy (q : Queues) (m : RetainedMutation) : Prop :=
  m ∈ q.retained_routed_queue ∨ q.commit = some ⟨m, none⟩ ∨ q.commit = some ⟨m, some none⟩

/-- A copy of a peer's hand-off may still be committed here. -/
def holds (q : Queues) (key : NodeId × Nat) : Bool :=
  q.retained_routed_queue.any (fun m => decide (m.reply = some key)) ||
    match q.commit with
    | some ⟨_, some (some _)⟩ => false
    | some ⟨m, _⟩ => decide (m.reply = some key)
    | none => false

/-- The records of the owner answer for a hand-off: it is committed, or under way. -/
def answers (q : Queues) (node : NodeId) (seq : Nat) : Bool :=
  decide (q.retained_handoff_seen[node]?.map (·.1) = some seq) ||
    decide (q.retained_handoff_pending[node]? = some seq)

/-- The hand-off that is held, if it is this one. -/
def awaits (q : Queues) (owner : NodeId) (seq : Nat) : Bool :=
  match q.retained_handoff with
  | some (o, s, _) => decide (o = owner ∧ s = seq)
  | none => false

variable {m : RetainedMutation}

theorem holds_of_copy {q : Queues} {key : NodeId × Nat} (h : q.Copy m) (hm : m.reply = some key) :
    q.holds key = true := by
  unfold holds
  rcases h with h | h | h
  · rw [Bool.or_eq_true, List.any_eq_true]
    exact .inl ⟨m, h, by simp [hm]⟩
  · simp [h, hm]
  · simp [h, hm]

/-! ## What holds of each node -/

/-- The own mutations stand in the order of their stamps, behind every commit of them so
far, and the hand-off that is held is the newest. -/
structure Ok (commits : List Committed) (x : NodeId) (q : Queues) : Prop where
  id : q.node_id = x
  own : ∀ m ∈ q.held ++ q.retained_queue, m.reply = none
  routed : ∀ m ∈ q.retained_routed_queue, m.reply.isSome = true
  alone : q.held = [] ∨ q.own_commit = []
  stamps : ∀ m ∈ q.line, m.stamp.1 = x ∧ m.stamp.2 < q.enqueued
  sorted : q.line.Pairwise (fun a b => a.stamp.2 < b.stamp.2)
  seq : ∀ y s m, q.retained_handoff = some (y, s, m) → s ≤ q.retained_handoff_seq
  frames : ∀ y v s, (y, PeerMessage.RetainedCommit v s) ∈ q.written →
    s ≤ q.retained_handoff_seq ∧
      ∀ y' m, q.retained_handoff = some (y', s, m) → y' = y ∧ m.stamp = v.stamp
  below : ∀ k ∈ commits, k.mutation.stamp.1 = x → k.mutation.stamp.2 < q.enqueued
  floor : ∀ k ∈ commits, k.mutation.stamp.1 = x → ∀ m ∈ q.line, k.mutation.stamp.2 ≤ m.stamp.2

theorem Ok.oldest {commits : List Committed} {x : NodeId} {q : Queues} (h : q.Ok commits x)
    (hm : m ∈ q.own_commit ++ q.held) : ∀ m' ∈ q.line, m.stamp.2 ≤ m'.stamp.2 := by
  have hfront : q.own_commit ++ q.held = [m] := by
    rcases h.alone with h0 | h0
    · rw [h0, List.append_nil] at hm ⊢
      unfold own_commit at hm ⊢
      split at hm
      · split at hm
        · rw [if_pos ‹_›, List.mem_singleton.mp hm]
        · cases hm
      · cases hm
    · rw [h0, List.nil_append] at hm ⊢
      unfold held at hm ⊢
      split at hm
      · rw [List.mem_singleton.mp hm]
      · cases hm
  have hsorted := h.sorted
  unfold line at hsorted ⊢
  rw [hfront] at hsorted ⊢
  intro m' hm'
  rcases List.mem_cons.mp hm' with rfl | hm'
  · exact le_refl _
  · exact le_of_lt (List.rel_of_pairwise_cons hsorted hm')

/-! ## Changes that the order does not see -/

/-- The same queues, hand-off and commit, and no new hand-off frame. -/
structure Quiet (q q' : Queues) : Prop where
  id : q'.node_id = q.node_id
  queue : q'.retained_queue = q.retained_queue
  routed : q'.retained_routed_queue = q.retained_routed_queue
  commit : q'.commit = q.commit
  handoff : q'.retained_handoff = q.retained_handoff
  seq : q'.retained_handoff_seq = q.retained_handoff_seq
  enqueued : q'.enqueued = q.enqueued
  frames : ∀ y v s, (y, PeerMessage.RetainedCommit v s) ∈ q'.written →
    (y, PeerMessage.RetainedCommit v s) ∈ q.written

theorem Quiet.trans {q q' q'' : Queues} (h : Quiet q q') (h' : Quiet q' q'') : Quiet q q'' where
  id := h'.id.trans h.id
  queue := h'.queue.trans h.queue
  routed := h'.routed.trans h.routed
  commit := h'.commit.trans h.commit
  handoff := h'.handoff.trans h.handoff
  seq := h'.seq.trans h.seq
  enqueued := h'.enqueued.trans h.enqueued
  frames y v s hf := h.frames y v s (h'.frames y v s hf)

theorem quiet_same (q : Queues) (peers : BTreeSet NodeId) (placement : Option (String → NodeId))
    (turn : Bool) (seen : BTreeMap NodeId (Nat × Token)) (pending : BTreeMap NodeId Nat)
    (told : List Told) :
    Quiet q { q with
      peers, placement, told
      retained_routed_turn := turn
      retained_handoff_seen := seen
      retained_handoff_pending := pending } :=
  ⟨rfl, rfl, rfl, rfl, rfl, rfl, rfl, fun _ _ _ h => h⟩

theorem quiet_clear (q : Queues) (node : NodeId) (seq : Nat) : Quiet q (q.clear_pending node seq) := by
  unfold clear_pending
  split <;> exact quiet_same q _ _ _ _ _ _

theorem quiet_tell (q : Queues) (told : Nat → Told) (publish : Option Nat) :
    Quiet q (q.tell told publish) := by
  unfold tell
  split <;> exact quiet_same q _ _ _ _ _ _

theorem quiet_ack (q : Queues) (node : NodeId) (seq : Nat) (token : Option Token) :
    Quiet q (q.send_retained_ack node seq token) := by
  unfold send_retained_ack send
  split
  · refine ⟨rfl, rfl, rfl, rfl, rfl, rfl, rfl, fun y v s hf => ?_⟩
    rcases List.mem_append.mp hf with hf | hf
    · exact hf
    · simp at hf
  · exact quiet_same q _ _ _ _ _ _

theorem quiet_answered (q : Queues) (node : NodeId) (seq : Nat) (token : Token) :
    Quiet q (({ q with retained_handoff_seen := q.retained_handoff_seen.insert node (seq, token)
      }.clear_pending node seq).send_retained_ack node seq (some token)) := by
  apply Quiet.trans (quiet_same q q.peers q.placement q.retained_routed_turn _
    q.retained_handoff_pending q.told)
  exact (quiet_clear _ _ _).trans (quiet_ack _ _ _ _)

theorem quiet_dropped (q : Queues) (m : RetainedMutation) : Quiet q (q.dropped m) := by
  unfold dropped
  split
  · exact (quiet_clear q _ _).trans (quiet_tell _ _ _)
  · exact quiet_tell q _ _

theorem Quiet.line {q q' : Queues} (h : Quiet q q') : q'.line = q.line := by
  unfold Queues.line own_commit held
  rw [h.commit, h.handoff, h.queue]

theorem Ok.quiet {commits : List Committed} {x : NodeId} {q q' : Queues} (h : q.Ok commits x)
    (hq : Quiet q q') : q'.Ok commits x where
  id := hq.id.trans h.id
  own := by
    have h0 := h.own
    unfold held at h0 ⊢
    rw [hq.handoff, hq.queue]
    exact h0
  routed := by
    rw [hq.routed]
    exact h.routed
  alone := by
    have h0 := h.alone
    unfold held own_commit at h0 ⊢
    rw [hq.handoff, hq.commit]
    exact h0
  stamps := by
    rw [hq.line, hq.enqueued]
    exact h.stamps
  sorted := by
    rw [hq.line]
    exact h.sorted
  seq := by
    rw [hq.handoff, hq.seq]
    exact h.seq
  frames y v s hf := by
    rw [hq.handoff, hq.seq]
    exact h.frames y v s (hq.frames y v s hf)
  below := by
    rw [hq.enqueued]
    exact h.below
  floor := by
    rw [hq.line]
    exact h.floor

/-! ## What a node does on its own -/

/-- A change of one node that keeps its order, adds no copy of a peer's hand-off and ends
no hand-off of its own. -/
structure Advances (commits : List Committed) (x : NodeId) (q q' : Queues) : Prop where
  ok : q'.Ok commits x
  copies : ∀ m, m.reply.isSome = true → q'.Copy m → q.Copy m
  handoff : q'.retained_handoff = q.retained_handoff ∨ q.retained_handoff = none

variable {commits : List Committed} {x : NodeId} {q q' q'' : Queues}

theorem Advances.trans (h : Advances commits x q q') (h' : Advances commits x q' q'') :
    Advances commits x q q'' where
  ok := h'.ok
  copies m hm hc := h.copies m hm (h'.copies m hm hc)
  handoff := by
    rcases h.handoff with h1 | h1
    · rw [← h1]
      exact h'.handoff
    · exact .inr h1

theorem Ok.advances (h : q.Ok commits x) (hq : Quiet q q') : Advances commits x q q' where
  ok := h.quiet hq
  copies m _ hc := by
    unfold Copy at hc ⊢
    rw [hq.routed, hq.commit] at hc
    exact hc
  handoff := .inl hq.handoff

theorem Ok.stay (h : q.Ok commits x) : Advances commits x q q :=
  ⟨h, fun _ _ hc => hc, .inl rfl⟩

theorem Ok.sub (h : q.Ok commits x) (hid : q'.node_id = q.node_id)
    (henqueued : q'.enqueued = q.enqueued) (hline : q'.line.Sublist q.line)
    (hown : ∀ m ∈ q'.held ++ q'.retained_queue, m.reply = none)
    (hrouted : ∀ m ∈ q'.retained_routed_queue, m.reply.isSome = true)
    (halone : q'.held = [] ∨ q'.own_commit = [])
    (hseq : ∀ y s m, q'.retained_handoff = some (y, s, m) → s ≤ q'.retained_handoff_seq)
    (hframes : ∀ y v s, (y, PeerMessage.RetainedCommit v s) ∈ q'.written →
      s ≤ q'.retained_handoff_seq ∧
        ∀ y' m, q'.retained_handoff = some (y', s, m) → y' = y ∧ m.stamp = v.stamp) :
    q'.Ok commits x where
  id := hid.trans h.id
  own := hown
  routed := hrouted
  alone := halone
  stamps m hm := by
    rw [henqueued]
    exact h.stamps m (hline.subset hm)
  sorted := h.sorted.sublist hline
  seq := hseq
  frames := hframes
  below := by
    rw [henqueued]
    exact h.below
  floor k hk hx m hm := h.floor k hk hx m (hline.subset hm)

variable {r : RetainedMutation} {routed : List RetainedMutation}

theorem advances_refuse (h : q.Ok commits x) (hr : q.retained_routed_queue = r :: routed) :
    Advances commits x q { q with retained_routed_queue := routed } where
  ok := by
    refine h.sub rfl rfl (List.Sublist.refl _) h.own ?_ h.alone h.seq h.frames
    intro m hm
    apply h.routed
    rw [hr]
    exact List.mem_cons_of_mem _ hm
  copies m _ hc := by
    unfold Copy
    rw [hr]
    exact hc.imp_left (List.mem_cons_of_mem _)
  handoff := .inl rfl

theorem advances_start_routed (h : q.Ok commits x) (hr : q.retained_routed_queue = r :: routed) :
    Advances commits x q ({ q with retained_routed_queue := routed }.spawn_retained_commit r) where
  ok := by
    have hreply : r.reply.isSome = true := h.routed r (by rw [hr]; exact List.mem_cons_self)
    have hown : own_commit ({ q with retained_routed_queue := routed }.spawn_retained_commit r) = [] := by
      show (if r.reply.isNone then [r] else []) = []
      rw [Option.isSome_iff_ne_none] at hreply
      rw [if_neg (by simpa using hreply)]
    refine h.sub rfl rfl ?_ h.own ?_ (.inr hown) h.seq h.frames
    · unfold line
      rw [hown, List.nil_append]
      exact ((List.sublist_append_right _ _).append (List.Sublist.refl _))
    · intro m hm
      apply h.routed
      rw [hr]
      exact List.mem_cons_of_mem _ hm
  copies m _ hm := by
    left
    rw [hr]
    rcases hm with hm | hm | hm
    · exact List.mem_cons_of_mem _ hm
    · cases hm
      exact List.mem_cons_self
    · cases hm
  handoff := .inl rfl

variable {rest : List RetainedMutation}

theorem advances_start_own (h : q.Ok commits x) (hc : q.commit = none)
    (hn : q.retained_handoff = none) (hq : q.retained_queue = m :: rest) :
    Advances commits x q ({ q with retained_queue := rest }.spawn_retained_commit m) where
  ok := by
    have hreply : m.reply = none := h.own m (by rw [hq]; simp)
    have hheld : q.held = [] := by
      unfold held
      rw [hn]
    have hline : line ({ q with retained_queue := rest }.spawn_retained_commit m) = q.line := by
      show (if m.reply.isNone then [m] else []) ++ q.held ++ rest = q.line
      unfold line own_commit
      rw [hreply, hheld, hc, hq]
      rfl
    refine h.sub rfl rfl ?_ ?_ h.routed (.inl hheld) h.seq h.frames
    · rw [hline]
    · intro a ha
      apply h.own
      rw [hq]
      rcases List.mem_append.mp ha with ha | ha
      · exact List.mem_append_left _ ha
      · exact List.mem_append_right _ (List.mem_cons_of_mem _ ha)
  copies a ha hcopy := by
    rcases hcopy with hcopy | hcopy | hcopy
    · exact .inl hcopy
    · cases hcopy
      rw [h.own m (by rw [hq]; simp)] at ha
      cases ha
    · cases hcopy
  handoff := .inl rfl

theorem advances_hand_off (h : q.Ok commits x) (hc : q.commit = none)
    (hn : q.retained_handoff = none) (hq : q.retained_queue = m :: rest) (owner : NodeId) :
    Advances commits x q ({ q with retained_queue := rest }.hand_off owner m) := by
  have hsent : ∀ y v s, (y, PeerMessage.RetainedCommit v s) ∈
      ({ q with retained_queue := rest }.hand_off owner m).written →
      (y, PeerMessage.RetainedCommit v s) ∈ q.written ∨
        y = owner ∧ v = m.toRetained ∧ s = q.retained_handoff_seq + 1 := by
    intro y v s hf
    simp only [hand_off, send_retained_handoff, send] at hf
    split at hf
    · rcases List.mem_append.mp hf with hf | hf
      · exact .inl hf
      · rw [List.mem_singleton] at hf
        cases hf
        exact .inr ⟨rfl, rfl, rfl⟩
    · exact .inl hf
  have hfields : ({ q with retained_queue := rest }.hand_off owner m).node_id = q.node_id ∧
      ({ q with retained_queue := rest }.hand_off owner m).enqueued = q.enqueued ∧
      ({ q with retained_queue := rest }.hand_off owner m).retained_queue = rest ∧
      ({ q with retained_queue := rest }.hand_off owner m).retained_routed_queue =
        q.retained_routed_queue ∧
      ({ q with retained_queue := rest }.hand_off owner m).commit = q.commit ∧
      ({ q with retained_queue := rest }.hand_off owner m).retained_handoff_seq =
        q.retained_handoff_seq + 1 := by
    simp only [hand_off, send_retained_handoff, send]
    split <;> exact ⟨rfl, rfl, rfl, rfl, rfl, rfl⟩
  obtain ⟨hid, henqueued, hqueue, hrouted, hcommit, hseq⟩ := hfields
  have hhand : ({ q with retained_queue := rest }.hand_off owner m).retained_handoff =
      some (owner, q.retained_handoff_seq + 1, m) := rfl
  have hheld : ({ q with retained_queue := rest }.hand_off owner m).held = [m] := rfl
  have hown : ({ q with retained_queue := rest }.hand_off owner m).own_commit = [] := by
    unfold own_commit
    rw [hcommit, hc]
  have hline : ({ q with retained_queue := rest }.hand_off owner m).line = q.line := by
    unfold line
    rw [hown, hheld, hqueue, hq]
    unfold own_commit held
    rw [hc, hn]
    rfl
  refine ⟨h.sub hid henqueued (by rw [hline]) ?_ ?_ (.inr hown) ?_ ?_, ?_, .inr hn⟩
  · intro a ha
    apply h.own
    rw [hheld, hqueue] at ha
    rw [hq]
    exact List.mem_append_right _ ha
  · rw [hrouted]
    exact h.routed
  · intro y s a he
    rw [hhand] at he
    cases he
    rw [hseq]
  · intro y v s hf
    rw [hseq, hhand]
    rcases hsent y v s hf with hf | ⟨rfl, rfl, rfl⟩
    · have hle := (h.frames y v s hf).1
      refine ⟨by omega, fun y' a he => ?_⟩
      cases he
      omega
    · refine ⟨le_refl _, fun y' a he => ?_⟩
      cases he
      exact ⟨rfl, rfl⟩
  · intro a _ hcopy
    unfold Copy at hcopy ⊢
    rw [hrouted, hcommit] at hcopy
    exact hcopy

theorem quiet_turn (q : Queues) (turn : Bool) : Quiet q { q with retained_routed_turn := turn } :=
  quiet_same q _ _ _ _ _ _

theorem advances_drive_routed (h : q.Ok commits x) (hr : q.retained_routed_queue = r :: routed) :
    Advances commits x q ({ q with
      retained_routed_turn := false
      retained_routed_queue := routed }.drive_routed_retained r) := by
  have hturn := h.advances (quiet_turn q false)
  unfold drive_routed_retained
  split
  · exact hturn.trans (advances_start_routed hturn.ok hr)
  · have hrefuse := hturn.trans (advances_refuse hturn.ok hr)
    split
    · exact hrefuse.trans (hrefuse.ok.advances ((quiet_clear _ _ _).trans (quiet_ack _ _ _ _)))
    · exact hrefuse

theorem advances_drive_own (h : q.Ok commits x) (hc : q.commit = none)
    (hn : q.retained_handoff = none) (hq : q.retained_queue = m :: rest) :
    Advances commits x q ({ q with retained_routed_turn := true }.drive_own m rest) := by
  have hturn := h.advances (quiet_turn q true)
  unfold drive_own
  dsimp only
  split
  · exact hturn.trans (advances_start_own hturn.ok hc hn hq)
  · split
    · exact hturn.trans (advances_hand_off hturn.ok hc hn hq _)
    · exact hturn

theorem drive_routed_handoff (q : Queues) (m : RetainedMutation) :
    (q.drive_routed_retained m).retained_handoff = q.retained_handoff := by
  unfold drive_routed_retained
  split
  · rfl
  · split
    · exact ((quiet_clear q _ _).trans (quiet_ack _ _ _ _)).handoff
    · rfl

theorem advances_kick_loop (fuel : Nat) {own_blocked : Bool} (h : q.Ok commits x)
    (hb : own_blocked = false → q.retained_handoff = none) :
    Advances commits x q (kick_loop fuel own_blocked q) := by
  induction fuel generalizing own_blocked q with
  | zero => exact h.stay
  | succ fuel ih =>
    rw [kick_loop]
    split
    · exact h.stay
    · rename_i hcommit
      have hc : q.commit = none := by simpa using hcommit
      split
      · rename_i hfree hq _
        have hown := advances_drive_own h hc (hb (of_decide_eq_true hfree)) hq
        exact hown.trans (ih hown.ok (by simp))
      · rename_i hfree hq hr
        have hn := hb (of_decide_eq_true hfree)
        split
        · have hroute := advances_drive_routed h hr
          refine hroute.trans (ih hroute.ok fun _ => ?_)
          rw [drive_routed_handoff]
          exact hn
        · have hown := advances_drive_own h hc hn hq
          exact hown.trans (ih hown.ok (by simp))
      · rename_i hr _
        have hroute := advances_drive_routed h hr
        refine hroute.trans (ih hroute.ok fun hfree => ?_)
        rw [drive_routed_handoff]
        exact hb hfree
      · exact h.stay

theorem advances_kick (h : q.Ok commits x) : Advances commits x q q.kick_retained_queue := by
  apply advances_kick_loop _ h
  intro hb
  simpa using hb

/-! ## A publish and a result -/

theorem advances_drop_own (h : q.Ok commits x) {d : RetainedMutation}
    (hq : q.retained_queue = d :: rest) :
    Advances commits x q ({ q with retained_queue := rest }.dropped d) := by
  have hsub : Advances commits x q { q with retained_queue := rest } := by
    refine ⟨h.sub rfl rfl ?_ ?_ h.routed h.alone h.seq h.frames, fun m _ hm => hm, .inl rfl⟩
    · unfold line
      rw [hq]
      exact (List.Sublist.refl _).append (List.sublist_cons_self d rest)
    · intro m hm
      apply h.own
      rw [hq]
      rcases List.mem_append.mp hm with hm | hm
      · exact List.mem_append_left _ hm
      · exact List.mem_append_right _ (List.mem_cons_of_mem _ hm)
  exact hsub.trans (hsub.ok.advances (quiet_dropped _ d))

theorem dropped_enqueued (q : Queues) (m : RetainedMutation) :
    (q.dropped m).enqueued = q.enqueued := (quiet_dropped q m).enqueued

/-- The newest own mutation goes to the end of the line. -/
theorem advances_append (h : q.Ok commits x) (hreply : m.reply = none)
    (hstamp : m.stamp = (x, q.enqueued)) :
    Advances commits x q { q with
      enqueued := q.enqueued + 1
      retained_queue := q.retained_queue ++ [m] } := by
  have hline : line { q with enqueued := q.enqueued + 1, retained_queue := q.retained_queue ++ [m] } =
      q.line ++ [m] := (List.append_assoc _ _ _).symm
  refine ⟨⟨h.id, ?_, h.routed, h.alone, ?_, ?_, h.seq, h.frames, ?_, ?_⟩, fun a _ ha => ha, .inl rfl⟩
  · intro a ha
    rcases List.mem_append.mp ha with ha | ha
    · exact h.own a (List.mem_append_left _ ha)
    · rcases List.mem_append.mp ha with ha | ha
      · exact h.own a (List.mem_append_right _ ha)
      · rw [List.mem_singleton.mp ha]
        exact hreply
  · intro a ha
    rw [hline] at ha
    rcases List.mem_append.mp ha with ha | ha
    · obtain ⟨hx, hlt⟩ := h.stamps a ha
      exact ⟨hx, Nat.lt_succ_of_lt hlt⟩
    · rw [List.mem_singleton.mp ha, hstamp]
      exact ⟨rfl, Nat.lt_succ_self _⟩
  · rw [hline, List.pairwise_append]
    refine ⟨h.sorted, List.pairwise_singleton _ _, ?_⟩
    intro a ha b hb
    rw [List.mem_singleton.mp hb, hstamp]
    exact (h.stamps a ha).2
  · intro k hk hx
    exact Nat.lt_succ_of_lt (h.below k hk hx)
  · intro k hk hx a ha
    rw [hline] at ha
    rcases List.mem_append.mp ha with ha | ha
    · exact h.floor k hk hx a ha
    · rw [List.mem_singleton.mp ha, hstamp]
      exact le_of_lt (h.below k hk hx)

theorem advances_publish (h : q.Ok commits x) (topic : String) (payload : Bytes) (qos : UInt8)
    (app : AppProperties) (gate expires_at : Option Nat) (restore : Bool) :
    Advances commits x q
      (q.route_retained_commit topic payload qos app gate expires_at restore) := by
  unfold route_retained_commit
  -- What the bound leaves, then the mutation behind it.
  obtain ⟨q1, hq1, hdrop, hcount⟩ : ∃ q1, (∀ m : RetainedMutation, m.reply = none →
      q.enqueue_retained_mutation m = { q1 with retained_queue := q1.retained_queue ++ [m] }) ∧
      Advances commits x q q1 ∧ q1.enqueued = q.enqueued := by
    rcases hq : q.retained_queue with _ | ⟨d, rest⟩
    · refine ⟨q, fun m hm => ?_, h.stay, rfl⟩
      simp only [enqueue_retained_mutation, hm, hq]
      rfl
    · by_cases hcap : RETAINED_QUEUE_CAP ≤ (d :: rest).length
      · refine ⟨{ q with retained_queue := rest }.dropped d, fun m hm => ?_,
          advances_drop_own h hq, dropped_enqueued _ _⟩
        simp only [enqueue_retained_mutation, hm, hq, if_pos hcap]
        rfl
      · refine ⟨q, fun m hm => ?_, h.stay, rfl⟩
        simp only [enqueue_retained_mutation, hm, hq, if_neg hcap]
        rfl
  dsimp only
  rw [hq1 _ rfl, ← hcount]
  have happend := advances_append hdrop.ok
    (m := { topic, payload, qos, app, expires_at, stamp := (q.node_id, q1.enqueued),
            publish := gate, restore }) rfl (by rw [h.id])
  exact (hdrop.trans happend).trans (advances_kick happend.ok)

theorem advances_done (h : q.Ok commits x) : Advances commits x q q.retained_commit_done := by
  unfold retained_commit_done
  split
  · rename_i m token hc
    have hfree : Advances commits x q { q with commit := none } := by
      refine ⟨h.sub rfl rfl ?_ h.own h.routed (.inr rfl) h.seq h.frames, ?_, .inl rfl⟩
      · exact (List.sublist_append_right _ _).append (List.Sublist.refl _)
      · rintro a _ (ha | ha | ha)
        · exact .inl ha
        · cases ha
        · cases ha
    have htell := hfree.trans (hfree.ok.advances (quiet_tell _ Told.Committed m.publish))
    dsimp only
    split
    · rename_i node seq _
      have hseen := htell.trans (htell.ok.advances (quiet_answered _ node seq token))
      exact hseen.trans (advances_kick hseen.ok)
    · exact htell.trans (advances_kick htell.ok)
  · rename_i m hc
    split
    · rename_i hreply
      refine ⟨h.sub rfl rfl ?_ h.own ?_ (.inr rfl) h.seq h.frames, ?_, .inl rfl⟩
      · exact (List.sublist_append_right _ _).append (List.Sublist.refl _)
      · intro a ha
        rcases List.mem_cons.mp ha with rfl | ha
        · exact hreply
        · exact h.routed a ha
      · rintro a _ (ha | ha | ha)
        · rcases List.mem_cons.mp ha with rfl | ha
          · exact .inr (.inr hc)
          · exact .inl ha
        · cases ha
        · cases ha
    · rename_i hreply
      have hnone : m.reply = none := by simpa using hreply
      have hown : q.own_commit = [m] := by
        unfold own_commit
        rw [hc]
        simp [hnone]
      have hheld : q.held = [] := by
        rcases h.alone with h0 | h0
        · exact h0
        · rw [hown] at h0
          cases h0
      refine ⟨h.sub rfl rfl ?_ ?_ h.routed (.inr rfl) h.seq h.frames, ?_, .inl rfl⟩
      · show ([] ++ q.held ++ m :: q.retained_queue).Sublist q.line
        unfold line
        rw [hown, hheld]
        exact List.Sublist.refl _
      · intro a ha
        rcases List.mem_append.mp ha with ha | ha
        · exact h.own a (List.mem_append_left _ ha)
        · rcases List.mem_cons.mp ha with rfl | ha
          · exact hnone
          · exact h.own a (List.mem_append_right _ ha)
      · rintro a _ (ha | ha | ha)
        · exact .inl ha
        · cases ha
        · cases ha
  · exact h.stay

theorem advances_result (h : q.Ok commits x) (hc : q.commit = some ⟨m, none⟩) (r : Option Token) :
    Advances commits x q { q with commit := some ⟨m, some r⟩ } := by
  have hown : own_commit { q with commit := some ⟨m, some r⟩ } = q.own_commit := by
    unfold own_commit
    rw [hc]
  refine ⟨h.sub rfl rfl ?_ h.own h.routed ?_ h.seq h.frames, ?_, .inl rfl⟩
  · unfold line
    rw [hown]
    exact List.Sublist.refl _
  · rw [hown]
    exact h.alone
  · rintro a _ (ha | ha | ha)
    · exact .inl ha
    · cases ha
    · cases ha
      exact .inr (.inl hc)

theorem Ok.commit_more (h : q.Ok commits x) {k : Committed}
    (hk : k.mutation.stamp.1 = x → k.mutation.stamp.2 < q.enqueued ∧
      ∀ m ∈ q.line, k.mutation.stamp.2 ≤ m.stamp.2) : q.Ok (commits ++ [k]) x where
  id := h.id
  own := h.own
  routed := h.routed
  alone := h.alone
  stamps := h.stamps
  sorted := h.sorted
  seq := h.seq
  frames := h.frames
  below k' hk' hx := by
    rcases List.mem_append.mp hk' with hk' | hk'
    · exact h.below k' hk' hx
    · rw [List.mem_singleton.mp hk'] at hx ⊢
      exact (hk hx).1
  floor k' hk' hx := by
    rcases List.mem_append.mp hk' with hk' | hk'
    · exact h.floor k' hk' hx
    · rw [List.mem_singleton.mp hk'] at hx ⊢
      exact (hk hx).2

/-! ## The end of a hand-off -/

/-- The hand-off goes back to the front of the queue. -/
def reclaim (q : Queues) (m : RetainedMutation) : Queues :=
  { q with retained_handoff := none, retained_queue := m :: q.retained_queue }

variable {y : NodeId} {s : Nat}

theorem Ok.alone_of_handoff (h : q.Ok commits x) (hh : q.retained_handoff = some (y, s, m)) :
    q.held = [m] ∧ q.own_commit = [] := by
  have hheld : q.held = [m] := by
    unfold held
    rw [hh]
  refine ⟨hheld, ?_⟩
  rcases h.alone with h0 | h0
  · rw [hheld] at h0
    cases h0
  · exact h0

theorem ok_reclaim (h : q.Ok commits x) (hh : q.retained_handoff = some (y, s, m)) :
    (q.reclaim m).Ok commits x := by
  obtain ⟨hheld, hown⟩ := h.alone_of_handoff hh
  refine h.sub rfl rfl ?_ ?_ h.routed (.inl rfl) ?_ ?_
  · show (q.own_commit ++ [] ++ m :: q.retained_queue).Sublist q.line
    unfold line
    rw [hheld, hown]
    exact List.Sublist.refl _
  · intro a ha
    apply h.own
    rw [hheld]
    exact ha
  · intro y' s' m' he
    cases he
  · intro y' v s' hf
    exact ⟨(h.frames y' v s' hf).1, fun _ _ he => by cases he⟩

/-- What the loss of a link does to the order: it ends the hand-off to that peer, if there
is one. -/
theorem drop_cases (q : Queues) (node : NodeId) :
    (∃ s m, q.retained_handoff = some (node, s, m) ∧
      Quiet (q.reclaim m) (q.drop_retained_handoff_state node)) ∨
    Quiet q (q.drop_retained_handoff_state node) := by
  unfold drop_retained_handoff_state
  split
  · rename_i owner s m hh
    split
    · rename_i howner
      subst howner
      exact .inl ⟨s, m, hh, quiet_same (q.reclaim m) _ _ _ _ _ _⟩
    · exact .inr (quiet_same q _ _ _ _ _ _)
  · exact .inr (quiet_same q _ _ _ _ _ _)

theorem ok_release (h : q.Ok commits x) : { q with retained_handoff := none }.Ok commits x := by
  refine h.sub rfl rfl ?_ ?_ h.routed (.inl rfl) ?_ ?_
  · show (q.own_commit ++ [] ++ q.retained_queue).Sublist (q.own_commit ++ q.held ++ q.retained_queue)
    rw [List.append_nil]
    exact (List.sublist_append_left _ _).append (List.Sublist.refl _)
  · intro a ha
    exact h.own a (List.mem_append_right _ ha)
  · intro y' s' m' he
    cases he
  · intro y' v s' hf
    exact ⟨(h.frames y' v s' hf).1, fun _ _ he => by cases he⟩

/-- The hand-off is sent once more. -/
theorem ok_resend (h : q.Ok commits x) (hh : q.retained_handoff = some (y, s, m)) :
    Advances commits x q (q.send_retained_handoff y s m) := by
  unfold send_retained_handoff send
  split
  · refine ⟨h.sub rfl rfl (List.Sublist.refl _) h.own h.routed h.alone h.seq ?_,
      fun a _ ha => ha, .inl rfl⟩
    intro y' v s' hf
    rcases List.mem_append.mp hf with hf | hf
    · exact h.frames y' v s' hf
    · rw [List.mem_singleton] at hf
      cases hf
      refine ⟨h.seq y s m hh, fun y' m' he => ?_⟩
      rw [hh] at he
      cases he
      exact ⟨rfl, rfl⟩
  · exact h.stay

/-- A routed mutation joins the queue; the bound may drop another one. -/
theorem ok_take_in (h : q.Ok commits x) (hreply : m.reply.isSome = true) :
    (q.enqueue_retained_mutation m).Ok commits x ∧
      (q.enqueue_retained_mutation m).retained_handoff = q.retained_handoff ∧
      ∀ a, a.reply.isSome = true → (q.enqueue_retained_mutation m).Copy a → q.Copy a ∨ a = m := by
  -- What the bound leaves, then the mutation behind it.
  obtain ⟨q1, hq1, hdrop, hhand⟩ : ∃ q1, q.enqueue_retained_mutation m =
      { q1 with retained_routed_queue := q1.retained_routed_queue ++ [m] } ∧
      Advances commits x q q1 ∧ q1.retained_handoff = q.retained_handoff := by
    unfold enqueue_retained_mutation
    rw [if_pos hreply]
    rcases hr : q.retained_routed_queue with _ | ⟨d, rest⟩
    · exact ⟨q, by simp only [hr], h.stay, rfl⟩
    · by_cases hcap : RETAINED_QUEUE_CAP ≤ (d :: rest).length
      · have hrefuse := advances_refuse h hr
        have hquiet := quiet_dropped { q with retained_routed_queue := rest } d
        exact ⟨{ q with retained_routed_queue := rest }.dropped d, by simp only [if_pos hcap],
          hrefuse.trans (hrefuse.ok.advances hquiet), hquiet.handoff⟩
      · exact ⟨q, by simp only [if_neg hcap, hr], h.stay, rfl⟩
  rw [hq1]
  have h1 := hdrop.ok
  refine ⟨h1.sub rfl rfl (List.Sublist.refl _) h1.own ?_ h1.alone h1.seq h1.frames, hhand, ?_⟩
  · intro a ha
    rcases List.mem_append.mp ha with ha | ha
    · exact h1.routed a ha
    · rw [List.mem_singleton.mp ha]
      exact hreply
  · rintro a hsome (ha | ha)
    · rcases List.mem_append.mp ha with ha | ha
      · exact .inl (hdrop.copies a hsome (.inl ha))
      · exact .inr (List.mem_singleton.mp ha)
    · exact .inl (hdrop.copies a hsome (.inr ha))

end Queues

namespace Cluster

/-! ## What holds of the cluster -/

/-- Every node is in order, every copy of a hand-off is of one that its node still holds,
and each node's commits so far came in the order of their stamps. -/
structure Ordered (c : Cluster) : Prop where
  nodes : ∀ x, (c.nodes x).Ok c.commits x
  copies : ∀ y m, (c.nodes y).Copy m → ∀ x s, m.reply = some (x, s) →
    ∃ m', (c.nodes x).retained_handoff = some (y, s, m') ∧ m'.stamp = m.stamp
  sorted : c.commits.Pairwise (fun a b => a.mutation.stamp.1 = b.mutation.stamp.1 →
    a.mutation.stamp.2 ≤ b.mutation.stamp.2)

/-- Whether a step leaves no copy of a hand-off behind: a frame is taken in only while its
sender holds the hand-off, unless the owner's records answer for it; and when a hand-off
ends, its owner has no copy that may still be committed. -/
def fine (c : Cluster) : Event → Bool
  | .Arrive x i => match (c.nodes x).written[i]? with
    | some (y, .RetainedCommit _ seq) => (c.nodes y).answers x seq || (c.nodes x).awaits y seq
    | some (y, .RetainedCommitAck seq _) =>
      !(c.nodes y).awaits x seq || !(c.nodes x).holds (y, seq)
    | none => true
  | .Sweep x => match (c.nodes x).retained_handoff with
    | some (y, seq, _) => decide (y ∈ (c.nodes x).peers) || !(c.nodes y).holds (x, seq)
    | none => true
  | .Disconnected x y => match (c.nodes x).retained_handoff with
    | some (o, seq, _) => decide (o ≠ y) || !(c.nodes y).holds (x, seq)
    | none => true
  | _ => true

def run_fine : Cluster → List Event → Bool
  | _, [] => true
  | c, e :: es => c.fine e && run_fine (c.step e) es

@[simp] theorem set_self (c : Cluster) (x : NodeId) (q : Queues) : (c.set x q).nodes x = q :=
  Function.update_self _ _ _

theorem set_ne (c : Cluster) {x y : NodeId} (q : Queues) (h : y ≠ x) :
    (c.set x q).nodes y = c.nodes y := Function.update_of_ne h _ _

@[simp] theorem set_set (c : Cluster) (x : NodeId) (q q' : Queues) :
    (c.set x q).set x q' = c.set x q' := by
  simp [set]

variable {c : Cluster} {x y : NodeId} {q : Queues}

theorem nodes_set (h : c.Ordered) (hok : q.Ok c.commits x) (z : NodeId) :
    ((c.set x q).nodes z).Ok c.commits z := by
  by_cases hz : z = x
  · subst hz
    rw [set_self]
    exact hok
  · rw [set_ne c q hz]
    exact h.nodes z

theorem ordered_change (h : c.Ordered) (hok : q.Ok c.commits x)
    (hcopies : ∀ m, m.reply.isSome = true → q.Copy m → (c.nodes x).Copy m)
    (hhand : ∀ y s m, (c.nodes x).retained_handoff = some (y, s, m) →
      q.retained_handoff = some (y, s, m) ∨ (c.nodes y).holds (x, s) = false) :
    (c.set x q).Ordered := by
  refine ⟨nodes_set h hok, fun y m hcopy o s hreply => ?_, h.sorted⟩
  have hold : (c.nodes y).Copy m := by
    by_cases hy : y = x
    · subst hy
      rw [set_self] at hcopy
      exact hcopies m (by rw [hreply]; rfl) hcopy
    · rw [set_ne c q hy] at hcopy
      exact hcopy
  obtain ⟨m', hm', hstamp⟩ := h.copies y m hold o s hreply
  refine ⟨m', ?_, hstamp⟩
  by_cases ho : o = x
  · subst ho
    rw [set_self]
    rcases hhand y s m' hm' with hsame | hclean
    · exact hsame
    · rw [Queues.holds_of_copy hold hreply] at hclean
      cases hclean
  · rw [set_ne c q ho]
    exact hm'

theorem ordered_advance (h : c.Ordered) (ha : Queues.Advances c.commits x (c.nodes x) q) :
    (c.set x q).Ordered := by
  apply ordered_change h ha.ok ha.copies
  intro y s m hh
  rcases ha.handoff with hsame | hnone
  · exact .inl (hsame.trans hh)
  · rw [hnone] at hh
    cases hh

/-- Two changes of one node, the second on its own. -/
theorem ordered_then (h : (c.set x q).Ordered) {q' : Queues}
    (ha : Queues.Advances c.commits x q q') : (c.set x q').Ordered := by
  have h' : ((c.set x q).set x q').Ordered := by
    apply ordered_advance h
    rw [set_self]
    exact ha
  rw [set_set] at h'
  exact h'

variable {m : RetainedMutation} {s : Nat}

/-- A frame is taken in while its sender holds the hand-off. -/
theorem ordered_take_in (h : c.Ordered) (hreply : m.reply = some (y, s))
    (hheld : ∃ m', (c.nodes y).retained_handoff = some (x, s, m') ∧ m'.stamp = m.stamp)
    {q : Queues} (hq : Queues.Quiet (c.nodes x) q) :
    (c.set x (q.enqueue_retained_mutation m)).Ordered := by
  obtain ⟨hok, hhand, hcopies⟩ :=
    Queues.ok_take_in ((h.nodes x).quiet hq) (m := m) (by rw [hreply]; rfl)
  have hsame : ∀ o, ((c.set x (q.enqueue_retained_mutation m)).nodes o).retained_handoff =
      (c.nodes o).retained_handoff := by
    intro o
    by_cases ho : o = x
    · subst ho
      rw [set_self, hhand, hq.handoff]
    · rw [set_ne c _ ho]
  refine ⟨nodes_set h hok, fun z a hcopy o t hreply' => ?_, h.sorted⟩
  rw [hsame o]
  by_cases hz : z = x
  · subst hz
    rw [set_self] at hcopy
    rcases hcopies a (by rw [hreply']; rfl) hcopy with hold | rfl
    · have hcopy' : (c.nodes z).Copy a := by
        unfold Queues.Copy at hold ⊢
        rw [hq.routed, hq.commit] at hold
        exact hold
      exact h.copies z a hcopy' o t hreply'
    · rw [hreply] at hreply'
      cases hreply'
      exact hheld
  · rw [set_ne c _ hz] at hcopy
    exact h.copies z a hcopy o t hreply'

/-! ## Every step -/

variable {seq : Nat}

theorem awaits_iff {owner : NodeId} :
    q.awaits owner seq = true ↔ ∃ m, q.retained_handoff = some (owner, seq, m) := by
  unfold Queues.awaits
  rcases q.retained_handoff with _ | ⟨o, s, m⟩
  · simp
  · simp [Prod.ext_iff]

theorem ordered_accept (h : c.Ordered) {value : Retained}
    (hframe : (x, PeerMessage.RetainedCommit value seq) ∈ (c.nodes y).written)
    (hfine : ((c.nodes x).answers y seq || (c.nodes y).awaits x seq) = true) :
    (c.set x ((c.nodes x).accept_routed_retained y value seq)).Ordered := by
  have htake : (c.nodes x).retained_handoff_seen[y]?.map (·.1) ≠ some seq →
      (c.set x (Queues.accept_routed_retained.take_in y value seq (c.nodes x))).Ordered := by
    intro hseen
    unfold Queues.accept_routed_retained.take_in
    split
    · exact ordered_advance h (h.nodes x).stay
    · rename_i hpending
      have hawait : (c.nodes y).awaits x seq = true := by
        rcases (Bool.or_eq_true _ _).mp hfine with hrecord | hawait
        · simp [Queues.answers, hseen, hpending] at hrecord
        · exact hawait
      obtain ⟨m, hm⟩ := awaits_iff.mp hawait
      have hin := ordered_take_in h (m := { value with reply := some (y, seq) }) rfl
        ⟨m, hm, (((h.nodes y).frames x value seq hframe).2 x m hm).2⟩
        (Queues.quiet_same (c.nodes x) (c.nodes x).peers (c.nodes x).placement
          (c.nodes x).retained_routed_turn (c.nodes x).retained_handoff_seen
          ((c.nodes x).retained_handoff_pending.insert y seq) (c.nodes x).told)
      have hok := hin.nodes x
      rw [set_self] at hok
      exact ordered_then hin (Queues.advances_kick hok)
  unfold Queues.accept_routed_retained
  split
  · rename_i last_seq token hseen
    split
    · exact ordered_advance h ((h.nodes x).advances (Queues.quiet_ack _ _ _ _))
    · rename_i hne
      apply htake
      rw [hseen]
      simpa using hne
  · rename_i hseen
    apply htake
    rw [hseen]
    simp

theorem ordered_reclaim (h : c.Ordered) (hh : (c.nodes x).retained_handoff = some (y, s, m))
    (hclean : (c.nodes y).holds (x, s) = false) : (c.set x ((c.nodes x).reclaim m)).Ordered := by
  apply ordered_change h (Queues.ok_reclaim (h.nodes x) hh) (fun _ _ hc => hc)
  intro y' s' m' hh'
  rw [hh] at hh'
  cases hh'
  exact .inr hclean

theorem ordered_ack (h : c.Ordered) {token : Option Token}
    (hfine : (!(c.nodes x).awaits y seq || !(c.nodes y).holds (x, seq)) = true) :
    (c.set x ((c.nodes x).remote_retained_commit_ack y seq token)).Ordered := by
  unfold Queues.remote_retained_commit_ack
  split
  · exact ordered_advance h (h.nodes x).stay
  · rename_i owner held_seq m hh
    split
    · exact ordered_advance h (h.nodes x).stay
    · rename_i hmatch
      obtain ⟨rfl, rfl⟩ : owner = y ∧ held_seq = seq := by
        push Not at hmatch
        exact hmatch
      have hclean : (c.nodes owner).holds (x, held_seq) = false := by
        rw [awaits_iff.mpr ⟨m, hh⟩] at hfine
        simpa using hfine
      split
      · have hfree : (c.set x { c.nodes x with retained_handoff := none }).Ordered := by
          apply ordered_change h (Queues.ok_release (h.nodes x)) (fun _ _ hc => hc)
          intro y' s' m' hh'
          rw [hh] at hh'
          cases hh'
          exact .inr hclean
        have hok := hfree.nodes x
        rw [set_self] at hok
        have htell := hok.advances (Queues.quiet_tell _ Told.Committed m.publish)
        exact ordered_then hfree (htell.trans (Queues.advances_kick htell.ok))
      · exact ordered_reclaim h hh hclean

theorem ordered_sweep (h : c.Ordered) (hfine : c.fine (.Sweep x) = true) :
    (c.set x (c.nodes x).retry_retained_handoff.kick_retained_queue).Ordered := by
  have hretry : (c.set x (c.nodes x).retry_retained_handoff).Ordered := by
    unfold Queues.retry_retained_handoff
    split
    · exact ordered_advance h (h.nodes x).stay
    · rename_i y s m hh
      split
      · exact ordered_advance h (Queues.ok_resend (h.nodes x) hh)
      · rename_i hlink
        have hclean : (c.nodes y).holds (x, s) = false := by
          simpa [fine, hh, hlink] using hfine
        exact ordered_reclaim h hh hclean
  have hok := hretry.nodes x
  rw [set_self] at hok
  exact ordered_then hretry (Queues.advances_kick hok)

theorem ordered_disconnected (h : c.Ordered) (hfine : c.fine (.Disconnected x y) = true) :
    (c.step (.Disconnected x y)).Ordered := by
  have hlink := (h.nodes x).advances (Queues.quiet_same (c.nodes x) ((c.nodes x).peers.erase y)
    (c.nodes x).placement (c.nodes x).retained_routed_turn (c.nodes x).retained_handoff_seen
    (c.nodes x).retained_handoff_pending (c.nodes x).told)
  have hunlinked := ordered_advance h hlink
  rcases Queues.drop_cases { c.nodes x with peers := (c.nodes x).peers.erase y } y with
    ⟨s, m, hh, hquiet⟩ | hquiet
  · have hold : (c.nodes x).retained_handoff = some (y, s, m) := hh
    have hclean : (c.nodes y).holds (x, s) = false := by
      simpa [fine, hold] using hfine
    have hback : (c.set x (Queues.reclaim { c.nodes x with peers := (c.nodes x).peers.erase y }
        m)).Ordered := by
      apply ordered_change h (Queues.ok_reclaim hlink.ok hh) (fun _ _ hc => hc)
      intro y' s' m' hh'
      rw [hold] at hh'
      cases hh'
      exact .inr hclean
    exact ordered_then hback ((Queues.ok_reclaim hlink.ok hh).advances hquiet)
  · exact ordered_then hunlinked (hlink.ok.advances hquiet)

theorem ordered_commit (h : c.Ordered) (hc : (c.nodes x).commit = some ⟨m, none⟩) (token : Token) :
    Ordered { c.set x { c.nodes x with commit := some ⟨m, some (some token)⟩ } with
      commits := c.commits ++ [⟨x, m, token⟩] } := by
  have hset := ordered_advance h (Queues.advances_result (h.nodes x) hc (some token))
  -- The mutation is the one that its node commits or has handed over.
  obtain ⟨o, m', hstamp, hfront⟩ : ∃ o m', m'.stamp = m.stamp ∧
      m' ∈ ((c.set x { c.nodes x with commit := some ⟨m, some (some token)⟩ }).nodes o).own_commit ++
        ((c.set x { c.nodes x with commit := some ⟨m, some (some token)⟩ }).nodes o).held := by
    rcases hreply : m.reply with _ | ⟨o, s⟩
    · refine ⟨x, m, rfl, List.mem_append_left _ ?_⟩
      rw [set_self]
      simp [Queues.own_commit, hreply]
    · obtain ⟨m', hm', hstamp⟩ := h.copies x m (.inr (.inl hc)) o s hreply
      refine ⟨o, m', hstamp, List.mem_append_right _ ?_⟩
      have hsame : ((c.set x { c.nodes x with commit := some ⟨m, some (some token)⟩ }).nodes
          o).retained_handoff = some (x, s, m') := by
        by_cases ho : o = x
        · subst ho
          rw [set_self]
          exact hm'
        · rw [set_ne c _ ho]
          exact hm'
      simp [Queues.held, hsame]
  have hline : m' ∈ ((c.set x { c.nodes x with commit := some ⟨m, some (some token)⟩ }).nodes
      o).line := List.mem_append_left _ hfront
  obtain ⟨horigin, hlt⟩ := (hset.nodes o).stamps m' hline
  have holdest := (hset.nodes o).oldest hfront
  rw [hstamp] at horigin hlt holdest
  refine ⟨fun z => ?_, hset.copies, ?_⟩
  · apply (hset.nodes z).commit_more
    intro hz
    have hzo : z = o := hz.symm.trans horigin
    subst hzo
    exact ⟨hlt, holdest⟩
  · rw [List.pairwise_append]
    refine ⟨h.sorted, List.pairwise_singleton _ _, ?_⟩
    intro k hk k' hk'
    rw [List.mem_singleton.mp hk']
    intro hsame
    have hle := (hset.nodes o).floor k hk (hsame.trans horigin) m' hline
    rw [hstamp] at hle
    exact hle

theorem ordered_step (h : c.Ordered) {e : Event} (hfine : c.fine e = true) : (c.step e).Ordered := by
  cases e with
  | Publish x topic payload qos app gate expires_at restore =>
    exact ordered_advance h (Queues.advances_publish (h.nodes x) _ _ _ _ _ _ _)
  | Arrive x i =>
    simp only [step, fine] at hfine ⊢
    rcases hw : (c.nodes x).written[i]? with _ | ⟨y, message⟩
    · exact h
    · rw [hw] at hfine
      cases message with
      | RetainedCommit value seq => exact ordered_accept h (List.mem_of_getElem? hw) hfine
      | RetainedCommitAck seq token => exact ordered_ack h hfine
  | Commit x result =>
    simp only [step]
    split
    · rename_i m hc
      cases result with
      | some token => exact ordered_commit h hc token
      | none => exact ordered_advance h (Queues.advances_result (h.nodes x) hc none)
    · exact h
  | Done x => exact ordered_advance h (Queues.advances_done (h.nodes x))
  | Sweep x => exact ordered_sweep h hfine
  | Connected x y =>
    have hlink := (h.nodes x).advances (Queues.quiet_same (c.nodes x)
      ((c.nodes x).peers.insert y) (c.nodes x).placement (c.nodes x).retained_routed_turn
      (c.nodes x).retained_handoff_seen (c.nodes x).retained_handoff_pending (c.nodes x).told)
    exact ordered_advance h (hlink.trans (Queues.advances_kick hlink.ok))
  | Disconnected x y => exact ordered_disconnected h hfine
  | Placed x owner =>
    exact ordered_advance h ((h.nodes x).advances (Queues.quiet_same (c.nodes x) _ _ _ _ _ _))

theorem ordered_run (h : c.Ordered) {es : List Event} (hfine : c.run_fine es = true) :
    (c.run es).Ordered := by
  induction es generalizing c with
  | nil => exact h
  | cons e es ih =>
    obtain ⟨hstep, hrest⟩ := (Bool.and_eq_true _ _).mp hfine
    exact ih (ordered_step h hstep) hrest

theorem ordered_fresh (h : c.Fresh) : c.Ordered := by
  obtain ⟨hcommits, hnodes⟩ := h
  refine ⟨fun x => ?_, fun y m hcopy => ?_, ?_⟩
  · obtain ⟨peers, placement, hx⟩ := hnodes x
    rw [hx, hcommits]
    constructor <;> simp [Queues.held, Queues.own_commit, Queues.line]
  · obtain ⟨peers, placement, hy⟩ := hnodes y
    rw [hy] at hcopy
    rcases hcopy with hcopy | hcopy | hcopy <;> cases hcopy
  · rw [hcommits]
    exact List.Pairwise.nil

end Cluster

/-- In a run that leaves no copy of a hand-off behind, once a node's later mutation is
committed none that the node enqueued before it is committed any more, on whatever node. -/
theorem retained_commits_keep_their_order (c : Cluster) (hc : c.Fresh) (es : List Event)
    (hfine : c.run_fine es = true) (m1 m2 : RetainedMutation) (hnode : m1.stamp.1 = m2.stamp.1)
    (horder : m1.stamp.2 < m2.stamp.2) (before after : List Committed) (k : Committed)
    (hk : k.mutation = m2) (hrun : (c.run es).commits = before ++ k :: after) :
    ∀ k' ∈ after, k'.mutation.stamp ≠ m1.stamp := by
  intro k' hk' hstamp
  have hsorted := (Cluster.ordered_run (Cluster.ordered_fresh hc) hfine).sorted
  rw [hrun, List.pairwise_append, List.pairwise_cons] at hsorted
  have hle := hsorted.2.1.1 k' hk'
  rw [hk, hstamp] at hle
  have hbefore := hle hnode.symm
  omega

/-! ## Two runs -/

/-- Node `a` is linked to `b` and `c`, and all of them take `b` for the owner. -/
def trio : Cluster where
  nodes x :=
    { node_id := x
      peers := if x = "a" then (∅ : BTreeSet NodeId).insert "b" |>.insert "c"
        else (∅ : BTreeSet NodeId).insert "a"
      placement := some (fun _ => "b") }

theorem trio_fresh : trio.Fresh := ⟨rfl, fun _ => ⟨_, _, rfl⟩⟩

def Event.set_topic (payload : Bytes) : Event := .Publish "a" "t" payload 0 {} none none false

def Event.owned (x owner : NodeId) : Event := .Placed x (some (fun _ => owner))

/-- The mutation of node `a` with this payload, as `c` commits it. -/
def committed_by_c (payload : Bytes) (n seq : Nat) (token : Token) : Committed :=
  ⟨"c", { topic := "t", payload, qos := 0, app := {}, expires_at := none, stamp := ("a", n)
          reply := some ("a", seq) }, token⟩

/-- The lease moves from `b` to `c` while the first hand-off is on its way: `b` refuses it,
and `c` commits the three mutations in their order. -/
theorem three_mutations_keep_their_order :
    let run : List Event :=
      [.set_topic [1], .Sweep "a", .owned "b" "c", .Arrive "a" 0, .Arrive "b" 0,
       .owned "a" "c", .owned "c" "c", .Sweep "a",
       .Arrive "a" 2, .Commit "c" (some (token 2 1)), .Done "c", .Arrive "c" 0,
       .set_topic [2], .Arrive "a" 3, .Commit "c" (some (token 2 2)), .Done "c", .Arrive "c" 1,
       .set_topic [3], .Arrive "a" 4, .Commit "c" (some (token 2 3)), .Done "c"]
    (trio.run run).commits = [committed_by_c [1] 0 2 (token 2 1)] ++
        committed_by_c [2] 1 3 (token 2 2) :: [committed_by_c [3] 2 4 (token 2 3)] ∧
      ∀ k' ∈ [committed_by_c [3] 2 4 (token 2 3)], k'.mutation.stamp ≠ ("a", 0) := by
  intro run
  have hrun : (trio.run run).commits = [committed_by_c [1] 0 2 (token 2 1)] ++
      committed_by_c [2] 1 3 (token 2 2) :: [committed_by_c [3] 2 4 (token 2 3)] := by
    decide +kernel
  refine ⟨hrun, ?_⟩
  exact retained_commits_keep_their_order trio trio_fresh run (by decide +kernel)
    (committed_by_c [1] 0 2 (token 2 1)).mutation (committed_by_c [2] 1 3 (token 2 2)).mutation rfl
    (by decide) _ _ _ rfl hrun

/-- The first mutation waits at `b`, which has no quorum, when the link to `b` is lost. Node
`a` takes it back and `c` commits it and the second one; then the lease returns to `b`,
and `b` commits its copy of the first. -/
theorem a_reclaimed_hand_off_commits_late :
    trio.Fresh ∧ (trio.run
      [.set_topic [1], .Arrive "a" 0, .Commit "b" none, .Done "b",
       .Disconnected "a" "b", .Disconnected "b" "a", .owned "a" "c", .owned "c" "c", .Sweep "a",
       .Arrive "a" 1, .Commit "c" (some (token 2 1)), .Done "c", .Arrive "c" 0,
       .set_topic [2], .Arrive "a" 2, .Commit "c" (some (token 2 2)), .Done "c", .Arrive "c" 1,
       .owned "a" "b", .owned "c" "b", .Sweep "b", .Commit "b" (some (token 3 3)),
       .Done "b"]).commits.map (fun k => (k.node, k.mutation.topic, k.mutation.stamp)) =
      [("c", "t", "a", 0), ("c", "t", "a", 1), ("b", "t", "a", 0)] := by
  exact ⟨trio_fresh, by decide +kernel⟩

end mqttd.hub
