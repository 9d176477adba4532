-- The answer to a `Join`. The whole view goes into the gossip queue, this node's
-- own claim first, but behind what is queued about nodes that are no longer held;
-- and one message takes only as much of the queue as the fan-out lets it.
import MqttBroker.Cluster.SwimDeparture
import MqttBroker.Cluster.SwimProbe

namespace mqtt_cluster.swim

namespace Swim

/-! ## The queue -/

def queuedAbout (s : Swim) (about : NodeId → Bool) : List (Update × Nat) :=
  s.gossip.filter (fun g => about g.1.id)

/-- What is queued about the nodes is left alone. -/
def Undisturbed (about : NodeId → Bool) (s s' : Swim) : Prop :=
  s'.queuedAbout about = s.queuedAbout about

variable {about : NodeId → Bool} {s s' : Swim}

theorem Undisturbed.of_gossip (h : s'.gossip = s.gossip) : Undisturbed about s s' := by
  unfold Undisturbed queuedAbout
  rw [h]

theorem Undisturbed.trans {s'' : Swim} (h : Undisturbed about s s')
    (h' : Undisturbed about s' s'') : Undisturbed about s s'' :=
  Eq.trans h' h

variable {u : Update}

theorem undisturbed_enqueue (s : Swim) (h : about u.id = false) :
    Undisturbed about s (s.enqueue_gossip u) := by
  unfold Undisturbed queuedAbout enqueue_gossip
  rw [List.filter_append, List.filter_filter]
  have hlast : [(u, s.transmit_limit)].filter (fun g => about g.1.id) = [] := by simp [h]
  rw [hlast, List.append_nil]
  apply List.filter_congr
  intro g _
  by_cases hid : g.1.id = u.id
  · simp [hid, h]
  · simp [hid]

theorem undisturbed_refute (s : Swim) (u : Update) (h : about s.local_id = false) :
    Undisturbed about s (s.refute u) := by
  unfold refute
  split
  · exact .of_gossip rfl
  · split
    · dsimp only
      generalize hs : { s with incarnation := u.incarnation + 1 } = raised
      have hself : about raised.self_update.id = false := hs ▸ h
      have hraised : Undisturbed about s raised := hs ▸ .of_gossip rfl
      have hqueued := hraised.trans (undisturbed_enqueue raised hself)
      split
      · -- the refutation that was put at the end goes to the front
        refine hqueued.trans ?_
        unfold Undisturbed queuedAbout raise_awareness enqueue_gossip
        simp [hself]
      · exact hqueued.trans (.of_gossip rfl)
    · exact .of_gossip rfl

theorem undisturbed_relay (s : Swim) (h : about u.id = false) :
    Undisturbed about s (s.relay u) := by
  unfold relay
  split
  · split
    · next m _ =>
      split
      · exact undisturbed_enqueue s h
      · have hfixed : about ({ u with addr := m.addr } : Update).id = false := h
        exact undisturbed_enqueue s hfixed
    · exact undisturbed_enqueue s h
  · exact undisturbed_enqueue s h

theorem gossip_begin_life (s : Swim) (m : Member) (u : Update) (now : Nat) :
    (s.begin_life m u now).gossip = s.gossip := by
  unfold begin_life
  dsimp only
  split
  · rfl
  · rfl

theorem gossip_adopt (s : Swim) (m : Member) (u : Update) (now : Nat) (source : Source) :
    (s.adopt m u now source).gossip = s.gossip := by
  have hlife := gossip_begin_life s m u now
  unfold adopt
  dsimp only
  by_cases hl : m.generation < u.generation
  · simp only [hl, if_true]
    repeat' split
    all_goals simp [putMember, push, count_spared, hlife]
  · simp only [hl, if_false]
    repeat' split
    all_goals simp [putMember, push, count_spared]

theorem gossip_heard_again (s : Swim) (u : Update) (now : Nat) :
    (s.heard_again u now).gossip = s.gossip := by
  unfold heard_again
  split
  · rfl
  · split
    · rfl
    · split
      · rfl
      · rfl

theorem gossip_check_relayed_dead (s : Swim) (id : NodeId) (incarnation now : Nat) :
    (s.check_relayed_dead id incarnation now).gossip = s.gossip := by
  unfold check_relayed_dead
  split
  · rfl
  · split
    · rfl
    · unfold send_last_probe
      dsimp only
      split
      · rfl
      · rfl

/-- A claim leaves alone what is queued about other nodes than this one and its own. -/
theorem undisturbed_apply (s : Swim) (now : Nat) (source : Source)
    (hlocal : about s.local_id = false) (h : about u.id = false) :
    Undisturbed about s (s.apply_update_from u now source) := by
  unfold apply_update_from
  split
  · exact undisturbed_refute s u hlocal
  · dsimp only
    split
    · next m _ =>
      have htouch : Undisturbed about s (s.touch m u source) := .of_gossip rfl
      split
      · exact .of_gossip rfl
      · split
        · exact .of_gossip rfl
        · split
          · exact htouch
          · split
            · exact htouch.trans (.of_gossip (gossip_check_relayed_dead (s.touch m u source) _ _ _))
            · have hadopt := gossip_adopt (s.touch m u source) (m.touched u source) u now source
              exact (htouch.trans (.of_gossip hadopt)).trans (undisturbed_relay _ h)
    · have hagain := gossip_heard_again (s.note (.Heard u.id u.generation)) u now
      have hlearn : (((s.note (.Heard u.id u.generation)).heard_again u now).learn u now).gossip =
          s.gossip := hagain
      exact Undisturbed.trans (.of_gossip hlearn) (undisturbed_relay _ h)

theorem local_id_apply (s : Swim) (u : Update) (now : Nat) (source : Source) :
    (s.apply_update_from u now source).local_id = s.local_id := by
  cases hlife : s.begins_life u with
  | false => exact (steady_apply now source hlife).local_id
  | true => exact (apply_begins_life now source hlife).2.1

theorem undisturbed_applies (s : Swim) (l : List Update) (now : Nat) (source : Update → Source)
    (hlocal : about s.local_id = false) (h : ∀ u ∈ l, about u.id = false) :
    Undisturbed about s (l.foldl (fun s u => s.apply_update_from u now (source u)) s) := by
  induction l generalizing s with
  | nil => exact .of_gossip rfl
  | cons u l ih =>
    have hhead := undisturbed_apply s now (source u) hlocal (h u (by simp))
    refine hhead.trans (ih _ ?_ (fun v hv => h v (by simp [hv])))
    rw [local_id_apply]
    exact hlocal

theorem undisturbed_meet_sender (s : Swim) (msg : Message) (now : Nat)
    (hlocal : about s.local_id = false) (h : about msg.sender = false) :
    Undisturbed about s (s.meet_sender msg now) := by
  have hheader : ∀ s' : Swim, s'.local_id = s.local_id → Undisturbed about s'
      (s'.apply_update_from (header_claim msg) now .FirstHand) := by
    intro s' hsame
    refine undisturbed_apply s' now .FirstHand ?_ h
    rw [hsame]
    exact hlocal
  unfold meet_sender
  split
  · next m _ =>
    have haddr : Undisturbed about s
        (if m.addr ≠ msg.from_addr ∧ unroutable msg.from_addr = false then
          s.putMember msg.sender { m with addr := msg.from_addr } else s) := by
      split
      · exact .of_gossip rfl
      · exact .of_gossip rfl
    dsimp only
    split
    · refine haddr.trans (hheader _ ?_)
      split
      · rfl
      · rfl
    · exact haddr
  · exact hheader s rfl

/-! ## The nodes that a datagram does not speak of -/

/-- A node that is neither this one nor held, and that the datagram neither comes from nor
speaks of. -/
def stray (s : Swim) (msg : Message) (id : NodeId) : Bool :=
  decide (id ≠ s.local_id) && s.members[id]?.isNone && decide (id ≠ msg.sender) &&
    msg.gossip.all (fun u => decide (u.id ≠ id))

/-- What is queued about such nodes: the leavings of members that were pruned. -/
def strays (s : Swim) (msg : Message) : List (Update × Nat) := s.queuedAbout (s.stray msg)

/-- A node that is neither this one nor held. -/
def unknown (s : Swim) (id : NodeId) : Bool := decide (id ≠ s.local_id) && s.members[id]?.isNone

theorem apply_holds (now : Nat) (source : Source) (hself : u.id ≠ s.local_id) :
    ∃ m, (s.apply_update_from u now source).members[u.id]? = some m := by
  cases hm : s.members[u.id]? with
  | none =>
    obtain ⟨m, hm, -⟩ := apply_learns now source hself hm
    exact ⟨m, hm⟩
  | some m =>
    cases hlife : s.begins_life u with
    | true =>
      obtain ⟨-, -, m', hm', -⟩ := apply_begins_life now source hlife
      exact ⟨m', hm'⟩
    | false =>
      obtain ⟨m', hm', -⟩ := apply_same_life now source hlife m hm
      exact ⟨m', hm'⟩

/-- Every node that the gossip speaks of is held after it. -/
theorem applies_hold {claims : List Update} (ht : Tidy s) (l : List Update)
    (hl : ∀ u ∈ l, u ∈ claims) (now : Nat) (source : Update → Source) (hu : u ∈ l)
    (hself : u.id ≠ s.local_id) :
    ∃ m, (l.foldl (fun s u => s.apply_update_from u now (source u)) s).members[u.id]? = some m := by
  induction l generalizing s with
  | nil => cases hu
  | cons v l ih =>
    have hhead := follows_apply ht (hl v (by simp)) now (source v)
    have hrest : ∀ w ∈ l, w ∈ claims := fun w hw => hl w (by simp [hw])
    rw [List.foldl_cons]
    rcases List.mem_cons.mp hu with rfl | hu
    · obtain ⟨m, hm⟩ := apply_holds now (source u) hself
      obtain ⟨m', hm', -⟩ := (follows_applies hhead.tidy l hrest now source).grown u.id m hm
      exact ⟨m', hm'⟩
    · refine ih hhead.tidy hrest hu ?_
      rw [hhead.local_id]
      exact hself

variable {msg : Message}

theorem meet_holds (ht : Tidy s) (now : Nat) (hself : msg.sender ≠ s.local_id) :
    ∃ m, (s.meet_sender msg now).members[msg.sender]? = some m := by
  cases hm : s.members[msg.sender]? with
  | none =>
    unfold meet_sender
    rw [hm]
    exact apply_holds (u := header_claim msg) now .FirstHand hself
  | some m =>
    obtain ⟨m', hm', -⟩ := (follows_meet_sender ht msg now).grown msg.sender m hm
    exact ⟨m', hm'⟩

/-- Who is spoken of is not left alone. -/
theorem stray_gossip (s : Swim) (hu : u ∈ msg.gossip) : s.stray msg u.id = false := by
  have hspoken : msg.gossip.all (fun v => decide (v.id ≠ u.id)) = false := by
    rw [List.all_eq_false]
    exact ⟨u, hu, by simp⟩
  simp only [stray, hspoken, Bool.and_false]

/-- The nodes that are not known after a datagram are those that it leaves alone. -/
theorem unknown_heard (ht : Tidy s) (now : Nat) (hself : msg.sender ≠ s.local_id) (id : NodeId) :
    (s.heard msg now).unknown id = s.stray msg id := by
  have hfollows := follows_heard ht msg now
  have hmeet := follows_spoken ht msg now
  have hall : ∀ v ∈ msg.gossip, v ∈ claims_of msg := fun v hv => List.mem_cons_of_mem _ hv
  have hmerge := follows_applies hmeet.tidy msg.gossip hall now (fun u => .of u msg.sender)
  by_cases hid : id = s.local_id
  · simp [unknown, stray, hid, hfollows.local_id]
  · cases hm : s.members[id]? with
    | some m =>
      obtain ⟨m', hm', -⟩ := hfollows.grown id m hm
      simp [unknown, stray, hm, hm']
    | none =>
      by_cases hsender : id = msg.sender
      · subst hsender
        obtain ⟨m, hmet⟩ := meet_holds (s := s.spoken msg) ht now hself
        obtain ⟨m', hm', -⟩ := hmerge.grown msg.sender m hmet
        have hheld : (s.heard msg now).members[msg.sender]? = some m' := hm'
        simp [unknown, stray, hheld]
      · by_cases hgossip : ∃ u ∈ msg.gossip, u.id = id
        · obtain ⟨u, hu, rfl⟩ := hgossip
          obtain ⟨m', hm'⟩ := applies_hold hmeet.tidy msg.gossip hall now
            (fun u => .of u msg.sender) hu (by rw [hmeet.local_id]; exact hid)
          have hheld : (s.heard msg now).members[u.id]? = some m' := hm'
          rw [stray_gossip s hu]
          simp only [unknown, hheld, Option.isNone_some, Bool.and_false]
        · have hnone : (s.heard msg now).members[id]? = none := by
            cases hheld : (s.heard msg now).members[id]? with
            | none => rfl
            | some m' =>
              obtain ⟨-, u, hu, huid, -⟩ := hfollows.born id m' hheld hm
              rcases List.mem_cons.mp hu with rfl | hu
              · exact absurd huid.symm hsender
              · exact absurd ⟨u, hu, huid⟩ hgossip
          have hspoken : msg.gossip.all (fun v => decide (v.id ≠ id)) = true := by
            rw [List.all_eq_true]
            intro v hv
            exact decide_eq_true (fun heq => hgossip ⟨v, hv, heq⟩)
          simp only [unknown, stray, hm, hnone, hspoken, hfollows.local_id]
          simp [hid, hsender]

/-- What is queued about unknown nodes after a datagram is what was queued about those that
it leaves alone. -/
theorem queued_heard (ht : Tidy s) (now : Nat) (hself : msg.sender ≠ s.local_id) :
    (s.heard msg now).queuedAbout (s.heard msg now).unknown = s.strays msg := by
  have hunknown : (s.heard msg now).unknown = s.stray msg := by
    funext id
    exact unknown_heard ht now hself id
  have hlocal : s.stray msg s.local_id = false := by simp [stray]
  have hsender : s.stray msg msg.sender = false := by simp [stray]
  have hgossip : ∀ u ∈ msg.gossip, s.stray msg u.id = false := fun u hu => stray_gossip s hu
  have hspoken : Undisturbed (s.stray msg) s (s.spoken msg) := .of_gossip rfl
  have hmeet := hspoken.trans (undisturbed_meet_sender (s.spoken msg) msg now hlocal hsender)
  have hmerge : Undisturbed (s.stray msg) ((s.spoken msg).meet_sender msg now)
      (s.heard msg now) := by
    refine undisturbed_applies _ msg.gossip now (fun u => .of u msg.sender) ?_ hgossip
    rw [(follows_spoken ht msg now).local_id]
    exact hlocal
  rw [hunknown]
  exact hmeet.trans hmerge

/-! ## The whole view -/

/-- Updates about different nodes are queued behind what is queued about others, in their
own order. -/
theorem gossip_enqueues (s : Swim) (us : List Update) (hn : (us.map Update.id).Nodup) :
    (us.foldl enqueue_gossip s).gossip =
      s.gossip.filter (fun g => decide (g.1.id ∉ us.map Update.id)) ++
        us.map (fun u => (u, s.transmit_limit)) := by
  induction us generalizing s with
  | nil => simp
  | cons u us ih =>
    rw [List.map_cons, List.nodup_cons] at hn
    rw [List.foldl_cons, ih _ hn.2]
    have hlimit : (s.enqueue_gossip u).transmit_limit = s.transmit_limit := rfl
    have hlast : [(u, s.transmit_limit)].filter (fun g => decide (g.1.id ∉ us.map Update.id)) =
        [(u, s.transmit_limit)] := by
      rw [List.filter_eq_self]
      intro g hg
      rw [List.mem_singleton.mp hg]
      exact decide_eq_true hn.1
    have hrest : (s.gossip.filter (fun g => decide (g.1.id ≠ u.id))).filter
        (fun g => decide (g.1.id ∉ us.map Update.id)) =
        s.gossip.filter (fun g => decide (g.1.id ∉ (u :: us).map Update.id)) := by
      rw [List.filter_filter]
      apply List.filter_congr
      intro g _
      by_cases hid : g.1.id = u.id
      · simp [hid]
      · simp [hid]
    rw [hlimit, enqueue_gossip, List.filter_append, hlast, hrest, List.append_assoc]
    rfl

/-- The claim that the view holds about a member. -/
def view_of (m : Member) : Update :=
  { id := m.id, addr := m.addr, peer_addr := m.peer_addr, incarnation := m.incarnation,
    generation := m.generation, state := m.state, failure_domain := m.failure_domain }

/-- The queue after the whole view: what is left about unknown nodes, then this node's own
claim, then the members. -/
theorem gossip_full_view (ht : Tidy s) (halone : Alone s) :
    s.gossip_full_state.gossip = s.queuedAbout s.unknown ++
      (s.self_update, s.transmit_limit) ::
        (s.values.map view_of).map (fun u => (u, s.transmit_limit)) := by
  have hids : (s.values.map view_of).map Update.id = s.members.toList.map Prod.fst := by
    rw [List.map_map, ← values_ids ht]
    rfl
  have hheld : ∀ id : NodeId, id ∈ (s.values.map view_of).map Update.id ↔
      ∃ m, s.members[id]? = some m := by
    intro id
    rw [hids, List.mem_map]
    constructor
    · rintro ⟨e, he, rfl⟩
      exact ⟨e.2, (BTreeMap.mem_toList _ _ _).mp he⟩
    · rintro ⟨m, hm⟩
      exact ⟨(id, m), (BTreeMap.mem_toList _ _ _).mpr hm, rfl⟩
  have hself : s.self_update.id ∉ (s.values.map view_of).map Update.id := by
    rw [hheld]
    rintro ⟨m, hm⟩
    cases hm.symm.trans halone
  have hnodup : ((s.self_update :: s.values.map view_of).map Update.id).Nodup := by
    rw [List.map_cons, List.nodup_cons]
    refine ⟨hself, ?_⟩
    rw [hids, List.nodup_iff_pairwise_ne, List.pairwise_map]
    exact s.members.toList_sorted.imp (fun h => ne_of_lt h)
  have hqueue := gossip_enqueues s (s.self_update :: s.values.map view_of) hnodup
  have hleft : s.gossip.filter (fun g => decide
      (g.1.id ∉ (s.self_update :: s.values.map view_of).map Update.id)) =
      s.queuedAbout s.unknown := by
    apply List.filter_congr
    intro g _
    rw [Bool.eq_iff_iff, decide_eq_true_eq, List.map_cons, List.mem_cons, hheld, unknown]
    cases hm : s.members[g.1.id]? with
    | none => simp [self_update]
    | some m => simp
  rw [hleft] at hqueue
  exact hqueue

/-! ## The answer to a `Join` -/

/-- A message carries this node's claim to be alive in its life, at its incarnation. -/
def CarriesOwnClaim (s : Swim) (msg : Message) : Prop :=
  ∃ u ∈ msg.gossip, u.id = s.local_id ∧ u.state = .Alive ∧ u.generation = s.generation ∧
    u.incarnation = s.incarnation

theorem queuedAbout_unknown {g : Update × Nat} (h : g ∈ s.queuedAbout s.unknown) :
    g.1.id ≠ s.local_id := by
  have hunknown := (List.mem_filter.mp h).2
  simp only [unknown, Bool.and_eq_true, decide_eq_true_eq] at hunknown
  exact hunknown.1

/-- What a message takes from the queue after the whole view has this node's own claim just
when what is left about unknown nodes is less than the fan-out. -/
theorem take_full_view (ht : Tidy s) (halone : Alone s) (fanout : Nat) :
    (∃ u ∈ (s.gossip_full_state.gossip.take fanout).map Prod.fst, u.id = s.local_id ∧
      u.state = .Alive ∧ u.generation = s.generation ∧ u.incarnation = s.incarnation) ↔
      (s.queuedAbout s.unknown).length < fanout := by
  rw [gossip_full_view ht halone]
  constructor
  · rintro ⟨u, hu, hid, -⟩
    by_contra hle
    rw [List.take_append_of_le_length (by omega)] at hu
    obtain ⟨g, hg, rfl⟩ := List.mem_map.mp hu
    exact queuedAbout_unknown (List.mem_of_mem_take hg) hid
  · intro hlt
    refine ⟨s.self_update, ?_, rfl, rfl, rfl, rfl⟩
    refine List.mem_map.mpr ⟨(s.self_update, s.transmit_limit), ?_, rfl⟩
    rw [List.take_append, List.mem_append]
    obtain ⟨k, hk⟩ : ∃ k, fanout - (s.queuedAbout s.unknown).length = k + 1 :=
      ⟨fanout - (s.queuedAbout s.unknown).length - 1, by omega⟩
    rw [hk, List.take_succ_cons]
    exact .inr (by simp)

/-- The view goes into the queue, and nothing else of the node changes. -/
theorem full_view_frame (s : Swim) : s.gossip_full_state.out = s.out ∧
    s.gossip_full_state.cfg = s.cfg ∧ s.gossip_full_state.local_id = s.local_id ∧
    s.gossip_full_state.generation = s.generation ∧
    s.gossip_full_state.incarnation = s.incarnation := by
  unfold gossip_full_state
  generalize (s.self_update :: s.values.map _ : List Update) = us
  have h : ∀ (us : List Update) (s : Swim), (us.foldl enqueue_gossip s).out = s.out ∧
      (us.foldl enqueue_gossip s).cfg = s.cfg ∧
      (us.foldl enqueue_gossip s).local_id = s.local_id ∧
      (us.foldl enqueue_gossip s).generation = s.generation ∧
      (us.foldl enqueue_gossip s).incarnation = s.incarnation := by
    intro us
    induction us with
    | nil => exact fun s => ⟨rfl, rfl, rfl, rfl, rfl⟩
    | cons u us ih => exact fun s => ih (s.enqueue_gossip u)
  exact h us s

theorem answer_join (ht : Tidy s) (halone : Alone s) (hjoin : msg.kind = .Join) (now : Nat) :
    ∃ sync, (s.answer msg now).out.getLast? = some (.Send msg.from_addr sync) ∧
      sync.kind = .Sync ∧
      (CarriesOwnClaim (s.answer msg now) sync ↔
        (s.queuedAbout s.unknown).length < s.cfg.gossip_fanout) := by
  obtain ⟨hout, hcfg, hlocal, hgen, hinc⟩ := full_view_frame s
  have hanswer : s.answer msg now = s.gossip_full_state.send_message msg.from_addr .Sync := by
    unfold answer
    rw [hjoin]
  refine ⟨s.gossip_full_state.plain_message .Sync
    ((s.gossip_full_state.gossip.take s.cfg.gossip_fanout).map Prod.fst), ?_, rfl, ?_⟩
  · rw [hanswer, ← hcfg]
    simp [send_message, take_gossip, push, plain_message]
  · rw [← take_full_view ht halone, hanswer, ← hlocal, ← hgen, ← hinc]
    rfl

/-- In every reachable state, the answer to a `Join` carries this node's own claim just when
less than the fan-out is queued about nodes that are neither this one nor held, and that the
`Join` neither comes from nor speaks of. -/
theorem sync_carries_own_claim_iff (local_id : NodeId) (local_addr local_peer_addr : String)
    (local_domain : Option String) (generation : Nat) (cfg : Config) (seeds : List String)
    (calls : List (Nat × Call)) (msg : Message) (now : Nat) (hjoin : msg.kind = .Join) :
    let s := (new local_id local_addr local_peer_addr local_domain generation cfg seeds).run calls
    msg.sender ≠ s.local_id →
      ∃ sync, (s.handle msg now).out.getLast? = some (.Send msg.from_addr sync) ∧
        sync.kind = .Sync ∧
        (CarriesOwnClaim (s.handle msg now) sync ↔ (s.strays msg).length < cfg.gossip_fanout) := by
  intro s hsender
  have ht : Tidy s := run_tidy (new_tidy _ _ _ _ _ _ _) calls
  have halone : Alone s := run_alone (new_tidy _ _ _ _ _ _ _) (new_alone _ _ _ _ _ _ _) calls
  have hfollows := follows_heard ht msg now
  have hheard : Alone (s.heard msg now) := alone_heard ht halone msg now
  have hcfg : (s.heard msg now).cfg = cfg := by
    have hcall : (s.call now (.Handle msg)).cfg = cfg :=
      (sound_call (parted_run (parted_new _ _ _ _ _ _ _) calls) now (.Handle msg)).same
    rw [show s.call now (.Handle msg) = s.handle msg now from rfl, handle_eq hsender,
      (mild_answer _ msg now).cfg] at hcall
    exact hcall
  rw [handle_eq hsender, ← queued_heard ht now hsender, ← hcfg]
  exact answer_join hfollows.tidy hheard hjoin now

/-- A node of the default configuration, with a fan-out of six. -/
def survivor : Swim := new "a" "10.0.0.1:1" "" none 1 {} []

def deadClaim (id addr : String) : Update :=
  { id, addr, incarnation := 0, generation := 1, state := .Dead }

/-- The last other node tells of five dead ones and leaves: there is nobody to gossip to. -/
def lastWords : Call :=
  .Handle { sender := "z", from_addr := "10.0.0.9:1", from_generation := 1, kind := .Sync,
            gossip := [deadClaim "u" "10.0.0.4:1", deadClaim "v" "10.0.0.5:1",
              deadClaim "w" "10.0.0.6:1", deadClaim "x" "10.0.0.7:1", deadClaim "y" "10.0.0.8:1",
              deadClaim "z" "10.0.0.9:1"] }

/-- The tombstones run out, and what is queued about the six nodes stays. -/
def untilAlone : List (Nat × Call) := [(0, .Tick), (1, lastWords), (1000, .Tick), (30001, .Tick)]

def newcomer : Message :=
  { sender := "n", from_addr := "10.0.0.10:1", from_generation := 1, kind := .Join, gossip := [] }

/-- The last action is a full `Sync` to the newcomer with no claim about `a`. -/
def lacksClaim (out : List Action) : Bool :=
  match out.getLast? with
  | some (.Send dest sync) => decide (dest = "10.0.0.10:1") && decide (sync.kind = .Sync) &&
      decide (sync.gossip.length = 6) && sync.gossip.all (fun u => decide (u.id ≠ "a"))
  | _ => false

/-- The last other node leaves with nothing to tell but that. -/
def farewell : Call :=
  .Handle { sender := "z", from_addr := "10.0.0.9:1", from_generation := 1, kind := .Sync,
            gossip := [deadClaim "z" "10.0.0.9:1"] }

def untilOneStray : List (Nat × Call) := [(0, .Tick), (1, farewell), (1000, .Tick), (30001, .Tick)]

/-- One pruned node is still in the queue, and the answer to the newcomer has room for more. -/
theorem sync_beside_a_stray_carries_the_claim :
    let s := survivor.run untilOneStray
    (s.strays newcomer).length = 1 ∧
      ∃ sync, (s.handle newcomer 30002).out.getLast? = some (.Send "10.0.0.10:1" sync) ∧
        sync.kind = .Sync ∧ CarriesOwnClaim (s.handle newcomer 30002) sync := by
  have hone : ((survivor.run untilOneStray).strays newcomer).length = 1 := by decide +kernel
  have hsender : newcomer.sender ≠ (survivor.run untilOneStray).local_id := by decide +kernel
  obtain ⟨sync, hlast, hkind, hiff⟩ := sync_carries_own_claim_iff "a" "10.0.0.1:1" "" none 1 {} []
    untilOneStray newcomer 30002 rfl hsender
  refine ⟨hone, sync, hlast, hkind, hiff.mpr ?_⟩
  rw [show new "a" "10.0.0.1:1" "" none 1 {} [] = survivor from rfl, hone]
  decide

/-- What is left of the six pruned nodes fills the answer to the newcomer's `Join`, and this
node's own claim is not in it. -/
theorem sync_of_a_survivor_lacks_its_claim :
    let s := survivor.run untilAlone
    0 < s.cfg.gossip_fanout ∧ newcomer.sender ≠ s.local_id ∧
      ∃ sync, (s.handle newcomer 30002).out.getLast? = some (.Send "10.0.0.10:1" sync) ∧
        sync.kind = .Sync ∧ sync.gossip.length = 6 ∧
        ¬ CarriesOwnClaim (s.handle newcomer 30002) sync := by
  have hlacks : lacksClaim ((survivor.run untilAlone).handle newcomer 30002).out = true := by
    decide +kernel
  refine ⟨by decide +kernel, by decide +kernel, ?_⟩
  unfold lacksClaim at hlacks
  split at hlacks
  · next dest sync hout =>
    simp only [Bool.and_eq_true, decide_eq_true_eq] at hlacks
    obtain ⟨⟨⟨rfl, hkind⟩, hlength⟩, hall⟩ := hlacks
    refine ⟨sync, hout, hkind, hlength, ?_⟩
    rintro ⟨u, hu, hid, -⟩
    have hne := of_decide_eq_true (List.all_eq_true.mp hall u hu)
    have hlocal : ((survivor.run untilAlone).handle newcomer 30002).local_id = "a" := by
      decide +kernel
    exact hne (hid.trans hlocal)
  · cases hlacks

end Swim

end mqtt_cluster.swim
