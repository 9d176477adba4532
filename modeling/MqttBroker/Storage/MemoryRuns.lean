-- The sessions in memory over whole runs of calls: each queue is in the order of its offsets
-- and within its bound, so that pages put together are the queue, an ack takes what it
-- names, and one client's calls leave the others alone.
import MqttBroker.Storage.MemoryStore

namespace mqtt_storage

open mqtt_core

inductive SessionCall
  | Ensure
  | Claim (owner : String)
  | SetSubscriptions (subscriptions : List Subscription)
  | Enqueue (message : Message) (expiry_at : Option U64) (origin : Option PublishOrigin)
  | Ack (up_to : Nat)
  | RecordReceived (packet_id : U16)
  | AckReceived (packet_id : U16)
  | ClearReceived (packet_id : U16)
  | RecordOutbound (packet_id : U16) (offset : Nat)
  | AdvanceOutbound (packet_id : U16)
  | ClearOutbound (packet_id : U16)
  | NextPacketId
  | ReservePacketIds (count : U16)
  | Remove
  | SetExpiry (deadline : Option U64)
  | SetLifetime (interval : U32) (deadline : Option U64)

/-- The queue is in order and bounded, and only what was received waits for its ack. -/
structure SessionEntry.Sound (limits : QueueLimits) (e : SessionEntry) : Prop where
  sorted : e.queue.Pairwise (fun a b => a.offset < b.offset)
  offset_le : ∀ m ∈ e.queue, m.offset ≤ e.next_offset
  length_le : e.queue.length ≤ limits.cap
  unacked : ∀ id ∈ e.unacked_qos2, id ∈ e.received_qos2

namespace MemorySessionStore

def step (s : MemorySessionStore) (client : String) : SessionCall → MemorySessionStore
  | .Ensure => (s.ensure_session client).2
  | .Claim owner => (s.claim_session client owner).2
  | .SetSubscriptions subscriptions => s.set_subscriptions client subscriptions
  | .Enqueue message expiry_at origin => (s.enqueue_tagged client message expiry_at origin).2
  | .Ack up_to => (s.ack client up_to).2
  | .RecordReceived packet_id => (s.record_received client packet_id).2
  | .AckReceived packet_id => s.ack_received client packet_id
  | .ClearReceived packet_id => s.clear_received client packet_id
  | .RecordOutbound packet_id offset => s.record_outbound client packet_id offset
  | .AdvanceOutbound packet_id => s.advance_outbound client packet_id
  | .ClearOutbound packet_id => s.clear_outbound client packet_id
  | .NextPacketId => (s.next_packet_id client).2
  | .ReservePacketIds count => (s.reserve_packet_ids client count).2
  | .Remove => s.remove client
  | .SetExpiry deadline => s.set_session_expiry client deadline
  | .SetLifetime interval deadline => s.set_session_lifetime client interval deadline

def run (s : MemorySessionStore) (calls : List (String × SessionCall)) : MemorySessionStore :=
  calls.foldl (fun s call => s.step call.1 call.2) s

variable {s : MemorySessionStore} {client : String} {e : SessionEntry} {limits : QueueLimits}

theorem sound_empty (owner : Option String) : SessionEntry.Sound limits { owner } :=
  ⟨List.Pairwise.nil, by simp, Nat.zero_le _, by simp⟩

theorem sound_enqueue (h : e.Sound limits) {m : QueuedMessage} (hm : m.offset = e.next_offset + 1) :
    SessionEntry.Sound limits { e with
      next_offset := e.next_offset + 1
      queue := e.queue.drop (e.queue.length + 1 - limits.cap) ++ [m] } := by
  have hcap : 1 ≤ limits.cap := Nat.le_max_right _ _
  have hold : ∀ x ∈ e.queue.drop (e.queue.length + 1 - limits.cap), x.offset ≤ e.next_offset :=
    fun x hx => h.offset_le x (List.mem_of_mem_drop hx)
  refine ⟨List.pairwise_append.mpr ⟨h.sorted.drop, List.pairwise_singleton _ _, ?_⟩, ?_, ?_,
    h.unacked⟩
  · intro x hx y hy
    rw [List.mem_singleton.mp hy, hm]
    exact Nat.lt_succ_of_le (hold x hx)
  · intro x hx
    rcases List.mem_append.mp hx with hx | hx
    · exact Nat.le_succ_of_le (hold x hx)
    · rw [List.mem_singleton.mp hx, hm]
  · have hlen := h.length_le
    simp only [List.length_append, List.length_drop, List.length_singleton]
    omega

theorem step_cases (s : MemorySessionStore) (client : String) (call : SessionCall) :
    s.step client call = s ∨ s.step client call = s.remove client ∨
      ∃ e, s.step client call = s.put client e ∧
        ((s.entry client).Sound s.limits → e.Sound s.limits) := by
  have hheld {f : SessionEntry → SessionEntry} {t : MemorySessionStore}
      (hnone : s.sessions[client]? = none → t = s)
      (hsome : ∀ e, s.sessions[client]? = some e → t = s.put client (f e))
      (hf : ∀ e, e.Sound s.limits → (f e).Sound s.limits) :
      t = s ∨ t = s.remove client ∨
        ∃ e, t = s.put client e ∧ ((s.entry client).Sound s.limits → e.Sound s.limits) := by
    rcases hget : s.sessions[client]? with _ | e
    · exact .inl (hnone hget)
    · refine .inr (.inr ⟨f e, hsome e hget, ?_⟩)
      rw [entry_of_get s client hget]
      exact hf e
  have hmodify (f : SessionEntry → SessionEntry)
      (hf : ∀ e, e.Sound s.limits → (f e).Sound s.limits) :
      s.modify client f = s ∨ s.modify client f = s.remove client ∨ ∃ e,
        s.modify client f = s.put client e ∧ ((s.entry client).Sound s.limits → e.Sound s.limits) :=
    hheld (fun hget => by unfold modify; rw [hget]) (fun e hget => modify_of_get s client hget f) hf
  cases call with
  | Ensure => exact .inr (.inr ⟨_, rfl, id⟩)
  | Claim owner =>
    simp only [step, claim_session]
    split
    · exact .inr (.inr ⟨_, rfl, fun _ => sound_empty (some owner)⟩)
    · rename_i e hget
      split
      · refine .inr (.inr ⟨_, rfl, ?_⟩)
        rw [entry_of_get s client hget]
        exact fun h => ⟨h.sorted, h.offset_le, h.length_le, h.unacked⟩
      · split <;> exact .inl rfl
  | SetSubscriptions _ | RecordOutbound _ _ | NextPacketId =>
    exact .inr (.inr ⟨_, rfl, fun h => ⟨h.sorted, h.offset_le, h.length_le, h.unacked⟩⟩)
  | Enqueue message expiry_at origin =>
    simp only [step, enqueue_tagged]
    split
    · exact .inr (.inr ⟨_, rfl, id⟩)
    · exact .inr (.inr ⟨_, rfl, fun h => sound_enqueue h rfl⟩)
  | Ack up_to =>
    refine hheld (f := fun e => { e with
      queue := e.queue.dropWhile fun m => decide (m.offset ≤ up_to) })
      (fun hget => by simp only [step, ack, hget]) (fun e hget => by simp only [step, ack, hget]) ?_
    intro e h
    have hsub := List.dropWhile_sublist (l := e.queue) fun m => decide (m.offset ≤ up_to)
    exact ⟨h.sorted.sublist hsub, fun m hm => h.offset_le m (hsub.mem hm),
      hsub.length_le.trans h.length_le, h.unacked⟩
  | ReservePacketIds count =>
    exact hheld (f := fun e => { e with last_packet_id := e.last_packet_id + count })
      (fun hget => by simp only [step, reserve_packet_ids, hget])
      (fun e hget => by simp only [step, reserve_packet_ids, hget])
      fun e h => ⟨h.sorted, h.offset_le, h.length_le, h.unacked⟩
  | RecordReceived packet_id =>
    simp only [step, record_received]
    split
    · exact .inr (.inr ⟨_, rfl, id⟩)
    · refine .inr (.inr ⟨_, rfl, fun h => ⟨h.sorted, h.offset_le, h.length_le, fun id hid => ?_⟩⟩)
      exact (BTreeSet.mem_insert _ _ _).mpr
        (((BTreeSet.mem_insert _ _ _).mp hid).imp_right (h.unacked id))
  | AckReceived packet_id =>
    exact hmodify _ fun e h => ⟨h.sorted, h.offset_le, h.length_le, fun id hid =>
      h.unacked id ((BTreeSet.mem_erase _ _ _).mp hid).2⟩
  | ClearReceived packet_id =>
    exact hmodify _ fun e h => ⟨h.sorted, h.offset_le, h.length_le, fun id hid =>
      (BTreeSet.mem_erase _ _ _).mpr (((BTreeSet.mem_erase _ _ _).mp hid).imp_right (h.unacked id))⟩
  | Remove => exact .inr (.inl rfl)
  | AdvanceOutbound _ | ClearOutbound _ | SetExpiry _ | SetLifetime _ _ =>
    exact hmodify _ fun e h => ⟨h.sorted, h.offset_le, h.length_le, h.unacked⟩

theorem get_step (s : MemorySessionStore) (call : SessionCall) {other : String}
    (hne : client ≠ other) : (s.step client call).sessions[other]? = s.sessions[other]? := by
  rcases step_cases s client call with h | h | ⟨e, h, -⟩ <;> rw [h]
  · exact (BTreeMap.get_erase _ _ _).trans (if_neg hne)
  · exact (get_put s client e other).trans (if_neg hne)

theorem sound_step (h : ∀ c, (s.entry c).Sound s.limits) (call : SessionCall) (c : String) :
    ((s.step client call).entry c).Sound s.limits := by
  by_cases hne : client = c
  · subst hne
    rcases step_cases s client call with heq | heq | ⟨e, heq, he⟩ <;> rw [heq]
    · exact h client
    · have hget : (s.remove client).sessions[client]? = none :=
        (BTreeMap.get_erase _ _ _).trans (if_pos rfl)
      rw [entry, hget]
      exact sound_empty none
    · rw [entry_of_get _ _ ((get_put s client e client).trans (if_pos rfl))]
      exact he (h client)
  · have hframe := get_step s call hne
    rw [entry, hframe]
    exact h c

theorem limits_step (s : MemorySessionStore) (client : String) (call : SessionCall) :
    (s.step client call).limits = s.limits := by
  rcases step_cases s client call with h | h | ⟨e, h, -⟩ <;> rw [h] <;> rfl

theorem sound_run (calls : List (String × SessionCall)) (h : ∀ c, (s.entry c).Sound s.limits) :
    ∀ c, ((s.run calls).entry c).Sound s.limits := by
  induction calls generalizing s with
  | nil => exact h
  | cons call calls ih =>
    have hlimits := limits_step s call.1 call.2
    rw [← hlimits]
    exact ih fun c => hlimits ▸ sound_step h call.2 c

/-! ## Pages and acks -/

theorem filter_behind {l : List QueuedMessage} (hsorted : l.Pairwise (fun a b => a.offset < b.offset))
    {n : Nat} {last : QueuedMessage} (hlast : (l.take n).getLast? = some last) :
    l.filter (fun m => decide (last.offset < m.offset)) = l.drop n := by
  obtain ⟨front, hfront⟩ := List.getLast?_eq_some_iff.mp hlast
  rw [← List.take_append_drop n l] at hsorted
  obtain ⟨hpage, -, hbehind⟩ := List.pairwise_append.mp hsorted
  rw [hfront] at hpage
  have hmem : last ∈ l.take n := hfront ▸ List.mem_append_right _ List.mem_cons_self
  have htake : (l.take n).filter (fun m => decide (last.offset < m.offset)) = [] := by
    rw [hfront, List.filter_eq_nil_iff]
    intro x hx
    rcases List.mem_append.mp hx with hx | hx
    · have hlt := (List.pairwise_append.mp hpage).2.2 x hx last List.mem_cons_self
      simpa using Nat.le_of_lt hlt
    · simp [List.mem_singleton.mp hx]
  have hdrop : (l.drop n).filter (fun m => decide (last.offset < m.offset)) = l.drop n :=
    List.filter_eq_self.mpr fun x hx => decide_eq_true (hbehind last hmem x hx)
  calc l.filter (fun m => decide (last.offset < m.offset))
      = (l.take n ++ l.drop n).filter (fun m => decide (last.offset < m.offset)) := by
        rw [List.take_append_drop]
    _ = l.drop n := by rw [List.filter_append, htake, hdrop, List.nil_append]

theorem pending_append (h : (s.entry client).Sound limits) {after n : Nat} {last : QueuedMessage}
    (hlast : (s.pending client after n).getLast? = some last) (m : Nat) :
    s.pending client after n ++ s.pending client last.offset m = s.pending client after (n + m) := by
  unfold pending at hlast ⊢
  have hafter : after < last.offset := by
    have hmem := List.mem_of_mem_take (List.mem_of_getLast? hlast)
    exact of_decide_eq_true (List.mem_filter.mp hmem).2
  have hrest := filter_behind (h.sorted.filter _) hlast
  rw [List.filter_filter] at hrest
  have hboth : (fun x : QueuedMessage => decide (last.offset < x.offset) && decide (after < x.offset)) =
      fun x => decide (last.offset < x.offset) := by
    funext x
    rw [← Bool.decide_and, decide_eq_decide]
    omega
  rw [hboth] at hrest
  rw [hrest, List.take_add]

theorem dropWhile_acked {l : List QueuedMessage}
    (hsorted : l.Pairwise (fun a b => a.offset < b.offset)) (up_to : Nat) :
    l.dropWhile (fun m => decide (m.offset ≤ up_to)) = l.filter fun m => decide (up_to < m.offset) := by
  induction l with
  | nil => rfl
  | cons m l ih =>
    obtain ⟨hm, hl⟩ := List.pairwise_cons.mp hsorted
    by_cases hle : m.offset ≤ up_to
    · rw [List.dropWhile_cons_of_pos (by simpa using hle), ih hl,
        List.filter_cons_of_neg (by simpa using hle)]
    · rw [List.dropWhile_cons_of_neg (by simpa using hle), eq_comm, List.filter_eq_self]
      intro x hx
      rcases List.mem_cons.mp hx with rfl | hx
      · exact decide_eq_true (Nat.not_le.mp hle)
      · exact decide_eq_true (Nat.lt_trans (Nat.not_le.mp hle) (hm x hx))

theorem pending_ack (h : (s.entry client).Sound limits) (up_to after n : Nat) :
    (s.ack client up_to).2.pending client after n = s.pending client (max after up_to) n := by
  unfold ack pending
  rcases hget : s.sessions[client]? with _ | e
  · simp [entry, hget]
  · rw [entry_of_get s client hget] at h ⊢
    rw [entry_of_get _ _ ((get_put s client _ client).trans (if_pos rfl)),
      dropWhile_acked h.sorted, List.filter_filter]
    simp only [← Bool.decide_and, max_lt_iff]

/-- After every run of calls each session's queue is in the order of its offsets and within its
bound, and waits for the acks of received packets only. Pages read one behind the other are the
queue, an ack takes what it names out of every page, and no call touches another client. -/
theorem every_session_is_in_order (limits : QueueLimits) (calls : List (String × SessionCall))
    (client : String) :
    let s := run { limits } calls
    (s.entry client).Sound limits ∧
    (∀ after n last, (s.pending client after n).getLast? = some last → ∀ m,
      s.pending client after n ++ s.pending client last.offset m =
        s.pending client after (n + m)) ∧
    (∀ up_to after n, (s.ack client up_to).2.pending client after n =
      s.pending client (max after up_to) n) ∧
    ∀ other call, other ≠ client → (s.step other call).sessions[client]? = s.sessions[client]? := by
  intro s
  have hsound : (s.entry client).Sound limits := by
    refine sound_run (s := { limits }) calls (fun c => ?_) client
    simp only [entry, BTreeMap.get_empty]
    exact sound_empty none
  exact ⟨hsound, fun _ _ _ hlast => pending_append hsound hlast, pending_ack hsound,
    fun _ call hne => get_step s call hne⟩

end MemorySessionStore

end mqtt_storage
