-- A session is restored whole or not at all while no call fails once the store holds it, but
-- with an error that ends the restore. A failure after the first call that is tried again
-- leaves a part of the session, which the next attempt takes for a session restored before.
import MqttBroker.Backup.Apply

namespace mqttd.backup

open mqtt_core mqtt_storage

/-! ## Pre- and postconditions of a piece of the import -/

/-- A call that fails with an error after which the restore goes on fails only where the store
does not hold the client, and has then no effect. -/
def Made.Fine (m : Made) : Prop :=
  ∀ e applied, m.failed = some (e, applied) → e.is_transient = true →
    m.held = false ∧ applied = false

def World.Fine (w : World) : Prop := ∀ m ∈ w.made, m.Fine

def World.Holds (w : World) (limits : QueueLimits) (client : String) (e : Option SessionEntry) :
    Prop :=
  w.store.limits = limits ∧ w.store.sessions[client]? = e

/-- A piece of the restore that writes for one client only. -/
structure OnlyFor {ρ : Type} (client : String) (m : World → ρ × World) : Prop where
  grows : ∀ w, ∃ new, (m w).2.made = new ++ w.made
  others : ∀ w c, c ≠ client → (m w).2.store.sessions[c]? = w.store.sessions[c]?
  limits : ∀ w, (m w).2.store.limits = w.store.limits

/-- From an entry with the precondition, and while no call fails that is tried again, the piece
ends in an entry with the postcondition, or with an error that ends the restore. -/
structure Triple {α : Type} (limits : QueueLimits) (client : String) (P : SessionEntry → Prop)
    (m : Import α) (Q : α → SessionEntry → Prop) : Prop where
  only : OnlyFor client m
  runs : ∀ w e, w.Holds limits client (some e) → P e → (m w).2.Fine →
    (∃ a e', (m w).1 = .ok a ∧ (m w).2.Holds limits client (some e') ∧ Q a e') ∨
      ∃ err, (m w).1 = .error err ∧ err.is_transient = false

section rules
variable {α β : Type} {limits : QueueLimits} {client : String} {P : SessionEntry → Prop}

theorem OnlyFor.fine {ρ : Type} {m : World → ρ × World} (h : OnlyFor client m) {w : World} (hf : (m w).2.Fine) :
    w.Fine := by
  obtain ⟨new, hnew⟩ := h.grows w
  intro x hx
  exact hf x (by rw [hnew]; exact List.mem_append_right _ hx)

theorem only_pure (a : α) : OnlyFor client (pure a : Import α) :=
  ⟨fun _ => ⟨[], rfl⟩, fun _ _ _ => rfl, fun _ => rfl⟩

theorem only_throw (e : StorageError) : OnlyFor client (Import.throw e : Import α) :=
  ⟨fun _ => ⟨[], rfl⟩, fun _ _ _ => rfl, fun _ => rfl⟩

theorem bind_eq (m : Import α) (f : α → Import β) (w : World) :
    (m >>= f) w = match m w with
      | (.ok a, w') => f a w'
      | (.error e, w') => (.error e, w') := rfl

variable {m : Import α}

theorem only_bind {f : α → Import β} (hm : OnlyFor client m) (hf : ∀ a, OnlyFor client (f a)) :
    OnlyFor client (m >>= f) := by
  refine ⟨?_, ?_, ?_⟩
  · intro w
    obtain ⟨new, hnew⟩ := hm.grows w
    rw [bind_eq]
    rcases hmw : m w with ⟨_ | a, w'⟩
    · rw [hmw] at hnew
      exact ⟨new, hnew⟩
    · rw [hmw] at hnew
      obtain ⟨new', hnew'⟩ := (hf a).grows w'
      refine ⟨new' ++ new, ?_⟩
      rw [List.append_assoc, ← hnew]
      exact hnew'
  · intro w c hc
    have hothers := hm.others w c hc
    rw [bind_eq]
    rcases hmw : m w with ⟨_ | a, w'⟩
    · rw [hmw] at hothers
      exact hothers
    · rw [hmw] at hothers
      exact ((hf a).others w' c hc).trans hothers
  · intro w
    have hlimits := hm.limits w
    rw [bind_eq]
    rcases hmw : m w with ⟨_ | a, w'⟩
    · rw [hmw] at hlimits
      exact hlimits
    · rw [hmw] at hlimits
      exact ((hf a).limits w').trans hlimits

variable {Q : α → SessionEntry → Prop}

theorem triple_pure (a : α) (h : ∀ e, P e → Q a e) : Triple limits client P (pure a) Q :=
  ⟨only_pure a, fun _ e hw he _ => .inl ⟨a, e, rfl, hw, h e he⟩⟩

theorem triple_throw (message : String) :
    Triple limits client P (Import.throw (.Backend message)) Q :=
  ⟨only_throw _, fun _ _ _ _ _ => .inr ⟨_, rfl, rfl⟩⟩

theorem triple_bind {f : α → Import β} {R : β → SessionEntry → Prop}
    (hm : Triple limits client P m Q) (hf : ∀ a, Triple limits client (Q a) (f a) R) :
    Triple limits client P (m >>= f) R := by
  refine ⟨only_bind hm.only (fun a => (hf a).only), ?_⟩
  intro w e hw he hfine
  rw [bind_eq] at hfine ⊢
  have hruns := hm.runs w e hw he
  rcases hmw : m w with ⟨err | a, w'⟩
  · rw [hmw] at hruns hfine
    rcases hruns hfine with ⟨a, -, ha, -⟩ | ⟨err', herr, hends⟩
    · cases ha
    · cases herr
      exact .inr ⟨err, rfl, hends⟩
  · rw [hmw] at hruns hfine
    rcases hruns ((hf a).only.fine hfine) with ⟨a', e', ha, hw', hq⟩ | ⟨err, herr, -⟩
    · cases ha
      exact (hf a).runs w' e' hw' hq hfine
    · cases herr

theorem triple_pre {P' : SessionEntry → Prop} (h : Triple limits client P m Q)
    (hp : ∀ e, P' e → P e) : Triple limits client P' m Q :=
  ⟨h.only, fun w e hw he hf => h.runs w e hw (hp e he) hf⟩

theorem triple_post {R : α → SessionEntry → Prop} (h : Triple limits client P m Q)
    (hr : ∀ a e, Q a e → R a e) : Triple limits client P m R := by
  refine ⟨h.only, ?_⟩
  intro w e hw he hfine
  rcases h.runs w e hw he hfine with ⟨a, e', ha, hw', hq⟩ | herror
  · exact .inl ⟨a, e', ha, hw', hr a e' hq⟩
  · exact .inr herror

/-- What is fixed before a piece is fixed after it. -/
theorem triple_exists {γ : Type} [Nonempty γ] {P : γ → SessionEntry → Prop}
    {Q : γ → α → SessionEntry → Prop} (h : ∀ c, Triple limits client (P c) m (Q c)) :
    Triple limits client (fun e => ∃ c, P c e) m (fun a e => ∃ c, Q c a e) := by
  obtain ⟨c₀⟩ := ‹Nonempty γ›
  refine ⟨(h c₀).only, ?_⟩
  rintro w e hw ⟨c, hp⟩ hfine
  rcases (h c).runs w e hw hp hfine with ⟨a, e', ha, hw', hq⟩ | herror
  · exact .inl ⟨a, e', ha, hw', c, hq⟩
  · exact .inr herror

theorem triple_and {R : Prop} (h : Triple limits client P m Q) :
    Triple limits client (fun e => R ∧ P e) m (fun a e => R ∧ Q a e) := by
  refine ⟨h.only, ?_⟩
  rintro w e hw ⟨hr, hp⟩ hfine
  rcases h.runs w e hw hp hfine with ⟨a, e', ha, hw', hq⟩ | herror
  · exact .inl ⟨a, e', ha, hw', hr, hq⟩
  · exact .inr herror

/-- A loop keeps an invariant of what it has gone through. -/
theorem triple_foldlM {f : β → α → Import β} {l : List α} {I : List α → β → SessionEntry → Prop}
    (hf : ∀ done x rest b, l = done ++ x :: rest →
      Triple limits client (I done b) (f b x) (I (done ++ [x]))) (b : β) :
    Triple limits client (I [] b) (l.foldlM f b) (I l) := by
  have hfrom : ∀ rest done b, l = done ++ rest →
      Triple limits client (I done b) (rest.foldlM f b) (I l) := by
    intro rest
    induction rest with
    | nil =>
      intro done b hl
      rw [List.append_nil] at hl
      subst hl
      exact triple_pure b (fun _ h => h)
    | cons x rest ih =>
      intro done b hl
      rw [List.foldlM_cons]
      refine triple_bind (hf done x rest b hl) (fun b' => ?_)
      exact ih (done ++ [x]) b' (by rw [hl, List.append_assoc, List.singleton_append])
  exact hfrom l [] b rfl

/-- What a call does to the entry of its client, and to no other. -/
structure Writes (limits : QueueLimits) (client : String)
    (f : MemorySessionStore → α × MemorySessionStore) (P : SessionEntry → Prop)
    (Q : α → SessionEntry → Prop) : Prop where
  others : ∀ s c, c ≠ client → (f s).2.sessions[c]? = s.sessions[c]?
  same_limits : ∀ s, (f s).2.limits = s.limits
  writes : ∀ s e, s.limits = limits → s.sessions[client]? = some e → P e →
    ∃ e', (f s).2.sessions[client]? = some e' ∧ Q (f s).1 e'

variable {f : MemorySessionStore → α × MemorySessionStore}

theorem only_call (answers : Nat → Option (StorageError × Bool))
    (hothers : ∀ s c, c ≠ client → (f s).2.sessions[c]? = s.sessions[c]?)
    (hlimits : ∀ s, (f s).2.limits = s.limits) : OnlyFor client (call answers client f) := by
  refine ⟨?_, ?_, ?_⟩
  · intro w
    refine ⟨[⟨client, w.store.sessions[client]?.isSome, answers w.made.length⟩], ?_⟩
    unfold call
    dsimp only
    rcases answers w.made.length with _ | ⟨e, applied⟩
    · rfl
    · rfl
  · intro w c hc
    unfold call
    dsimp only
    rcases answers w.made.length with _ | ⟨e, applied⟩
    · exact hothers _ c hc
    · cases applied
      · rfl
      · exact hothers _ c hc
  · intro w
    unfold call
    dsimp only
    rcases answers w.made.length with _ | ⟨e, applied⟩
    · exact hlimits _
    · cases applied
      · rfl
      · exact hlimits _

theorem triple_call (answers : Nat → Option (StorageError × Bool))
    (h : Writes limits client f P Q) : Triple limits client P (call answers client f) Q := by
  refine ⟨only_call answers h.others h.same_limits, ?_⟩
  intro w e hw he hfine
  unfold call at hfine ⊢
  dsimp only at hfine ⊢
  rcases hans : answers w.made.length with _ | ⟨err, applied⟩
  · obtain ⟨e', he', hq⟩ := h.writes w.store e hw.1 hw.2 he
    exact .inl ⟨_, e', rfl, ⟨(h.same_limits _).trans hw.1, he'⟩, hq⟩
  · -- The store holds the client, so that the call was not to fail and be tried again.
    rw [hans] at hfine
    refine .inr ⟨err, rfl, ?_⟩
    by_contra hagain
    have hbad := hfine _ List.mem_cons_self err applied rfl (by simpa using hagain)
    simp [hw.2] at hbad

end rules

/-! ## What each call writes -/

section writes
variable {α : Type} {limits : QueueLimits} {client : String} {P : SessionEntry → Prop}

theorem writes_put {f : MemorySessionStore → α × MemorySessionStore}
    {g : SessionEntry → SessionEntry} {Q : α → SessionEntry → Prop}
    (hothers : ∀ s c, c ≠ client → (f s).2.sessions[c]? = s.sessions[c]?)
    (hlimits : ∀ s, (f s).2.limits = s.limits)
    (hput : ∀ s e, s.limits = limits → s.sessions[client]? = some e → P e →
      (f s).2 = s.put client (g e) ∧ Q (f s).1 (g e)) : Writes limits client f P Q := by
  refine ⟨hothers, hlimits, ?_⟩
  intro s e hs he hp
  obtain ⟨hf, hq⟩ := hput s e hs he hp
  exact ⟨g e, by rw [hf]; simp, hq⟩

variable (s : MemorySessionStore) (answers : Nat → Option (StorageError × Bool))

theorem put_other (e : SessionEntry) {c : String} (hc : c ≠ client) :
    (s.put client e).sessions[c]? = s.sessions[c]? := by
  simp [Ne.symm hc]

theorem modify_other (f : SessionEntry → SessionEntry) {c : String} (hc : c ≠ client) :
    (s.modify client f).sessions[c]? = s.sessions[c]? := by
  unfold MemorySessionStore.modify
  split
  · exact put_other s _ hc
  · rfl

theorem modify_limits (f : SessionEntry → SessionEntry) :
    (s.modify client f).limits = s.limits := by
  unfold MemorySessionStore.modify
  split
  · rfl
  · rfl

theorem triple_call_ {f : MemorySessionStore → MemorySessionStore}
    {g : SessionEntry → SessionEntry} {Q : Unit → SessionEntry → Prop}
    (hothers : ∀ s c, c ≠ client → (f s).sessions[c]? = s.sessions[c]?)
    (hlimits : ∀ s, (f s).limits = s.limits)
    (hput : ∀ s e, s.sessions[client]? = some e → f s = s.put client (g e))
    (hq : ∀ e, P e → Q () (g e)) : Triple limits client P (call_ answers client f) Q :=
  triple_call answers (writes_put hothers hlimits
    (fun s e _ he hp => ⟨hput s e he, hq e hp⟩))

theorem triple_put (g : SessionEntry → SessionEntry) {Q : Unit → SessionEntry → Prop}
    (hq : ∀ e, P e → Q () (g e)) :
    Triple limits client P (call_ answers client fun s => s.put client (g (s.entry client))) Q := by
  refine triple_call_ answers (fun s c hc => put_other s _ hc) (fun s => rfl) ?_ hq
  intro s e he
  rw [s.entry_of_get client he]

theorem triple_modify (g : SessionEntry → SessionEntry) {Q : Unit → SessionEntry → Prop}
    (hq : ∀ e, P e → Q () (g e)) :
    Triple limits client P (call_ answers client fun s => s.modify client g) Q :=
  triple_call_ answers (fun s _ hc => modify_other s g hc) (fun s => modify_limits s g)
    (fun s _ he => s.modify_of_get client he g) hq

end writes

/-! ## The whole of a session -/

/-- What a record's queue becomes: the messages in order, each at its place. -/
def QueueOf (queue : List QueuedRecord) (stored : List QueuedMessage) : Prop :=
  List.Forall₂ (fun q m => queued_message q = .ok m.message ∧ m.expiry_at = q.expiry_at) queue stored

/-- The delivery in flight names the message that it named, or no message. -/
def Refers (record : SessionRecord) (stored : List QueuedMessage) (x : OutboundRecord)
    (offset : Nat) : Prop :=
  (∃ (i : Nat) (q : QueuedRecord) (m : QueuedMessage), record.queue[i]? = some q ∧
    q.offset = x.offset ∧ stored[i]? = some m ∧ m.offset = offset) ∨
  ((∀ q ∈ record.queue, q.offset ≠ x.offset) ∧ ∀ m ∈ stored, m.offset ≠ offset)

structure Whole (record : SessionRecord) (e : SessionEntry) : Prop where
  owner : e.owner = record.owner
  subscriptions : e.subscriptions = record.subscriptions.map subscription_of
  expiry : e.session_expiry_at = record.session_expiry_at
  queue : QueueOf record.queue e.queue
  received : ∀ id, id ∈ e.received_qos2 ↔ ∃ x ∈ record.received_qos2, x.packet_id = id
  unacked : ∀ id, id ∈ e.unacked_qos2 ↔ (∃ x ∈ record.received_qos2, x.packet_id = id) ∧
    ∀ x ∈ record.received_qos2, x.packet_id = id → x.acked = false
  outbound_none : ∀ id : U16, e.outbound_qos2[id]? = none ↔
    ∀ x ∈ record.outbound_qos2, x.packet_id ≠ id
  outbound : ∀ (id : U16) offset seen, e.outbound_qos2[id]? = some (offset, seen) →
    ∃ x, (record.outbound_qos2.filter fun x => x.packet_id = id).getLast? = some x ∧
      x.pubrec_seen = seen ∧ Refers record e.queue x offset
  last_packet_id : e.last_packet_id = record.last_packet_id

/-- The parts of a session that are there so far. -/
def filled (record : SessionRecord) (queue : List QueuedMessage)
    (received unacked : BTreeSet U16) (outbound : BTreeMap U16 (Nat × Bool)) (last : U16) :
    SessionEntry where
  subscriptions := record.subscriptions.map subscription_of
  queue := queue
  next_offset := queue.length
  received_qos2 := received
  unacked_qos2 := unacked
  outbound_qos2 := outbound
  last_packet_id := last
  session_expiry_at := record.session_expiry_at
  owner := record.owner

section session
variable {answers : Nat → Option (StorageError × Bool)} {limits : QueueLimits}
  {record : SessionRecord}

/-- The messages that were queued, with the offsets they got. -/
structure QueuedSo (done : List QueuedRecord) (offsets : BTreeMap Nat Nat)
    (stored : List QueuedMessage) : Prop where
  queue : QueueOf done stored
  numbered : ∀ (i : Nat) m, stored[i]? = some m → m.offset = i + 1
  none_of : ∀ k : Nat, offsets[k]? = none → ∀ q ∈ done, q.offset ≠ k
  some_of : ∀ k o : Nat, offsets[k]? = some o →
    ∃ (i : Nat) (q : QueuedRecord), done[i]? = some q ∧ q.offset = k ∧ o = i + 1

theorem queued_none : QueuedSo [] ∅ [] := by
  refine ⟨List.Forall₂.nil, ?_, ?_, ?_⟩
  · simp
  · simp
  · simp

variable {offsets : BTreeMap Nat Nat} {stored : List QueuedMessage} {q : QueuedRecord}

theorem queued_more {done : List QueuedRecord} (h : QueuedSo done offsets stored)
    {message : Message} (hm : queued_message q = .ok message) :
    QueuedSo (done ++ [q]) (offsets.insert q.offset (stored.length + 1))
      (stored ++ [⟨stored.length + 1, message, q.expiry_at, none⟩]) := by
  have hlen := h.queue.length_eq
  refine ⟨?_, ?_, ?_, ?_⟩
  · exact List.rel_append h.queue (List.Forall₂.cons ⟨hm, rfl⟩ List.Forall₂.nil)
  · intro i m hi
    rw [List.getElem?_append] at hi
    split at hi
    · exact h.numbered i m hi
    · rename_i hge
      cases hk : i - stored.length with
      | zero =>
        simp only [hk, List.getElem?_cons_zero, Option.some.injEq] at hi
        rw [← hi]
        show stored.length + 1 = i + 1
        omega
      | succ k => simp [hk] at hi
  · intro k hk x hx
    rw [BTreeMap.get_insert] at hk
    split at hk
    · cases hk
    · rename_i hne
      rcases List.mem_append.mp hx with hx | hx
      · exact h.none_of k hk x hx
      · rw [List.mem_singleton] at hx
        exact hx ▸ hne
  · intro k o hk
    rw [BTreeMap.get_insert] at hk
    split at hk
    · rename_i heq
      cases hk
      exact ⟨done.length, q, by simp, heq, by rw [hlen]⟩
    · obtain ⟨i, x, hi, hx, ho⟩ := h.some_of k o hk
      have hlt := (List.getElem?_eq_some_iff.mp hi).1
      exact ⟨i, x, by rw [List.getElem?_append_left hlt]; exact hi, hx, ho⟩

variable {client : String}

theorem triple_queued {done rest : List QueuedRecord} (hq : record.queue = done ++ q :: rest)
    (hcap : record.queue.length ≤ limits.cap) (acc : BTreeMap Nat Nat × Nat) :
    Triple limits client
      (fun e => ∃ stored, QueuedSo done acc.1 stored ∧ e = filled record stored ∅ ∅ ∅ 0)
      (import_queued answers client acc q)
      (fun acc e => ∃ stored, QueuedSo (done ++ [q]) acc.1 stored ∧
        e = filled record stored ∅ ∅ ∅ 0) := by
  unfold import_queued
  cases hm : queued_message q with
  | error message => exact triple_throw message
  | ok message =>
    refine triple_bind (triple_call answers (@writes_put _ limits client _ _
      (fun e => { e with
        next_offset := e.next_offset + 1
        queue := e.queue ++ [⟨e.next_offset + 1, message, q.expiry_at, none⟩] })
      (fun r e => ∃ stored, QueuedSo done acc.1 stored ∧ r = .Stored (stored.length + 1) 0 ∧
        e = filled record (stored ++ [⟨stored.length + 1, message, q.expiry_at, none⟩]) ∅ ∅ ∅ 0)
      ?_ ?_ ?_)) ?_
    · intro s c hc
      unfold MemorySessionStore.enqueue_with_expiry MemorySessionStore.enqueue_tagged
      dsimp only
      split
      · exact put_other s _ hc
      · exact put_other s _ hc
    · intro s
      unfold MemorySessionStore.enqueue_with_expiry MemorySessionStore.enqueue_tagged
      dsimp only
      split
      · rfl
      · rfl
    · rintro s e hs he ⟨stored, hso, rfl⟩
      have hroom : stored.length < limits.cap := by
        have hlen := hso.queue.length_eq
        rw [hq, List.length_append, List.length_cons] at hcap
        omega
      have hentry := s.entry_of_get client he
      unfold MemorySessionStore.enqueue_with_expiry MemorySessionStore.enqueue_tagged
      rw [hentry, hs]
      have hfull : ¬ (limits.cap ≤ (filled record stored ∅ ∅ ∅ 0).queue.length ∧
          limits.overflow = .RejectNewest) := by
        rintro ⟨hle, -⟩
        exact absurd hle (Nat.not_le.mpr hroom)
      have hevict : (filled record stored ∅ ∅ ∅ 0).queue.length + 1 - limits.cap = 0 :=
        Nat.sub_eq_zero_of_le hroom
      dsimp only
      rw [if_neg hfull, hevict]
      refine ⟨rfl, stored, hso, rfl, ?_⟩
      simp [filled]
    · intro r
      cases r with
      | Stored offset evicted =>
        refine triple_pure _ ?_
        rintro e ⟨stored, hso, hr, rfl⟩
        cases hr
        exact ⟨_, queued_more hso hm, rfl⟩
      | Rejected =>
        refine triple_pure _ ?_
        rintro e ⟨stored, hso, hr, rfl⟩
        cases hr

/-- The ids that were received, and those of them that were never acknowledged. -/
structure ReceivedSo (done : List InboundRecord) (received unacked : BTreeSet U16) : Prop where
  received : ∀ id, id ∈ received ↔ ∃ x ∈ done, x.packet_id = id
  unacked : ∀ id, id ∈ unacked ↔ (∃ x ∈ done, x.packet_id = id) ∧
    ∀ x ∈ done, x.packet_id = id → x.acked = false

theorem received_none : ReceivedSo [] ∅ ∅ := by
  refine ⟨?_, ?_⟩
  · simp
  · simp

variable {received unacked : BTreeSet U16}

theorem received_more {done : List InboundRecord} (h : ReceivedSo done received unacked)
    (x : InboundRecord) :
    ReceivedSo (done ++ [x])
      (if x.packet_id ∈ received then received else received.insert x.packet_id)
      (let unacked := if x.packet_id ∈ received then unacked else unacked.insert x.packet_id
       if x.acked then unacked.erase x.packet_id else unacked) := by
  have hrecv : ∀ id, id ∈ (if x.packet_id ∈ received then received
      else received.insert x.packet_id) ↔ id ∈ received ∨ id = x.packet_id := by
    intro id
    split
    · rename_i hin
      constructor
      · exact .inl
      · rintro (hid | rfl)
        · exact hid
        · exact hin
    · rw [BTreeSet.mem_insert, or_comm]
  have hun : ∀ id, id ∈ (if x.packet_id ∈ received then unacked
      else unacked.insert x.packet_id) ↔
        id ∈ unacked ∨ id = x.packet_id ∧ x.packet_id ∉ received := by
    intro id
    split
    · rename_i hin
      simp [hin]
    · rename_i hin
      rw [BTreeSet.mem_insert]
      simp [hin, or_comm]
  refine ⟨?_, ?_⟩
  · intro id
    rw [hrecv, h.received]
    simp only [List.mem_append, List.mem_singleton, or_and_right, exists_or, exists_eq_left]
    rw [eq_comm (a := id)]
  · intro id
    have hmem : id ∈ (let unacked := if x.packet_id ∈ received then unacked
        else unacked.insert x.packet_id
      if x.acked then unacked.erase x.packet_id else unacked) ↔
        (id ∈ unacked ∨ id = x.packet_id ∧ x.packet_id ∉ received) ∧
          (x.packet_id = id → x.acked = false) := by
      dsimp only
      by_cases hack : x.acked = true
      · rw [if_pos hack, BTreeSet.mem_erase, hun, hack, and_comm]
        simp [eq_comm]
      · rw [if_neg hack, hun]
        simp [Bool.eq_false_iff.mpr hack]
    have hsome : (∃ y ∈ done ++ [x], y.packet_id = id) ↔
        (∃ y ∈ done, y.packet_id = id) ∨ x.packet_id = id := by
      simp [or_and_right, exists_or]
    have hall : (∀ y ∈ done ++ [x], y.packet_id = id → y.acked = false) ↔
        (∀ y ∈ done, y.packet_id = id → y.acked = false) ∧
          (x.packet_id = id → x.acked = false) := by
      simp [or_imp, forall_and]
    rw [hmem, h.unacked, h.received, hsome, hall]
    constructor
    · rintro ⟨⟨hex, hold⟩ | ⟨rfl, hnot⟩, hx⟩
      · exact ⟨.inl hex, hold, hx⟩
      · exact ⟨.inr rfl, fun y hy hyid => absurd ⟨y, hy, hyid⟩ hnot, hx⟩
    · rintro ⟨hex, hold, hx⟩
      refine ⟨?_, hx⟩
      by_cases hin : ∃ y ∈ done, y.packet_id = id
      · exact .inl ⟨hin, hold⟩
      · have hid := hex.resolve_left hin
        subst hid
        exact .inr ⟨rfl, hin⟩

theorem triple_received {done : List InboundRecord} (x : InboundRecord) (u : Unit) :
    Triple limits client
      (fun e => ∃ received unacked, ReceivedSo done received unacked ∧
        e = filled record stored received unacked ∅ 0)
      (import_received answers client u x)
      (fun _ e => ∃ received unacked, ReceivedSo (done ++ [x]) received unacked ∧
        e = filled record stored received unacked ∅ 0) := by
  unfold import_received
  refine triple_bind (triple_call answers (@writes_put _ limits client _ _
    (fun e => { e with
      received_qos2 := if x.packet_id ∈ e.received_qos2 then e.received_qos2
        else e.received_qos2.insert x.packet_id
      unacked_qos2 := if x.packet_id ∈ e.received_qos2 then e.unacked_qos2
        else e.unacked_qos2.insert x.packet_id })
    (fun _ e => ∃ received unacked, ReceivedSo done received unacked ∧
      e = filled record stored
        (if x.packet_id ∈ received then received else received.insert x.packet_id)
        (if x.packet_id ∈ received then unacked else unacked.insert x.packet_id) ∅ 0)
    ?_ ?_ ?_)) (fun _ => ?_)
  · intro s c hc
    unfold MemorySessionStore.record_received
    dsimp only
    split
    · exact put_other s _ hc
    · exact put_other s _ hc
  · intro s
    unfold MemorySessionStore.record_received
    dsimp only
    split
    · rfl
    · rfl
  · rintro s e hs he ⟨received, unacked, hso, rfl⟩
    refine ⟨?_, received, unacked, hso, rfl⟩
    unfold MemorySessionStore.record_received
    rw [s.entry_of_get client he]
    dsimp only [filled]
    by_cases hin : x.packet_id ∈ received
    · simp only [hin, if_true]
    · simp only [hin, if_false]
  · by_cases hack : x.acked = true
    · rw [if_pos hack]
      refine triple_modify answers _ ?_
      rintro e ⟨received, unacked, hso, rfl⟩
      have hmore := received_more hso x
      simp only [hack, if_true] at hmore
      exact ⟨_, _, hmore, rfl⟩
    · rw [if_neg hack]
      refine triple_pure _ ?_
      rintro e ⟨received, unacked, hso, rfl⟩
      have hmore := received_more hso x
      simp only [hack] at hmore
      exact ⟨_, _, hmore, rfl⟩

/-- The deliveries in flight, each as its last entry has it. -/
def OutboundSo (offsets : BTreeMap Nat Nat) (done : List OutboundRecord)
    (outbound : BTreeMap U16 (Nat × Bool)) : Prop :=
  ∀ id : U16, outbound[id]? = (done.filter fun x => x.packet_id = id).getLast?.map fun x =>
    (offsets[x.offset]?.getD x.offset, x.pubrec_seen)

variable {done : List OutboundRecord} {outbound : BTreeMap U16 (Nat × Bool)}

theorem outbound_more (h : OutboundSo offsets done outbound) (x : OutboundRecord) :
    OutboundSo offsets (done ++ [x]) (outbound.insert x.packet_id
      (offsets[x.offset]?.getD x.offset, x.pubrec_seen)) := by
  intro id
  rw [BTreeMap.get_insert, List.filter_append]
  by_cases hid : x.packet_id = id
  · simp [hid]
  · simp [hid, h id]

theorem triple_outbound (x : OutboundRecord) (u : Unit) :
    Triple limits client
      (fun e => ∃ outbound, OutboundSo offsets done outbound ∧
        e = filled record stored received unacked outbound 0)
      (import_outbound answers client offsets u x)
      (fun _ e => ∃ outbound, OutboundSo offsets (done ++ [x]) outbound ∧
        e = filled record stored received unacked outbound 0) := by
  unfold import_outbound
  dsimp only
  generalize hoff : offsets[x.offset]?.getD x.offset = offset
  refine triple_bind (@triple_put limits client _ answers
    (fun e => { e with outbound_qos2 := e.outbound_qos2.insert x.packet_id (offset, false) })
    (fun _ e => ∃ outbound, OutboundSo offsets done outbound ∧
      e = filled record stored received unacked (outbound.insert x.packet_id (offset, false)) 0)
    ?_) (fun _ => ?_)
  · rintro e ⟨outbound, hso, rfl⟩
    exact ⟨outbound, hso, rfl⟩
  · by_cases hseen : x.pubrec_seen = true
    · rw [if_pos hseen]
      refine triple_modify answers _ ?_
      rintro e ⟨outbound, hso, rfl⟩
      have hmore := outbound_more hso x
      rw [hoff, hseen] at hmore
      refine ⟨_, hmore, ?_⟩
      have hmap : (outbound.insert x.packet_id (offset, false)).alter x.packet_id
          (Option.map fun y => (y.1, true)) = outbound.insert x.packet_id (offset, true) := by
        refine BTreeMap.ext (fun id => ?_)
        rw [BTreeMap.get_alter, BTreeMap.get_insert, BTreeMap.get_insert, BTreeMap.get_insert]
        by_cases hid : x.packet_id = id
        · simp [hid]
        · simp [hid]
      simp only [filled, hmap]
    · rw [if_neg hseen]
      refine triple_pure _ ?_
      rintro e ⟨outbound, hso, rfl⟩
      have hmore := outbound_more hso x
      rw [hoff, Bool.eq_false_iff.mpr hseen] at hmore
      exact ⟨_, hmore, rfl⟩

/-- A delivery whose message is not in the queue has an offset that no message gets. -/
def Settled (record : SessionRecord) : Prop :=
  ∀ x ∈ record.outbound_qos2, (∃ q ∈ record.queue, q.offset = x.offset) ∨ x.offset = 0 ∨
    record.queue.length < x.offset

theorem whole_of_filled (hset : Settled record) (hq : QueuedSo record.queue offsets stored)
    (hr : ReceivedSo record.received_qos2 received unacked)
    (ho : OutboundSo offsets record.outbound_qos2 outbound) :
    Whole record (filled record stored received unacked outbound record.last_packet_id) := by
  have hlen := hq.queue.length_eq
  refine ⟨rfl, rfl, rfl, hq.queue, hr.received, hr.unacked, ?_, ?_, rfl⟩
  · intro id
    show outbound[id]? = none ↔ _
    rw [ho id]
    simp
  · intro id offset seen hget
    have hget' : outbound[id]? = some (offset, seen) := hget
    rw [ho id, Option.map_eq_some_iff] at hget'
    obtain ⟨x, hx, hpair⟩ := hget'
    simp only [Prod.mk.injEq] at hpair
    refine ⟨x, hx, hpair.2, ?_⟩
    have hxmem := (List.mem_filter.mp (List.mem_of_getLast? hx)).1
    rw [← hpair.1]
    cases hoff : offsets[x.offset]? with
    | some o =>
      obtain ⟨i, q, hi, hqo, hio⟩ := hq.some_of _ _ hoff
      have hlt : i < stored.length := by
        rw [← hlen]
        exact (List.getElem?_eq_some_iff.mp hi).1
      refine .inl ⟨i, q, stored[i], hi, hqo, List.getElem?_eq_getElem hlt, ?_⟩
      rw [hq.numbered i stored[i] (List.getElem?_eq_getElem hlt), Option.getD_some, hio]
    | none =>
      have hnone := hq.none_of _ hoff
      refine .inr ⟨hnone, ?_⟩
      intro m hm
      have hstored : m ∈ stored := hm
      obtain ⟨i, hi, rfl⟩ := List.getElem_of_mem hstored
      rw [hq.numbered i _ (List.getElem?_eq_getElem hi), Option.getD_none]
      rcases hset x hxmem with ⟨q, hqm, hqo⟩ | hzero | hlong
      · exact absurd hqo (hnone q hqm)
      · omega
      · omega

def FilledSo (record : SessionRecord) (e : SessionEntry) : Prop :=
  ∃ offsets stored received unacked outbound, QueuedSo record.queue offsets stored ∧
    ReceivedSo record.received_qos2 received unacked ∧
    OutboundSo offsets record.outbound_qos2 outbound ∧
    e = filled record stored received unacked outbound record.last_packet_id

theorem triple_filled (hcap : record.queue.length ≤ limits.cap) :
    Triple limits record.client (fun e => e = { owner := record.owner })
      (import_rest answers record)
      (fun outcome e => (∃ queued, outcome = .Imported queued) ∧ FilledSo record e) := by
  unfold import_rest
  dsimp only
  refine triple_bind (@triple_put limits record.client _ answers
    (fun e => { e with subscriptions := record.subscriptions.map subscription_of })
    (fun _ e => e = { owner := record.owner
                      subscriptions := record.subscriptions.map subscription_of })
    (by rintro e rfl; rfl)) (fun _ => ?_)
  refine triple_bind (@triple_modify limits record.client _ answers
    (fun e => { e with session_expiry_at := record.session_expiry_at })
    (fun _ e => e = filled record [] ∅ ∅ ∅ 0) (by rintro e rfl; rfl)) (fun _ => ?_)
  refine triple_bind (triple_pre (@triple_foldlM _ _ limits record.client _ _
    (fun done acc e => ∃ stored, QueuedSo done acc.1 stored ∧
      e = filled record stored ∅ ∅ ∅ 0)
    (fun done q rest acc hl => triple_queued hl hcap acc) _) ?_) ?_
  · rintro e rfl
    exact ⟨[], queued_none, rfl⟩
  rintro ⟨offsets, queued⟩
  dsimp only
  refine triple_bind (triple_pre (@triple_foldlM _ _ limits record.client _ _
    (fun done _ e => ∃ stored, QueuedSo record.queue offsets stored ∧
      ∃ received unacked, ReceivedSo done received unacked ∧
        e = filled record stored received unacked ∅ 0)
    (fun done x rest u hl => triple_exists fun stored => triple_and (triple_received x u)) _)
      ?_) (fun _ => ?_)
  · rintro e ⟨stored, hq, rfl⟩
    exact ⟨stored, hq, ∅, ∅, received_none, rfl⟩
  refine triple_bind (triple_pre (@triple_foldlM _ _ limits record.client _ _
    (fun done _ e => ∃ stored, QueuedSo record.queue offsets stored ∧
      ∃ received, ∃ unacked, ReceivedSo record.received_qos2 received unacked ∧
        ∃ outbound, OutboundSo offsets done outbound ∧
          e = filled record stored received unacked outbound 0)
    (fun done x rest u hl => triple_exists fun stored => triple_and (triple_exists fun received =>
      triple_exists fun unacked => triple_and (triple_outbound x u))) _) ?_) (fun _ => ?_)
  · rintro e ⟨stored, hq, received, unacked, hr, rfl⟩
    exact ⟨stored, hq, received, unacked, hr, ∅, by intro id; simp, rfl⟩
  -- The packet ids are reserved last, and only when there are any.
  have hfilled : ∀ e, (∃ stored, QueuedSo record.queue offsets stored ∧
      ∃ received, ∃ unacked, ReceivedSo record.received_qos2 received unacked ∧
        ∃ outbound, OutboundSo offsets record.outbound_qos2 outbound ∧
          e = filled record stored received unacked outbound 0) →
      FilledSo record { e with last_packet_id := record.last_packet_id } := by
    rintro e ⟨stored, hq, received, unacked, hr, outbound, ho, rfl⟩
    exact ⟨offsets, stored, received, unacked, outbound, hq, hr, ho, rfl⟩
  by_cases hlast : 0 < record.last_packet_id
  · rw [if_pos hlast]
    refine triple_bind (triple_call answers (@writes_put _ limits record.client _ _
      (fun e => { e with last_packet_id := e.last_packet_id + record.last_packet_id })
      (fun _ e => FilledSo record e) ?_ ?_ ?_)) (fun _ => ?_)
    · intro s c hc
      unfold MemorySessionStore.reserve_packet_ids
      split
      · rfl
      · exact put_other s _ hc
    · intro s
      unfold MemorySessionStore.reserve_packet_ids
      split
      · rfl
      · rfl
    · intro s e hs he hp
      unfold MemorySessionStore.reserve_packet_ids
      rw [he]
      refine ⟨rfl, ?_⟩
      have hzero : e.last_packet_id = 0 := by
        obtain ⟨stored, -, received, unacked, -, outbound, -, rfl⟩ := hp
        rfl
      rw [hzero, Fin.zero_add]
      exact hfilled e hp
    · exact triple_pure _ (fun e he => ⟨⟨queued, rfl⟩, he⟩)
  · rw [if_neg hlast]
    refine triple_pure _ ?_
    intro e hp
    have hzero : record.last_packet_id = 0 := by
      have hval : record.last_packet_id.val = 0 := by
        have := Fin.lt_def.not.mp hlast
        simpa using this
      exact Fin.ext hval
    refine ⟨⟨queued, rfl⟩, ?_⟩
    have hw := hfilled e hp
    obtain ⟨stored, -, received, unacked, -, outbound, -, rfl⟩ := hp
    rw [hzero] at hw
    exact hw

theorem triple_rest (hset : Settled record) (hcap : record.queue.length ≤ limits.cap) :
    Triple limits record.client (fun e => e = { owner := record.owner })
      (import_rest answers record)
      (fun outcome e => (∃ queued, outcome = .Imported queued) ∧ Whole record e) := by
  refine triple_post (triple_filled hcap) ?_
  rintro outcome e ⟨hout, offsets, stored, received, unacked, outbound, hq, hr, ho, rfl⟩
  exact ⟨hout, whole_of_filled hset hq hr ho⟩

/-! ## One session -/

theorem only_claim : OnlyFor record.client (import_claim answers record) := by
  unfold import_claim
  cases record.owner with
  | none =>
    refine only_call answers ?_ ?_
    · exact fun s c hc => put_other s _ hc
    · exact fun s => rfl
  | some owner =>
    refine only_bind (only_call answers ?_ ?_) (fun claim => ?_)
    · intro s c hc
      unfold MemorySessionStore.claim_session
      split
      · exact put_other s _ hc
      · split
        · exact put_other s _ hc
        · split
          · rfl
          · rfl
    · intro s
      unfold MemorySessionStore.claim_session
      split
      · rfl
      · split
        · rfl
        · split
          · rfl
          · rfl
    · cases claim with
      | Granted present => exact only_pure _
      | Denied owner => exact only_throw _

variable {w : World}

theorem claim_absent (hw : w.Holds limits record.client none)
    (hfine : (import_claim answers record w).2.Fine) :
    ((import_claim answers record w).1 = .ok false ∧
      (import_claim answers record w).2.Holds limits record.client
        (some { owner := record.owner })) ∨
    ∃ e, (import_claim answers record w).1 = .error e ∧ (e.is_transient = true →
      (import_claim answers record w).2.Holds limits record.client none) := by
  unfold import_claim at hfine ⊢
  cases howner : record.owner with
  | none =>
    simp only [howner] at hfine ⊢
    unfold call at hfine ⊢
    dsimp only at hfine ⊢
    rcases hans : answers w.made.length with _ | ⟨e, applied⟩
    · left
      refine ⟨?_, hw.1, ?_⟩
      · simp [MemorySessionStore.ensure_session, hw.2]
      · simp [MemorySessionStore.ensure_session, MemorySessionStore.entry, hw.2]
    · right
      rw [hans] at hfine
      refine ⟨e, rfl, ?_⟩
      intro hagain
      obtain ⟨-, rfl⟩ := hfine _ List.mem_cons_self e applied rfl hagain
      exact hw
  | some owner =>
    simp only [howner] at hfine ⊢
    rw [bind_eq] at hfine ⊢
    unfold call at hfine ⊢
    dsimp only at hfine ⊢
    rcases hans : answers w.made.length with _ | ⟨e, applied⟩
    · left
      simp only [MemorySessionStore.claim_session, hw.2]
      refine ⟨rfl, hw.1, ?_⟩
      show (MemorySessionStore.put _ _ _).sessions[record.client]? = _
      simp
    · right
      simp only [hans] at hfine
      refine ⟨e, rfl, ?_⟩
      intro hagain
      obtain ⟨-, rfl⟩ := hfine _ List.mem_cons_self e applied rfl hagain
      exact hw

theorem only_once (hset : Settled record) (hcap : record.queue.length ≤ limits.cap) :
    OnlyFor record.client (import_session_once answers record) := by
  unfold import_session_once
  refine only_bind only_claim (fun present => ?_)
  cases present with
  | false => exact (triple_rest hset hcap).only
  | true => exact only_pure _

theorem once_absent (hset : Settled record) (hcap : record.queue.length ≤ limits.cap) {w : World}
    (hw : w.Holds limits record.client none)
    (hfine : (import_session_once answers record w).2.Fine) :
    (∃ queued e, (import_session_once answers record w).1 = .ok (.Imported queued) ∧
      (import_session_once answers record w).2.Holds limits record.client (some e) ∧
        Whole record e) ∨
    ∃ e, (import_session_once answers record w).1 = .error e ∧ (e.is_transient = true →
      (import_session_once answers record w).2.Holds limits record.client none) := by
  unfold import_session_once at hfine ⊢
  rw [bind_eq] at hfine ⊢
  have hclaim := @claim_absent answers limits record w hw
  rcases hc : import_claim answers record w with ⟨e | present, w'⟩
  · rw [hc] at hfine hclaim
    rcases hclaim hfine with ⟨hok, -⟩ | ⟨e', he, hw'⟩
    · cases hok
    · cases he
      exact .inr ⟨e, rfl, hw'⟩
  · rw [hc] at hfine hclaim
    have hrest := @triple_rest answers limits record hset hcap
    have hfine' : w'.Fine := by
      cases present with
      | false => exact hrest.only.fine hfine
      | true => exact hfine
    rcases hclaim hfine' with ⟨hok, hw'⟩ | ⟨e', he, -⟩
    · cases hok
      rcases hrest.runs w' _ hw' rfl hfine with ⟨outcome, e, ho, he, ⟨queued, hq⟩, hwhole⟩ |
        ⟨err, herr, hends⟩
      · exact .inl ⟨queued, e, ho.trans (by rw [hq]), he, hwhole⟩
      · refine .inr ⟨err, herr, ?_⟩
        intro hagain
        rw [hends] at hagain
        cases hagain
    · cases he

theorem only_apply_session (hset : Settled record) (hcap : record.queue.length ≤ limits.cap)
    (left : Nat) : OnlyFor record.client (apply_session answers record left) := by
  have honce := @only_once answers limits record hset hcap
  have hstep : ∀ (w : World) (r : Except StorageError SessionOutcome) (w' : World),
      import_session_once answers record w = (r, w') → (∃ new, w'.made = new ++ w.made) ∧
        (∀ c, c ≠ record.client → w'.store.sessions[c]? = w.store.sessions[c]?) ∧
          w'.store.limits = w.store.limits := by
    intro w r w' h
    have h1 := honce.grows w
    have h2 := fun c hc => honce.others w c hc
    have h3 := honce.limits w
    rw [h] at h1 h2 h3
    exact ⟨h1, h2, h3⟩
  have hboth : ∀ left w, (∃ new, (apply_session answers record left w).2.made = new ++ w.made) ∧
      (∀ c, c ≠ record.client →
        (apply_session answers record left w).2.store.sessions[c]? = w.store.sessions[c]?) ∧
        (apply_session answers record left w).2.store.limits = w.store.limits := by
    intro left
    induction left with
    | zero =>
      intro w
      unfold apply_session
      rcases ho : import_session_once answers record w with ⟨e | outcome, w'⟩
      · have hw' := hstep w _ w' ho
        cases e <;> exact hw'
      · exact hstep w _ w' ho
    | succ left ih =>
      intro w
      unfold apply_session
      rcases ho : import_session_once answers record w with ⟨e | outcome, w'⟩
      · obtain ⟨⟨new, hnew⟩, hothers, hlimits⟩ := hstep w _ w' ho
        obtain ⟨⟨new', hnew'⟩, hothers', hlimits'⟩ := ih w'
        have hagain : (∃ new, (apply_session answers record left w').2.made = new ++ w.made) ∧
            (∀ c, c ≠ record.client → (apply_session answers record left w').2.store.sessions[c]? =
              w.store.sessions[c]?) ∧
            (apply_session answers record left w').2.store.limits = w.store.limits := by
          refine ⟨⟨new' ++ new, ?_⟩, ?_, hlimits'.trans hlimits⟩
          · rw [hnew', hnew, List.append_assoc]
          · exact fun c hc => (hothers' c hc).trans (hothers c hc)
        cases e with
        | NotOwner => exact ⟨⟨new, hnew⟩, hothers, hlimits⟩
        | NotFound | Backend _ =>
          simp only [StorageError.is_transient]
          exact ⟨⟨new, hnew⟩, hothers, hlimits⟩
        | Unavailable _ | NoQuorum =>
          simp only [StorageError.is_transient, if_true]
          exact hagain
      · exact hstep w _ w' ho
  exact ⟨fun w => (hboth left w).1, fun w => (hboth left w).2.1, fun w => (hboth left w).2.2⟩

variable {left : Nat} {w' : World} {outcome : SessionOutcome}

theorem apply_session_cases (h : apply_session answers record left w = (.ok outcome, w')) :
    import_session_once answers record w = (.ok outcome, w') ∨
    (outcome = .NotOwner ∧ import_session_once answers record w = (.error .NotOwner, w')) ∨
    ∃ again e w₁, left = again + 1 ∧ e.is_transient = true ∧
      import_session_once answers record w = (.error e, w₁) ∧
        apply_session answers record again w₁ = (.ok outcome, w') := by
  unfold apply_session at h
  rcases ho : import_session_once answers record w with ⟨e | out, w₁⟩
  · rw [ho] at h
    cases e with
    | NotOwner =>
      simp only [Prod.mk.injEq, Except.ok.injEq] at h
      obtain ⟨rfl, rfl⟩ := h
      exact .inr (.inl ⟨rfl, rfl⟩)
    | NotFound | Backend _ => cases left <;> simp [StorageError.is_transient] at h
    | Unavailable _ | NoQuorum =>
      cases left with
      | zero => simp at h
      | succ again =>
        simp only [StorageError.is_transient, if_true] at h
        exact .inr (.inr ⟨again, _, w₁, rfl, rfl, rfl, h⟩)
  · rw [ho] at h
    simp only [Prod.mk.injEq, Except.ok.injEq] at h
    obtain ⟨rfl, rfl⟩ := h
    exact .inl rfl

theorem session_absent (hset : Settled record) (hcap : record.queue.length ≤ limits.cap)
    (hw : w.Holds limits record.client none)
    (h : apply_session answers record left w = (.ok outcome, w')) (hfine : w'.Fine) :
    (∃ queued e, outcome = .Imported queued ∧ w'.Holds limits record.client (some e) ∧
      Whole record e) ∨ (outcome = .NotOwner ∧ w'.Holds limits record.client none) := by
  induction left using Nat.strong_induction_on generalizing w with
  | _ left ih =>
    have honce := @once_absent answers limits record hset hcap w hw
    rcases apply_session_cases h with ho | ⟨rfl, ho⟩ | ⟨again, e, w₁, rfl, ht, ho, hagain⟩
    · rw [ho] at honce
      rcases honce hfine with ⟨q, e, hq, hw', hwhole⟩ | ⟨e, he, -⟩
      · cases hq
        exact .inl ⟨q, e, rfl, hw', hwhole⟩
      · cases he
    · rw [ho] at honce
      rcases honce hfine with ⟨q, e, hq, -⟩ | ⟨e, he, hnone⟩
      · cases hq
      · cases he
        exact .inr ⟨rfl, hnone rfl⟩
    · rw [ho] at honce
      have hfine₁ : w₁.Fine := by
        have honly := @only_apply_session answers limits record hset hcap again
        have hgrown := @OnlyFor.fine record.client _ _ honly w₁
        rw [hagain] at hgrown
        exact hgrown hfine
      rcases honce hfine₁ with ⟨q, e, hq, -⟩ | ⟨e', he, hnone⟩
      · cases hq
      · cases he
        exact ih again (Nat.lt_succ_self _) (hnone ht) hagain

end session

/-! ## The rounds -/

section rounds
variable {answers : Nat → Option (StorageError × Bool)} {limits : QueueLimits}
  {sessions : List SessionRecord}

def Absent (w : World) (s : SessionRecord) : Prop := w.store.sessions[s.client]? = none

def AbsentOrWhole (w : World) (s : SessionRecord) : Prop :=
  Absent w s ∨ ∃ e, w.store.sessions[s.client]? = some e ∧ Whole s e

/-- The sessions can be written: of one client each, within the limits of the store, and with no
delivery in flight that would name another message. -/
structure Writable (limits : QueueLimits) (sessions : List SessionRecord) : Prop where
  clients : sessions.Pairwise fun r s => r.client ≠ s.client
  fits : ∀ s ∈ sessions, s.queue.length ≤ limits.cap
  settled : ∀ s ∈ sessions, Settled s

/-- The sessions that are pending are not in the store, and each is absent or whole. -/
structure Sound (limits : QueueLimits) (sessions pending : List SessionRecord) (w : World) :
    Prop where
  limits : w.store.limits = limits
  nodup : pending.Nodup
  known : ∀ s ∈ pending, s ∈ sessions
  absent : ∀ s ∈ pending, Absent w s
  whole : ∀ s ∈ sessions, AbsentOrWhole w s

theorem Writable.client_ne (h : Writable limits sessions) {r s : SessionRecord} (hr : r ∈ sessions)
    (hs : s ∈ sessions) (hne : r ≠ s) : r.client ≠ s.client :=
  @List.Pairwise.forall _ _ _ ⟨fun _ _ h => h.symm⟩ h.clients r hr s hs hne

variable {r : Round} {record : SessionRecord} {rest : List SessionRecord} {w w' : World}

theorem sound_outcome (hok : Writable limits sessions) {outcome : SessionOutcome}
    (h : Sound limits sessions (r.still ++ record :: rest) w)
    (happly : apply_session answers record RETRIES w = (.ok outcome, w')) (hfine : w'.Fine) :
    Sound limits sessions ((r.outcome record outcome).still ++ rest) w' := by
  have hmem : record ∈ r.still ++ record :: rest := by simp
  have hin := h.known record hmem
  have hset := hok.settled record hin
  have hfits := hok.fits record hin
  have honly := @only_apply_session answers limits record hset hfits RETRIES
  have hothers := honly.others w
  have hlimits := honly.limits w
  rw [happly] at hothers hlimits
  have hsame : ∀ s ∈ sessions, s ≠ record →
      w'.store.sessions[s.client]? = w.store.sessions[s.client]? :=
    fun s hs hne => hothers s.client (hok.client_ne hs hin hne)
  have hwhole : ∀ s ∈ sessions, s ≠ record → AbsentOrWhole w' s := by
    intro s hs hne
    unfold AbsentOrWhole Absent
    rw [hsame s hs hne]
    exact h.whole s hs
  -- The pending sessions without this one, which stands once among them.
  have hperm : (r.still ++ record :: rest).Perm (record :: (r.still ++ rest)) := List.perm_middle
  have hnodup := hperm.nodup_iff.mp h.nodup
  rw [List.nodup_cons] at hnodup
  have hknown : ∀ s ∈ r.still ++ rest, s ∈ sessions ∧ s ≠ record ∧ Absent w' s := by
    intro s hs
    have hin' : s ∈ r.still ++ record :: rest := hperm.mem_iff.mpr (List.mem_cons_of_mem _ hs)
    have hne : s ≠ record := by
      rintro rfl
      exact hnodup.1 hs
    refine ⟨h.known s hin', hne, ?_⟩
    unfold Absent
    rw [hsame s (h.known s hin') hne]
    exact h.absent s hin'
  rcases session_absent hset hfits ⟨h.limits, h.absent record hmem⟩ happly hfine with
    ⟨queued, e, rfl, hheld, hwholeE⟩ | ⟨rfl, hnone⟩
  · refine ⟨hlimits.trans h.limits, hnodup.2, fun s hs => (hknown s hs).1,
      fun s hs => (hknown s hs).2.2, ?_⟩
    intro s hs
    by_cases hne : s = record
    · subst hne
      exact .inr ⟨e, hheld.2, hwholeE⟩
    · exact hwhole s hs hne
  · have hstill : ((r.outcome record .NotOwner).still ++ rest).Perm
        (r.still ++ record :: rest) := by
      simp [Round.outcome]
    refine ⟨hlimits.trans h.limits, hstill.nodup_iff.mpr h.nodup,
      fun s hs => h.known s (hstill.mem_iff.mp hs), ?_, ?_⟩
    · intro s hs
      rcases List.mem_cons.mp (hperm.mem_iff.mp (hstill.mem_iff.mp hs)) with rfl | hs
      · exact hnone.2
      · exact (hknown s hs).2.2
    · intro s hs
      by_cases hne : s = record
      · subst hne
        exact .inl hnone.2
      · exact hwhole s hs hne

theorem round_grows (hok : Writable limits sessions) {rest : List SessionRecord}
    (hknown : ∀ s ∈ rest, s ∈ sessions) (r : Round) (w : World) :
    ∃ new, (round answers rest r w).2.made = new ++ w.made := by
  induction rest generalizing r w with
  | nil => exact ⟨[], rfl⟩
  | cons record rest ih =>
    have hin := hknown record (by simp)
    have honly := @only_apply_session answers limits record (hok.settled record hin)
      (hok.fits record hin) RETRIES
    obtain ⟨new, hnew⟩ := honly.grows w
    unfold round
    rcases ha : apply_session answers record RETRIES w with ⟨e | outcome, w'⟩
    · rw [ha] at hnew
      exact ⟨new, hnew⟩
    · rw [ha] at hnew
      obtain ⟨new', hnew'⟩ := ih (fun s hs => hknown s (List.mem_cons_of_mem _ hs))
        (r.outcome record outcome) w'
      refine ⟨new' ++ new, ?_⟩
      rw [List.append_assoc, ← hnew]
      exact hnew'

theorem fine_of_grows (h : ∃ new, w'.made = new ++ w.made) (hfine : w'.Fine) : w.Fine := by
  obtain ⟨new, hnew⟩ := h
  intro x hx
  exact hfine x (by rw [hnew]; exact List.mem_append_right _ hx)

variable {r' : Round}

theorem round_cons (h : round answers (record :: rest) r w = (.ok r', w')) :
    ∃ outcome w₁, apply_session answers record RETRIES w = (.ok outcome, w₁) ∧
      round answers rest (r.outcome record outcome) w₁ = (.ok r', w') := by
  unfold round at h
  rcases ha : apply_session answers record RETRIES w with ⟨e | outcome, w₁⟩
  · rw [ha] at h
    cases h
  · rw [ha] at h
    exact ⟨outcome, w₁, rfl, h⟩

theorem sound_round (hok : Writable limits sessions)
    (h : Sound limits sessions (r.still ++ rest) w)
    (hround : round answers rest r w = (.ok r', w')) (hfine : w'.Fine) :
    Sound limits sessions r'.still w' := by
  induction rest generalizing r w with
  | nil =>
    simp only [round, Prod.mk.injEq, Except.ok.injEq] at hround
    obtain ⟨rfl, rfl⟩ := hround
    simpa using h
  | cons record rest ih =>
    obtain ⟨outcome, w₁, ha, hrest⟩ := round_cons hround
    have hgrows := @round_grows answers limits sessions hok rest
      (fun s hs => h.known s (by simp [hs])) (r.outcome record outcome) w₁
    rw [hrest] at hgrows
    exact ih (sound_outcome hok h ha (fine_of_grows hgrows hfine)) hrest

theorem round_shrinks (hround : round answers rest r w = (.ok r', w')) :
    r'.still.length + r'.progressed.toNat ≤
      r.still.length + rest.length + r.progressed.toNat := by
  induction rest generalizing r w with
  | nil =>
    simp only [round, Prod.mk.injEq, Except.ok.injEq] at hround
    obtain ⟨rfl, rfl⟩ := hround
    simp
  | cons record rest ih =>
    obtain ⟨outcome, w₁, -, hround⟩ := round_cons hround
    have hrest := ih hround
    cases outcome with
    | Imported queued =>
      simp only [Round.outcome, Bool.toNat_true, List.length_cons] at hrest ⊢
      omega
    | AlreadyPresent =>
      simp only [Round.outcome, Bool.toNat_true, List.length_cons] at hrest ⊢
      omega
    | NotOwner =>
      simp only [Round.outcome, List.length_append, List.length_cons, List.length_nil]
        at hrest ⊢
      omega

variable {fuel quiet : Nat} {pending : List SessionRecord}

theorem rounds_end (report : RestoreReport) (w : World) (hquiet : quiet < SETTLE_ROUNDS)
    (hfuel : SETTLE_ROUNDS * pending.length + (SETTLE_ROUNDS - quiet) < fuel) :
    ∃ res, rounds answers fuel pending quiet report w = some res := by
  induction fuel generalizing pending quiet report w with
  | zero => omega
  | succ fuel ih =>
    unfold rounds
    by_cases hnil : pending = []
    · rw [if_pos hnil]
      exact ⟨_, rfl⟩
    · rw [if_neg hnil]
      rcases hr : round answers pending { report } w with ⟨e | r, w'⟩
      · exact ⟨_, rfl⟩
      · have hshrinks := round_shrinks hr
        dsimp only at hshrinks ⊢
        by_cases hdone : r.still = [] ∨ SETTLE_ROUNDS ≤ (if r.progressed then 0 else quiet + 1)
        · rw [if_pos hdone]
          exact ⟨_, rfl⟩
        · rw [if_neg hdone]
          rw [not_or, Nat.not_le] at hdone
          refine ih r.report w' hdone.2 ?_
          unfold SETTLE_ROUNDS at hfuel hquiet hdone ⊢
          cases hp : r.progressed with
          | true =>
            simp only [hp, Bool.toNat_true, Bool.toNat_false, if_true, List.length_nil]
              at hshrinks ⊢
            omega
          | false =>
            simp only [hp, Bool.toNat_false, Bool.false_eq_true, if_false, List.length_nil]
              at hshrinks ⊢
            simp only [hp, Bool.false_eq_true, if_false] at hdone
            omega

theorem round_still (hround : round answers rest r w = (.ok r', w')) :
    ∀ s ∈ r'.still, s ∈ r.still ++ rest := by
  induction rest generalizing r w with
  | nil =>
    simp only [round, Prod.mk.injEq, Except.ok.injEq] at hround
    obtain ⟨rfl, rfl⟩ := hround
    simp
  | cons record rest ih =>
    obtain ⟨outcome, w₁, -, hround⟩ := round_cons hround
    intro s hs
    have hrest := ih hround s hs
    cases outcome with
    | Imported queued =>
      simp only [Round.outcome, List.mem_append, List.mem_cons] at hrest ⊢
      tauto
    | AlreadyPresent =>
      simp only [Round.outcome, List.mem_append, List.mem_cons] at hrest ⊢
      tauto
    | NotOwner =>
      simp only [Round.outcome, List.mem_append, List.mem_cons, List.not_mem_nil, or_false]
        at hrest ⊢
      tauto

variable {left : List SessionRecord} {report report' : RestoreReport}

theorem rounds_cases
    (h : rounds answers (fuel + 1) pending quiet report w = some (.ok (left, report'), w')) :
    (pending = [] ∧ w' = w) ∨ ∃ r w₁, round answers pending { report } w = (.ok r, w₁) ∧
      (w' = w₁ ∨ ∃ quiet, rounds answers fuel r.still quiet r.report w₁ =
        some (.ok (left, report'), w')) := by
  unfold rounds at h
  by_cases hnil : pending = []
  · rw [if_pos hnil] at h
    simp only [Option.some.injEq, Prod.mk.injEq] at h
    exact .inl ⟨hnil, h.2.symm⟩
  · rw [if_neg hnil] at h
    rcases hr : round answers pending { report } w with ⟨e | r, w₁⟩
    · simp [hr] at h
    · simp only [hr] at h
      refine .inr ⟨r, w₁, rfl, ?_⟩
      by_cases hdone : r.still = [] ∨ SETTLE_ROUNDS ≤ (if r.progressed then 0 else quiet + 1)
      · rw [if_pos hdone] at h
        simp only [Option.some.injEq, Prod.mk.injEq] at h
        exact .inl h.2.symm
      · rw [if_neg hdone] at h
        exact .inr ⟨_, h⟩

theorem rounds_grow (hok : Writable limits sessions) (hknown : ∀ s ∈ pending, s ∈ sessions)
    (h : rounds answers fuel pending quiet report w = some (.ok (left, report'), w')) :
    ∃ new, w'.made = new ++ w.made := by
  induction fuel generalizing pending quiet report w with
  | zero => cases h
  | succ fuel ih =>
    rcases rounds_cases h with ⟨-, rfl⟩ | ⟨r, w₁, hr, hlast⟩
    · exact ⟨[], rfl⟩
    · obtain ⟨new, hnew⟩ := @round_grows answers limits sessions hok pending hknown { report } w
      rw [hr] at hnew
      rcases hlast with rfl | ⟨quiet', hnext⟩
      · exact ⟨new, hnew⟩
      · have hstill : ∀ s ∈ r.still, s ∈ sessions :=
          fun s hs => hknown s (by simpa using round_still hr s hs)
        obtain ⟨new', hnew'⟩ := ih hstill hnext
        refine ⟨new' ++ new, ?_⟩
        rw [hnew', List.append_assoc, ← hnew]

theorem sound_rounds (hok : Writable limits sessions) (h : Sound limits sessions pending w)
    (hrounds : rounds answers fuel pending quiet report w = some (.ok (left, report'), w'))
    (hfine : w'.Fine) : ∀ s ∈ sessions, AbsentOrWhole w' s := by
  induction fuel generalizing pending quiet report w with
  | zero => cases hrounds
  | succ fuel ih =>
    rcases rounds_cases hrounds with ⟨-, rfl⟩ | ⟨r, w₁, hr, hlast⟩
    · exact h.whole
    · have hstep : w₁.Fine → Sound limits sessions r.still w₁ :=
        sound_round hok (by simpa using h) hr
      rcases hlast with rfl | ⟨quiet', hnext⟩
      · exact (hstep hfine).whole
      · have hstill : ∀ s ∈ r.still, s ∈ sessions :=
          fun s hs => h.known s (by simpa using round_still hr s hs)
        exact ih (hstep (fine_of_grows (rounds_grow hok hstill hnext) hfine)) hnext

end rounds

/-! ## A restore -/

def AllOrNothing (plan : RestorePlan) (w : World) : Prop := ∀ s ∈ plan.sessions, AbsentOrWhole w s

def sensor : SessionRecord where
  client := "sensor"
  owner := some "alice"
  subscriptions := [⟨"cmd/#", 1, false⟩]
  session_expiry_at := none
  last_packet_id := 7
  received_qos2 := [⟨3, true⟩]
  outbound_qos2 := [⟨5, 12, true⟩]
  token := ⟨2, 12⟩
  queue := [⟨12, "cmd/x", "aGk=", 2, none, {}⟩]

def sensor_plan : RestorePlan where
  sessions := [sensor]

/-- The call of that number meets no quorum, and has no effect. -/
def no_quorum_at (n : Nat) (i : Nat) : Option (StorageError × Bool) :=
  if i = n then some (.NoQuorum, false) else none

theorem sensor_writable : Writable {} sensor_plan.sessions := by
  refine ⟨List.pairwise_singleton _ _, ?_, ?_⟩
  · intro s hs
    obtain rfl := List.mem_singleton.mp hs
    decide
  · intro s hs x hx
    obtain rfl := List.mem_singleton.mp hs
    left
    obtain rfl := List.mem_singleton.mp hx
    exact ⟨_, List.mem_singleton.mpr rfl, rfl⟩

/-- The subscriptions of the session meet no quorum once: the next attempt finds the session, and
the restore succeeds without the rest of it. -/
theorem failure_leaves_a_part : ∃ report w,
    apply (no_quorum_at 1) (fun _ _ => .ok ()) 0 sensor_plan {} = some (.ok report, w) ∧
      ¬ AllOrNothing sensor_plan w := by
  have hrun : (apply (no_quorum_at 1) (fun _ _ => .ok ()) 0 sensor_plan {}).any (fun x =>
      x.1.toOption.isSome &&
        x.2.store.sessions["sensor"]?.any (fun e => e.subscriptions.isEmpty)) = true := by
    decide +kernel
  rw [Option.any_eq_true] at hrun
  obtain ⟨⟨res, w⟩, happly, hx⟩ := hrun
  rw [Bool.and_eq_true, Option.any_eq_true] at hx
  obtain ⟨hres, e, he, hempty⟩ := hx
  cases res with
  | error err => cases hres
  | ok report =>
    refine ⟨report, w, happly, ?_⟩
    intro h
    rcases h sensor (List.mem_singleton.mpr rfl) with habsent | ⟨e', he', hwhole⟩
    · unfold Absent at habsent
      rw [show sensor.client = "sensor" from rfl, he] at habsent
      cases habsent
    · rw [show sensor.client = "sensor" from rfl, he] at he'
      cases he'
      rw [hwhole.subscriptions] at hempty
      cases hempty

/-- The restore of a plan to an empty store comes to an end; and when it succeeds and no call
that is tried again failed once the store held its client, each session is restored whole or not
at all. -/
theorem restored_whole_or_not_at_all (answers : Nat → Option (StorageError × Bool))
    (publish : RetainedRecord → Option Nat → Except String Unit) (now : Nat) (plan : RestorePlan)
    (limits : QueueLimits) (hok : Writable limits plan.sessions) :
    ∃ res w, apply answers publish now plan { store := { limits } } = some (res, w) ∧
      (w.Fine → ∀ report, res = .ok report → AllOrNothing plan w) := by
  have hnodup : plan.sessions.Nodup := by
    refine hok.clients.imp ?_
    rintro r s hne rfl
    exact hne rfl
  have hstart : Sound limits plan.sessions plan.sessions { store := { limits } } := by
    refine ⟨rfl, hnodup, fun s hs => hs, ?_, ?_⟩
    · intro s hs
      simp [Absent]
    · intro s hs
      simp [AbsentOrWhole, Absent]
  obtain ⟨⟨res, w⟩, hrounds⟩ := @rounds_end answers (most_rounds plan) 0 plan.sessions {}
    { store := { limits } } (by decide) (by unfold most_rounds SETTLE_ROUNDS; omega)
  unfold apply
  rw [hrounds]
  cases res with
  | error e =>
    refine ⟨.error e, w, rfl, ?_⟩
    intro _ report hreport
    cases hreport
  | ok done =>
    obtain ⟨left, report⟩ := done
    refine ⟨_, w, rfl, ?_⟩
    intro hfine _ _
    exact sound_rounds hok hstart hrounds hfine

/-- The claim of the session meets no quorum once: nothing is written by it, and the next attempt
restores the session. -/
theorem sensor_is_restored : Writable {} sensor_plan.sessions ∧ ∃ report w,
    apply (no_quorum_at 0) (fun _ _ => .ok ()) 0 sensor_plan {} = some (.ok report, w) ∧
      w.Fine ∧ report.sessions = 1 ∧ AllOrNothing sensor_plan w := by
  have hrun : (apply (no_quorum_at 0) (fun _ _ => .ok ()) 0 sensor_plan {}).any (fun x =>
      x.1.toOption.any (fun report => report.sessions = 1) &&
        x.2.made.all (fun m => m.failed.all fun f => !m.held && !f.2)) = true := by
    decide +kernel
  obtain ⟨res, w, happly, hwhole⟩ := restored_whole_or_not_at_all (no_quorum_at 0)
    (fun _ _ => .ok ()) 0 sensor_plan {} sensor_writable
  rw [happly, Option.any_some, Bool.and_eq_true] at hrun
  obtain ⟨hres, hmade⟩ := hrun
  have hfine : w.Fine := by
    intro m hm e applied hfailed _
    have hm' := List.all_eq_true.mp hmade m hm
    simpa [hfailed] using hm'
  cases res with
  | error err => cases hres
  | ok report =>
    refine ⟨sensor_writable, report, w, happly, hfine, ?_, hwhole hfine report rfl⟩
    simpa [Except.toOption] using hres

end mqttd.backup
