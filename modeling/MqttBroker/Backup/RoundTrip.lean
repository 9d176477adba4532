-- What an export holds of a session, an import gives back (`backup.rs`): all but the
-- subscription identifiers and the retain flags, which have no place in the record,
-- and the deliveries in flight whose message had left the queue.
import MqttBroker.Backup.ApplyWhole

namespace mqttd.backup

open mqtt_core mqtt_storage

/-! ## Base64 -/

def B64 : String := "ABCDEFGHIJKLMNOPQRSTUVWXYZabcdefghijklmnopqrstuvwxyz0123456789+/"

/-- The character of the low six bits. -/
def b64_char (n : Nat) : Char := (B64.toList[n % 64]?).getD '='

def b64_text : Bytes → List Char
  | [] => []
  | [a] =>
    let n := a.toNat * 2 ^ 16
    [b64_char (n / 2 ^ 18), b64_char (n / 2 ^ 12), '=', '=']
  | [a, b] =>
    let n := a.toNat * 2 ^ 16 + b.toNat * 2 ^ 8
    [b64_char (n / 2 ^ 18), b64_char (n / 2 ^ 12), b64_char (n / 2 ^ 6), '=']
  | a :: b :: c :: rest =>
    let n := a.toNat * 2 ^ 16 + b.toNat * 2 ^ 8 + c.toNat
    [b64_char (n / 2 ^ 18), b64_char (n / 2 ^ 12), b64_char (n / 2 ^ 6), b64_char n] ++
      b64_text rest

def b64_encode (bytes : Bytes) : String := String.ofList (b64_text bytes)

/-- A character of the alphabet or of the padding: one byte, which is kept. -/
def Plain (c : Char) : Prop :=
  String.utf8EncodeChar c = [c.toUInt8] ∧ is_ascii_whitespace c.toUInt8 = false

instance (c : Char) : Decidable (Plain c) := inferInstanceAs (Decidable (_ ∧ _))

theorem b64_length : B64.toList.length = 64 := by decide +kernel

theorem b64_alphabet : ∀ x ∈ B64.toList.zipIdx,
    Plain x.1 ∧ x.1.toUInt8 ≠ 61 ∧ b64_value x.1.toUInt8 = some x.2 := by decide +kernel

theorem b64_char_laws (n : Nat) : Plain (b64_char n) ∧ (b64_char n).toUInt8 ≠ 61 ∧
    b64_value (b64_char n).toUInt8 = some (n % 64) := by
  have hlt : n % 64 < B64.toList.length := by
    rw [b64_length]
    exact Nat.mod_lt _ (by decide)
  have hchar : b64_char n = B64.toList[n % 64] := by
    rw [b64_char, List.getElem?_eq_getElem hlt, Option.getD_some]
  rw [hchar]
  apply b64_alphabet (_, n % 64)
  exact List.mem_zipIdx_iff_getElem?.mpr (List.getElem?_eq_getElem hlt)

theorem b64_bits_char (n : Nat) : b64_bits (b64_char n).toUInt8 = .ok (n % 64) := by
  obtain ⟨-, hpad, hval⟩ := b64_char_laws n
  rw [b64_bits, if_neg hpad, hval]

theorem byte_of {n : Nat} {b : UInt8} (h : n % 256 = b.toNat) : UInt8.ofNat n = b := by
  apply UInt8.toNat_inj.mp
  simpa using h

theorem b64_chunk {a b c d : UInt8} {w x y z : Nat} (ha : b64_bits a = .ok w)
    (hb : b64_bits b = .ok x) (hc : b64_bits c = .ok y) (hd : b64_bits d = .ok z) {rest out : Bytes}
    (hrest : b64_chunks rest = .ok out) :
    b64_chunks (a :: b :: c :: d :: rest) =
      let n := w * 2 ^ 18 + x * 2 ^ 12 + y * 2 ^ 6 + z
      let pad := ([a, b, c, d].filter fun x => x = 61).length
      .ok ([UInt8.ofNat (n / 2 ^ 16)] ++ (if pad < 2 then [UInt8.ofNat (n / 2 ^ 8)] else []) ++
        (if pad < 1 then [UInt8.ofNat n] else []) ++ out) := by
  rw [b64_chunks, ha, hb, hc, hd, hrest]
  rfl

theorem b64_text_laws (bytes : Bytes) : (∀ c ∈ b64_text bytes, Plain c) ∧
    (b64_text bytes).length % 4 = 0 ∧
      b64_chunks ((b64_text bytes).map Char.toUInt8) = .ok bytes := by
  have hpad : Plain '=' := by decide
  have hpad61 : '='.toUInt8 = 61 := by decide
  have hbits61 : b64_bits '='.toUInt8 = .ok 0 := rfl
  have hne : ∀ n, ¬ (b64_char n).toUInt8 = 61 := fun n => (b64_char_laws n).2.1
  have hplain : ∀ n, Plain (b64_char n) := fun n => (b64_char_laws n).1
  induction bytes using b64_text.induct with
  | case1 => exact ⟨by simp [b64_text], rfl, rfl⟩
  | case2 a =>
    have ha := a.toNat_lt
    refine ⟨by simp [b64_text, hplain, hpad], by simp [b64_text], ?_⟩
    refine (b64_chunk (b64_bits_char _) (b64_bits_char _) hbits61 hbits61 rfl).trans ?_
    simp only [List.filter_cons, hne, hpad61, decide_true, decide_false]
    simp
    exact byte_of (by omega)
  | case3 a b =>
    have ha := a.toNat_lt
    have hb := b.toNat_lt
    refine ⟨by simp [b64_text, hplain, hpad], by simp [b64_text], ?_⟩
    refine (b64_chunk (b64_bits_char _) (b64_bits_char _) (b64_bits_char _) hbits61 rfl).trans ?_
    simp only [List.filter_cons, hne, hpad61, decide_true, decide_false]
    simp
    exact ⟨byte_of (by omega), byte_of (by omega)⟩
  | case4 a b c rest ih =>
    have ha := a.toNat_lt
    have hb := b.toNat_lt
    have hc := c.toNat_lt
    obtain ⟨hrest, hlen, hchunks⟩ := ih
    refine ⟨?_, by simp [b64_text]; omega, ?_⟩
    · simpa [b64_text, hplain] using hrest
    refine (b64_chunk (b64_bits_char _) (b64_bits_char _) (b64_bits_char _) (b64_bits_char _)
      hchunks).trans ?_
    simp only [List.filter_cons, hne, decide_false]
    simp [-UInt8.ofNat_add, -UInt8.ofNat_mul]
    exact ⟨byte_of (by omega), byte_of (by omega), byte_of (by omega)⟩

theorem stringBytes_plain {l : List Char} (h : ∀ c ∈ l, Plain c) :
    ByteCodec.stringBytes (String.ofList l) = l.map Char.toUInt8 := by
  have hbytes : ByteCodec.stringBytes (String.ofList l) = l.flatMap String.utf8EncodeChar := by
    rw [ByteCodec.stringBytes, String.toByteArray_ofList, List.utf8Encode]
    simp
  rw [hbytes]
  clear hbytes
  induction l with
  | nil => rfl
  | cons c l ih =>
    rw [List.flatMap_cons, (h c List.mem_cons_self).1, ih fun x hx => h x (List.mem_cons_of_mem _ hx)]
    rfl

theorem b64_round_trip (bytes : Bytes) : b64_decode (b64_encode bytes) = .ok bytes := by
  obtain ⟨hplain, hlen, hchunks⟩ := b64_text_laws bytes
  have hraw : (ByteCodec.stringBytes (b64_encode bytes)).filter (fun b => !is_ascii_whitespace b) =
      (b64_text bytes).map Char.toUInt8 := by
    rw [b64_encode, stringBytes_plain hplain, List.filter_eq_self]
    intro b hb
    obtain ⟨c, hc, rfl⟩ := List.mem_map.mp hb
    rw [(hplain c hc).2]
    rfl
  rw [b64_decode, hraw, if_neg (by rw [List.length_map, hlen]; exact fun h => h rfl)]
  exact hchunks

/-! ## The record of a session -/

/-- A session as the log's store exports it: the windows come from maps, and the log keeps no
origin with a message. -/
structure SessionExport where
  client : String
  owner : Option String
  subscriptions : List Subscription
  session_expiry_at : Option U64
  last_packet_id : U16
  received_qos2 : List (U16 × Bool)
  outbound_qos2 : List OutboundInflight
  queue : List QueuedMessage
  epoch : Nat
  high_offset : Nat
  received_once : (received_qos2.map Prod.fst).Nodup
  outbound_once : (outbound_qos2.map (·.packet_id)).Nodup
  no_origin : ∀ q ∈ queue, q.message.app.origin = none

def props_record (app : AppProperties) : PropsRecord where
  payload_format := app.payload_format
  content_type := app.content_type
  response_topic := app.response_topic
  correlation_data_b64 := app.correlation_data.map b64_encode
  user_properties := app.user_properties

def expiry_of (q : QueuedMessage) : Option U64 := q.expiry_at.or q.message.expires_at

def queued_record (q : QueuedMessage) : QueuedRecord where
  offset := q.offset
  topic := q.message.topic
  payload_b64 := b64_encode q.message.payload
  qos := logged.qos_to_u8 q.message.qos
  expiry_at := expiry_of q
  props := props_record q.message.app

def subscription_record (sub : Subscription) : SubscriptionRecord where
  filter := sub.filter
  max_qos := logged.qos_to_u8 sub.max_qos
  no_local := sub.no_local

def session_record (s : SessionExport) : SessionRecord where
  client := s.client
  owner := s.owner
  subscriptions := s.subscriptions.map subscription_record
  session_expiry_at := s.session_expiry_at
  last_packet_id := s.last_packet_id
  received_qos2 := s.received_qos2.map fun x => ⟨x.1, x.2⟩
  outbound_qos2 := s.outbound_qos2.map fun o => ⟨o.packet_id, o.offset, o.pubrec_seen⟩
  token := ⟨s.epoch, s.high_offset⟩
  queue := s.queue.map queued_record

theorem qos_round_trip (q : QoS) : qos_from_u8 (logged.qos_to_u8 q) = q := by
  cases q <;> rfl

theorem app_props_record (app : AppProperties) :
    app_props (props_record app) = .ok { app with origin := none } := by
  unfold app_props props_record
  cases app.correlation_data with
  | none => simp [pure, Except.pure, bind, Except.bind]
  | some data => simp [pure, Except.pure, bind, Except.bind, b64_round_trip]

theorem queued_message_record (q : QueuedMessage) :
    queued_message (queued_record q) = .ok { q.message with
      retain := false
      app := { q.message.app with origin := none }
      expires_at := expiry_of q } := by
  simp [queued_message, queued_record, b64_round_trip, app_props_record, qos_round_trip, pure,
    Except.pure, bind, Except.bind]

theorem subscription_of_record (sub : Subscription) :
    subscription_of (subscription_record sub) = { sub with sub_id := none } := by
  simp [subscription_of, subscription_record, qos_round_trip]

/-! ## A store that fails nothing -/

section sure
variable {α β : Type} {client : String}

/-- The piece comes to its end, and no call of it fails. -/
def Sure (m : Import α) : Prop := ∀ w, ∃ a w', m w = (.ok a, w') ∧ (w.Fine → w'.Fine)

theorem sure_pure (a : α) : Sure (pure a : Import α) := fun w => ⟨a, w, rfl, id⟩

theorem sure_bind {m : Import α} {f : α → Import β} (hm : Sure m) (hf : ∀ a, Sure (f a)) :
    Sure (m >>= f) := by
  intro w
  obtain ⟨a, w', hw', hfine⟩ := hm w
  obtain ⟨b, w'', hw'', hfine'⟩ := hf a w'
  refine ⟨b, w'', ?_, fun h => hfine' (hfine h)⟩
  rw [bind_eq, hw']
  exact hw''

theorem sure_call (f : MemorySessionStore → α × MemorySessionStore) :
    Sure (call (fun _ => none) client f) := by
  intro w
  refine ⟨_, _, rfl, ?_⟩
  intro hw m hm
  rcases List.mem_cons.mp hm with rfl | hm
  · intro e applied he
    cases he
  · exact hw m hm

theorem sure_foldlM {f : β → α → Import β} {l : List α} (hf : ∀ b, ∀ x ∈ l, Sure (f b x)) (b : β) :
    Sure (l.foldlM f b) := by
  induction l generalizing b with
  | nil => exact sure_pure b
  | cons x l ih =>
    rw [List.foldlM_cons]
    refine sure_bind (hf b x List.mem_cons_self) (fun b' => ?_)
    exact ih (fun b'' y hy => hf b'' y (List.mem_cons_of_mem _ hy)) b'

theorem sure_queued {q : QueuedRecord} {message : Message} (hq : queued_message q = .ok message)
    (acc : BTreeMap Nat Nat × Nat) : Sure (import_queued (fun _ => none) client acc q) := by
  unfold import_queued
  rw [hq]
  refine sure_bind (sure_call _) (fun stored => ?_)
  cases stored with
  | Stored offset evicted => exact sure_pure _
  | Rejected => exact sure_pure _

theorem sure_received (u : Unit) (x : InboundRecord) :
    Sure (import_received (fun _ => none) client u x) := by
  refine sure_bind (sure_call _) (fun _ => ?_)
  split
  · exact sure_call _
  · exact sure_pure _

theorem sure_outbound (offsets : BTreeMap Nat Nat) (u : Unit) (x : OutboundRecord) :
    Sure (import_outbound (fun _ => none) client offsets u x) := by
  refine sure_bind (sure_call _) (fun _ => ?_)
  split
  · exact sure_call _
  · exact sure_pure _

/-- The calls after the claim, when the messages of the record can be read. -/
theorem sure_rest {record : SessionRecord}
    (hq : ∀ q ∈ record.queue, ∃ message, queued_message q = .ok message) :
    Sure (import_rest (fun _ => none) record) := by
  refine sure_bind (sure_call _) (fun _ => sure_bind (sure_call _) (fun _ => ?_))
  refine sure_bind (sure_foldlM ?_ _) (fun acc => ?_)
  · intro acc q hmem
    obtain ⟨message, hm⟩ := hq q hmem
    exact sure_queued hm acc
  refine sure_bind (sure_foldlM (fun u x _ => sure_received u x) _) (fun _ => ?_)
  refine sure_bind (sure_foldlM (fun u x _ => sure_outbound _ u x) _) (fun _ => ?_)
  split
  · exact sure_bind (sure_call _) (fun _ => sure_pure _)
  · exact sure_pure _

end sure

theorem claim_new {record : SessionRecord} {store : MemorySessionStore}
    (hnew : store.sessions[record.client]? = none) :
    ∃ w, import_claim (fun _ => none) record { store } = (.ok false, w) ∧
      w.Holds store.limits record.client (some { owner := record.owner }) ∧ w.Fine := by
  have hfine : ∀ held, World.Fine ⟨store, [⟨record.client, held, none⟩]⟩ := by
    intro held m hm e applied he
    rw [List.mem_singleton.mp hm] at he
    cases he
  unfold import_claim
  cases howner : record.owner with
  | none =>
    refine ⟨_, Prod.ext ?_ rfl, ⟨rfl, ?_⟩, hfine _⟩
    · simp [call, MemorySessionStore.ensure_session, hnew]
    · simp [call, MemorySessionStore.ensure_session, MemorySessionStore.entry, hnew]
  | some owner =>
    have hclaim : store.claim_session record.client owner =
        (.Granted false, store.put record.client { owner := some owner }) := by
      simp [MemorySessionStore.claim_session, hnew]
    refine ⟨⟨store.put record.client { owner := some owner },
      [⟨record.client, store.sessions[record.client]?.isSome, none⟩]⟩, ?_, ⟨rfl, by simp⟩, hfine _⟩
    have hcall : call (fun _ => none) record.client
        (fun s => s.claim_session record.client owner) { store } = (.ok (.Granted false),
          ⟨store.put record.client { owner := some owner },
            [⟨record.client, store.sessions[record.client]?.isSome, none⟩]⟩) := by
      simp [call, hclaim]
    dsimp only
    rw [bind_eq, hcall]
    rfl

theorem import_filled {record : SessionRecord} {store : MemorySessionStore}
    (hnew : store.sessions[record.client]? = none)
    (hroom : record.queue.length ≤ store.limits.cap)
    (hq : ∀ q ∈ record.queue, ∃ message, queued_message q = .ok message) :
    ∃ queued w e, import_session_once (fun _ => none) record { store } =
      (.ok (.Imported queued), w) ∧ w.store.sessions[record.client]? = some e ∧
        FilledSo record e := by
  obtain ⟨w, hclaim, hw, hfine⟩ := claim_new hnew
  obtain ⟨outcome, w', hw', hkeeps⟩ := sure_rest hq w
  have hrest := (@triple_filled (fun _ => none) store.limits record hroom).runs w _ hw rfl
  rw [hw'] at hrest
  rcases hrest (hkeeps hfine) with ⟨_, e, ho, he, ⟨queued, rfl⟩, hfilled⟩ | ⟨err, herror, -⟩
  · cases ho
    refine ⟨queued, w', e, ?_, he.2, hfilled⟩
    unfold import_session_once
    rw [bind_eq, hclaim]
    exact hw'
  · cases herror

/-! ## What comes back -/

/-- An offset that no message of the session has, or gets from a later call: those are given
above the mark. -/
def Unused (e : SessionEntry) (offset : Nat) : Prop :=
  (∀ m ∈ e.queue, m.offset ≠ offset) ∧ offset ≤ e.next_offset

/-- The delivery in flight names the message that it named in the export, or none at all. -/
def NamesSame (s : SessionExport) (e : SessionEntry) (named offset : Nat) : Prop :=
  (∃ (i : Nat) (q m : QueuedMessage), s.queue[i]? = some q ∧ q.offset = named ∧
    e.queue[i]? = some m ∧ m.offset = offset) ∨
  ((∀ q ∈ s.queue, q.offset ≠ named) ∧ Unused e offset)

/-- A message with the same content and deadline; where the deadline is kept does not matter. -/
def SameMessage (q m : QueuedMessage) : Prop :=
  { m.message with expires_at := none } = { q.message with expires_at := none } ∧
    expiry_of m = expiry_of q

structure GivenBack (s : SessionExport) (e : SessionEntry) : Prop where
  owner : e.owner = s.owner
  subscriptions : e.subscriptions = s.subscriptions
  expiry : e.session_expiry_at = s.session_expiry_at
  queue : List.Forall₂ SameMessage s.queue e.queue
  received : ∀ id, id ∈ e.received_qos2 ↔ ∃ acked, (id, acked) ∈ s.received_qos2
  unacked : ∀ id, id ∈ e.unacked_qos2 ↔ (id, false) ∈ s.received_qos2
  last_packet_id : e.last_packet_id = s.last_packet_id
  outbound : ∀ id : U16, e.outbound_qos2[id]?.isSome ↔ ∃ x ∈ s.outbound_qos2, x.packet_id = id
  named : ∀ x ∈ s.outbound_qos2, ∃ offset,
    e.outbound_qos2[x.packet_id]? = some (offset, x.pubrec_seen) ∧ NamesSame s e x.offset offset

/-- The record has all of the session: it has no place for an identifier or a retain flag, and
an offset that is not in the queue is taken over as it is. -/
structure Carried (s : SessionExport) : Prop where
  no_ids : ∀ sub ∈ s.subscriptions, sub.sub_id = none
  not_retained : ∀ q ∈ s.queue, q.message.retain = false
  queued : ∀ x ∈ s.outbound_qos2, x.offset = 0 ∨ ∃ q ∈ s.queue, q.offset = x.offset

theorem subscriptions_iff (l : List Subscription) :
    (l.map subscription_record).map subscription_of = l ↔ ∀ sub ∈ l, sub.sub_id = none := by
  have hone : ∀ sub : Subscription, { sub with sub_id := none } = sub ↔ sub.sub_id = none := by
    rintro ⟨filter, max_qos, no_local, sub_id⟩
    simp [eq_comm]
  have hmap : (l.map subscription_record).map subscription_of = l.map id ↔
      ∀ sub ∈ l, subscription_of (subscription_record sub) = sub := by
    rw [List.map_map, List.map_inj_left]
    rfl
  rw [List.map_id] at hmap
  simp only [hmap, subscription_of_record, hone]

theorem same_message_iff {q m : QueuedMessage} (horigin : q.message.app.origin = none)
    (hm : queued_message (queued_record q) = .ok m.message) (he : m.expiry_at = expiry_of q) :
    SameMessage q m ↔ q.message.retain = false := by
  rw [queued_message_record] at hm
  have hmsg := (Except.ok.inj hm).symm
  have hexpiry : expiry_of m = expiry_of q := by
    rw [expiry_of, hmsg, he]
    cases expiry_of q <;> rfl
  rw [SameMessage, hmsg]
  have happ : { q.message.app with origin := none } = q.message.app := by
    rw [← horigin]
  simp only [hexpiry, and_true, happ]
  constructor
  · intro h
    exact (congrArg Message.retain h).symm
  · intro h
    rw [← h]

theorem queue_iff {queue stored : List QueuedMessage}
    (horigin : ∀ q ∈ queue, q.message.app.origin = none)
    (h : QueueOf (queue.map queued_record) stored) :
    List.Forall₂ SameMessage queue stored ↔ ∀ q ∈ queue, q.message.retain = false := by
  unfold QueueOf at h
  rw [List.forall₂_map_left_iff] at h
  induction h with
  | nil => simp
  | @cons q m queue stored hqm _ ih =>
    have hhead := same_message_iff (horigin q List.mem_cons_self) hqm.1 hqm.2
    rw [List.forall₂_cons, hhead, ih fun x hx => horigin x (List.mem_cons_of_mem _ hx)]
    simp

section back
variable {s : SessionExport} {offsets : BTreeMap Nat Nat} {stored : List QueuedMessage}
  {received unacked : BTreeSet U16} {outbound : BTreeMap U16 (Nat × Bool)}

theorem mem_received (x : InboundRecord) :
    x ∈ (session_record s).received_qos2 ↔ (x.packet_id, x.acked) ∈ s.received_qos2 := by
  refine List.mem_map.trans ⟨?_, ?_⟩
  · rintro ⟨y, hy, rfl⟩
    exact hy
  · intro hx
    exact ⟨_, hx, rfl⟩

theorem received_back (h : ReceivedSo (session_record s).received_qos2 received unacked)
    (id : U16) : (id ∈ received ↔ ∃ acked, (id, acked) ∈ s.received_qos2) ∧
      (id ∈ unacked ↔ (id, false) ∈ s.received_qos2) := by
  have hsome : (∃ x ∈ (session_record s).received_qos2, x.packet_id = id) ↔
      ∃ acked, (id, acked) ∈ s.received_qos2 := by
    constructor
    · rintro ⟨x, hx, rfl⟩
      exact ⟨x.acked, (mem_received x).mp hx⟩
    · rintro ⟨acked, hx⟩
      exact ⟨⟨id, acked⟩, (mem_received _).mpr hx, rfl⟩
  refine ⟨(h.received id).trans hsome, ?_⟩
  rw [h.unacked, hsome]
  constructor
  · rintro ⟨⟨acked, hmem⟩, hall⟩
    have hacked := hall ⟨id, acked⟩ ((mem_received _).mpr hmem) rfl
    subst hacked
    exact hmem
  · intro hmem
    refine ⟨⟨false, hmem⟩, ?_⟩
    rintro x hx rfl
    have hx' := (mem_received x).mp hx
    exact congrArg Prod.snd (List.inj_on_of_nodup_map s.received_once hx' hmem rfl)

theorem outbound_back (h : OutboundSo offsets (session_record s).outbound_qos2 outbound) :
    (∀ id : U16, outbound[id]?.isSome ↔ ∃ x ∈ s.outbound_qos2, x.packet_id = id) ∧
      ∀ x ∈ s.outbound_qos2, outbound[x.packet_id]? =
        some (offsets[x.offset]?.getD x.offset, x.pubrec_seen) := by
  refine ⟨?_, ?_⟩
  · intro id
    rw [h id, Option.isSome_map]
    simp [session_record]
  · intro x hx
    rw [h x.packet_id]
    -- An id stands once, so that its last entry is its only one.
    cases hlast : ((session_record s).outbound_qos2.filter fun y =>
        y.packet_id = x.packet_id).getLast? with
    | none =>
      rw [List.getLast?_eq_none_iff, List.filter_eq_nil_iff] at hlast
      exact absurd rfl (of_decide_eq_false (Bool.eq_false_iff.mpr
        (hlast ⟨x.packet_id, x.offset, x.pubrec_seen⟩ (List.mem_map_of_mem hx))))
    | some y =>
      obtain ⟨hy, hid⟩ := List.mem_filter.mp (List.mem_of_getLast? hlast)
      obtain ⟨z, hz, rfl⟩ := List.mem_map.mp hy
      rw [List.inj_on_of_nodup_map s.outbound_once hz hx (of_decide_eq_true hid)]
      rfl

theorem names_iff (hq : QueuedSo (session_record s).queue offsets stored) (last : U16)
    (named : Nat) :
    NamesSame s (filled (session_record s) stored received unacked outbound last) named
      (offsets[named]?.getD named) ↔ named = 0 ∨ ∃ q ∈ s.queue, q.offset = named := by
  have hlen : s.queue.length = stored.length := by
    simpa [session_record] using hq.queue.length_eq
  cases hoff : offsets[named]? with
  | some o =>
    obtain ⟨i, r, hi, hro, rfl⟩ := hq.some_of _ _ hoff
    obtain ⟨q, hqi, rfl⟩ := Option.map_eq_some_iff.mp (List.getElem?_map.symm.trans hi)
    have hlt : i < stored.length := by
      rw [← hlen]
      exact (List.getElem?_eq_some_iff.mp hqi).1
    refine iff_of_true (.inl ⟨i, q, stored[i], hqi, hro, List.getElem?_eq_getElem hlt, ?_⟩)
      (.inr ⟨q, List.mem_of_getElem? hqi, hro⟩)
    rw [Option.getD_some, hq.numbered i _ (List.getElem?_eq_getElem hlt)]
  | none =>
    have hnone : ∀ q ∈ s.queue, q.offset ≠ named := fun q hmem =>
      hq.none_of _ hoff (queued_record q) (List.mem_map_of_mem hmem)
    rw [Option.getD_none]
    constructor
    · rintro (⟨i, q, m, hqi, hqo, -⟩ | ⟨-, hunused, hle⟩)
      · exact .inr ⟨q, List.mem_of_getElem? hqi, hqo⟩
      · left
        by_contra hpos
        -- The messages have the offsets from 1 to the mark.
        have hle' : named ≤ stored.length := hle
        have hlt : named - 1 < stored.length := by omega
        refine hunused stored[named - 1] (List.getElem_mem hlt) ?_
        rw [hq.numbered (named - 1) _ (List.getElem?_eq_getElem hlt)]
        omega
    · rintro (rfl | ⟨q, hmem, hqo⟩)
      · refine .inr ⟨hnone, ?_, Nat.zero_le _⟩
        intro m hm
        have hstored : m ∈ stored := hm
        obtain ⟨i, hi, rfl⟩ := List.getElem_of_mem hstored
        rw [hq.numbered i _ (List.getElem?_eq_getElem hi)]
        omega
      · exact absurd hqo (hnone q hmem)

end back

theorem given_back_iff {s : SessionExport} {e : SessionEntry} (h : FilledSo (session_record s) e) :
    GivenBack s e ↔ Carried s := by
  obtain ⟨offsets, stored, received, unacked, outbound, hq, hr, ho, rfl⟩ := h
  have hback := outbound_back ho
  have hqueue := queue_iff s.no_origin hq.queue
  have hsubs := subscriptions_iff s.subscriptions
  constructor
  · intro hg
    refine ⟨hsubs.mp hg.subscriptions, hqueue.mp hg.queue, ?_⟩
    intro x hx
    obtain ⟨offset, hget, hnames⟩ := hg.named x hx
    have hoff := (hback.2 x hx).symm.trans hget
    rw [Option.some.injEq, Prod.mk.injEq] at hoff
    rw [← hoff.1] at hnames
    exact (names_iff hq _ _).mp hnames
  · intro hc
    refine ⟨rfl, hsubs.mpr hc.no_ids, rfl, hqueue.mpr hc.not_retained,
      fun id => (received_back hr id).1, fun id => (received_back hr id).2, rfl, hback.1, ?_⟩
    intro x hx
    exact ⟨_, hback.2 x hx, (names_iff hq _ _).mpr (hc.queued x hx)⟩

theorem records_read (s : SessionExport) :
    ∀ q ∈ (session_record s).queue, ∃ message, queued_message q = .ok message := by
  intro q hq
  obtain ⟨m, -, rfl⟩ := List.mem_map.mp hq
  exact ⟨_, queued_message_record m⟩

/-- A store that fails, refuses and drops nothing gets the exported session back exactly when the
record carries it all. -/
theorem an_import_gives_back_what_the_record_carries (s : SessionExport)
    (store : MemorySessionStore) (hnew : store.sessions[s.client]? = none)
    (hroom : s.queue.length ≤ store.limits.cap) :
    (∃ queued w e, import_session_once (fun _ => none) (session_record s) { store } =
      (.ok (.Imported queued), w) ∧ w.store.sessions[s.client]? = some e ∧ GivenBack s e) ↔
        Carried s := by
  obtain ⟨queued, w, e, hrun, he, hfilled⟩ := @import_filled (session_record s) store hnew
    (by simpa [session_record] using hroom) (records_read s)
  rw [← given_back_iff hfilled]
  constructor
  · rintro ⟨queued', w', e', hrun', he', hback⟩
    cases hrun.symm.trans hrun'
    rw [Option.some.inj (he.symm.trans he')]
    exact hback
  · intro hback
    exact ⟨queued, w, e, hrun, he, hback⟩

/-- A session with one message queued at offset 12 and one delivery in flight. -/
def desk (sub_id : Option U32) (named : Nat) : SessionExport where
  client := "desk"
  owner := some "ann"
  subscriptions := [⟨"a/b", .ExactlyOnce, true, sub_id⟩]
  session_expiry_at := some 90
  last_packet_id := 7
  received_qos2 := [(3, true), (4, false)]
  outbound_qos2 := [⟨7, named, true⟩]
  queue := [⟨12, ⟨"a/b", [1, 2], .ExactlyOnce, false, { content_type := some "t" }, none⟩,
    some 60, none⟩]
  epoch := 1
  high_offset := 12
  received_once := by decide
  outbound_once := List.nodup_singleton _
  no_origin := by simp

theorem an_import_gives_back_a_session_without_identifiers :
    ∃ queued w e, import_session_once (fun _ => none) (session_record (desk none 12)) {} =
      (.ok (.Imported queued), w) ∧ w.store.sessions["desk"]? = some e ∧
        GivenBack (desk none 12) e := by
  refine (an_import_gives_back_what_the_record_carries (desk none 12) {} ?_ (by decide)).mpr ?_
  · decide +kernel
  · exact ⟨by simp [desk], by simp [desk], by simp [desk]⟩

/-- An identifier is lost, and a delivery whose message was acknowledged names the first message
of the restored queue. -/
theorem an_import_loses_an_identifier_and_misnames_a_delivery :
    (¬ ∃ queued w e, import_session_once (fun _ => none) (session_record (desk (some 9) 12)) {} =
      (.ok (.Imported queued), w) ∧ w.store.sessions["desk"]? = some e ∧
        GivenBack (desk (some 9) 12) e) ∧
    ¬ ∃ queued w e, import_session_once (fun _ => none) (session_record (desk none 1)) {} =
      (.ok (.Imported queued), w) ∧ w.store.sessions["desk"]? = some e ∧
        GivenBack (desk none 1) e := by
  have hfails : ∀ s : SessionExport, s.client = "desk" → s.queue.length ≤ 1 → ¬ Carried s →
      ¬ ∃ queued w e, import_session_once (fun _ => none) (session_record s) {} =
        (.ok (.Imported queued), w) ∧ w.store.sessions["desk"]? = some e ∧ GivenBack s e := by
    rintro s hclient hqueue hnot ⟨queued, w, e, hrun, he, hback⟩
    obtain ⟨queued', w', e', hrun', he', hfilled⟩ := @import_filled (session_record s) {}
      (by show ({} : MemorySessionStore).sessions[s.client]? = none; rw [hclient]; decide +kernel)
      (le_trans (by simpa [session_record] using hqueue) (by decide : 1 ≤ QueueLimits.cap {}))
      (records_read s)
    cases hrun'.symm.trans hrun
    rw [show (session_record s).client = "desk" from hclient] at he'
    cases he'.symm.trans he
    exact hnot ((given_back_iff hfilled).mp hback)
  refine ⟨hfails _ rfl (by decide) ?_, hfails _ rfl (by decide) ?_⟩
  · intro h
    simpa using h.no_ids _ List.mem_cons_self
  · intro h
    simpa [desk] using h.queued _ List.mem_cons_self

end mqttd.backup
