-- The bodies of the packets: for each packet type, what is encoded is decoded
-- again to the end of the body, and what is decoded has fields that encode.
import MqttBroker.Codec.Packet

namespace mqtt_codec

open Wire mqtt_core

/-- A body is written in as many bytes as its size and read back to its end; what is read
is valid, and no larger than what was read or than the shortest long form of an
acknowledgement. -/
structure Body {α : Type} (read : Reader α) (put : α → Result Bytes) (size : α → Nat)
    (Ok : α → Prop) : Prop where
  back : ∀ {a}, Ok a → ∃ bytes, put a = .ok bytes ∧ bytes.length = size a ∧ Gives read bytes a []
  front : ∀ {bytes a rest}, Gives read bytes a rest → Ok a ∧ size a ≤ max bytes.length 4

/-! ## Fields that are not always there -/

def prop_size (version : ProtocolVersion) (ps : Properties) : Nat :=
  if version = .V5 then ps.block_size else 0

/-- The properties of a packet: a valid block in version 5, none in 3.1.1. -/
def PropsOk (version : ProtocolVersion) (ctx : PropContext) (ps : Properties) : Prop :=
  if version = .V5 then ps.BlockOk ctx else ps = []

theorem lawful_props (version : ProtocolVersion) (ctx : PropContext) :
    Lawful (read_properties version ctx) (put_properties version) (prop_size version)
      (PropsOk version ctx) :=
  (Properties.lawful_block ctx).optional (version = .V5) []

variable {ctx : PropContext} {ps : Properties}

/-- A block that follows a reason code is never empty, so it is not taken for the short
form. -/
theorem trailing_back (h : ps.BlockOk ctx) :
    ∃ bytes, ps.encode = .ok bytes ∧ bytes.length = ps.block_size ∧
      Gives (read_trailing ctx) bytes ps [] := by
  obtain ⟨bytes, hput, hlen, hread⟩ := (Properties.lawful_block ctx).back h
  refine ⟨bytes, hput, hlen, ?_⟩
  have hpos := ps.block_size_pos
  have hne : bytes.isEmpty = false := by
    rw [List.isEmpty_eq_false_iff]
    rintro rfl
    simp at hlen
    omega
  refine Gives.bind (gives_isEmpty.mpr ⟨hne, rfl⟩) ?_
  have hall := hread []
  rw [List.append_nil] at hall
  exact gives_ite.mpr (.inr ⟨by simp, hall⟩)

variable {bytes rest : Bytes}

theorem trailing_front (hg : Gives (read_trailing ctx) bytes ps rest) :
    ps.BlockOk ctx ∧ (ps = [] ∨ ps.block_size + rest.length ≤ bytes.length) := by
  obtain ⟨empty, left, hempty, hg⟩ := gives_bind.mp hg
  obtain ⟨hleft, rfl⟩ := gives_isEmpty.mp hempty
  rcases gives_ite.mp hg with ⟨-, hg⟩ | ⟨-, hg⟩
  · obtain ⟨rfl, rfl⟩ := gives_pure.mp hg
    exact ⟨Properties.blockOk_nil ctx, .inl rfl⟩
  · obtain ⟨hok, hsize⟩ := (Properties.lawful_block ctx).front hg
    exact ⟨hok, .inr hsize⟩

def option_size {α : Type} (size : α → Nat) : Option α → Nat
  | none => 0
  | some a => size a

/-- A field that a flag announces, for the flag that its writer sets. -/
theorem read_if_back {α : Type} {read : Reader α} {put : α → Result Bytes} (size : α → Nat)
    (o : Option α)
    (hback : ∀ a, o = some a → ∃ bytes, put a = .ok bytes ∧ bytes.length = size a ∧
      ∀ rest, Gives read (bytes ++ rest) a rest) :
    ∃ bytes, put_option put o = .ok bytes ∧ bytes.length = option_size size o ∧
      ∀ rest, Gives (read_if o.isSome read) (bytes ++ rest) o rest := by
  cases o with
  | none => exact ⟨[], rfl, rfl, fun rest => by simp [read_if]⟩
  | some a =>
    obtain ⟨bytes, hput, hlen, hread⟩ := hback a rfl
    exact ⟨bytes, hput, hlen, fun rest => (hread rest).bind (by simp)⟩

theorem read_if_front {α : Type} {read : Reader α} {size : α → Nat} {Valid : α → Prop}
    (hfront : ∀ {bytes a rest}, Gives read bytes a rest →
      Valid a ∧ size a + rest.length ≤ bytes.length) {flag : Bool} {o : Option α}
    (hg : Gives (read_if flag read) bytes o rest) :
    o.isSome = flag ∧ (∀ a, o = some a → Valid a) ∧
      option_size size o + rest.length ≤ bytes.length := by
  unfold read_if at hg
  cases flag with
  | false =>
    obtain ⟨rfl, rfl⟩ := gives_pure.mp hg
    exact ⟨rfl, by simp, by simp [option_size]⟩
  | true =>
    obtain ⟨a, left, ha, hg⟩ := gives_bind.mp hg
    obtain ⟨rfl, rfl⟩ := gives_pure.mp hg
    obtain ⟨hvalid, hsize⟩ := hfront ha
    refine ⟨rfl, ?_, hsize⟩
    rintro b hb
    cases hb
    exact hvalid

/-! ## Acknowledgements -/

/-- A reason code and properties are written out, not left out. -/
def Long (reason : UInt8) (properties : Properties) : Prop := reason ≠ 0 ∨ properties ≠ []

instance (reason : UInt8) (properties : Properties) : Decidable (Long reason properties) :=
  inferInstanceAs (Decidable (_ ∨ _))

theorem not_long {reason : UInt8} {properties : Properties} (h : ¬ Long reason properties) :
    reason = 0 ∧ properties = [] := by
  unfold Long at h
  push Not at h
  exact h

def ack_size (version : ProtocolVersion) (a : Ack) : Nat :=
  if version = .V5 ∧ Long a.reason a.properties then 3 + a.properties.block_size else 2

def AckOk (version : ProtocolVersion) (a : Ack) : Prop :=
  if version = .V5 then a.properties.BlockOk .PubAck else a.reason = 0 ∧ a.properties = []

theorem body_ack (version : ProtocolVersion) :
    Body (decode_ack version) (encode_ack · version) (ack_size version) (AckOk version) := by
  constructor
  · rintro ⟨pkid, reason, properties⟩ hok
    obtain ⟨id, hid, hidlen, hreadid⟩ := lawful_u16.back (a := pkid) trivial
    cases hid
    cases version with
    | V311 =>
      obtain ⟨hr, hp⟩ : reason = 0 ∧ properties = [] := hok
      subst hr hp
      refine ⟨put_u16 pkid, rfl, hidlen, ?_⟩
      have hread := hreadid []
      rw [List.append_nil] at hread
      exact hread.bind (gives_end.bind (by simp))
    | V5 =>
      have hblock : properties.BlockOk .PubAck := hok
      by_cases hlong : Long reason properties
      · obtain ⟨block, hput, hlen, hread⟩ := trailing_back hblock
        obtain ⟨r, hr, -, hreadr⟩ := lawful_u8.back (a := reason) trivial
        cases hr
        refine ⟨put_u16 pkid ++ put_u8 reason ++ block, ?_, ?_, ?_⟩
        · show (if (ProtocolVersion.V5 = .V5 ∧ Long reason properties) then _ else _) = _
          rw [if_pos ⟨rfl, hlong⟩, hput]
          rfl
        · rw [ack_size, if_pos ⟨rfl, hlong⟩]
          simp only [List.length_append, hidlen, hlen, put_u8, List.length_singleton]
        · rw [List.append_assoc]
          refine (hreadid _).bind ?_
          refine Gives.bind (gives_isEmpty.mpr ⟨rfl, rfl⟩) ?_
          refine (hreadr block).bind (hread.bind ?_)
          exact gives_end.bind (by simp)
      · obtain ⟨hr, hp⟩ := not_long hlong
        subst hr hp
        refine ⟨put_u16 pkid, rfl, hidlen, ?_⟩
        have hread := hreadid []
        rw [List.append_nil] at hread
        exact hread.bind (Gives.bind (gives_isEmpty.mpr ⟨rfl, rfl⟩) (by simp))
  · intro bytes a rest hg
    obtain ⟨pkid, left, hid, hg⟩ := gives_bind.mp hg
    have hidlen := (lawful_u16.front hid).2
    cases version with
    | V311 =>
      obtain ⟨u, left', hempty, hg⟩ := gives_bind.mp hg
      obtain ⟨rfl, rfl⟩ := gives_pure.mp hg
      exact ⟨⟨rfl, rfl⟩, by simp [ack_size]⟩
    | V5 =>
      obtain ⟨empty, left', hempty, hg⟩ := gives_bind.mp hg
      obtain ⟨-, rfl⟩ := gives_isEmpty.mp hempty
      rcases gives_ite.mp hg with ⟨-, hg⟩ | ⟨-, hg⟩
      · obtain ⟨rfl, rfl⟩ := gives_pure.mp hg
        exact ⟨Properties.blockOk_nil _, by simp [ack_size, Long]⟩
      · obtain ⟨reason, left1, hreason, hg⟩ := gives_bind.mp hg
        obtain ⟨properties, left2, hprops, hg⟩ := gives_bind.mp hg
        obtain ⟨u, left3, hend, hg⟩ := gives_bind.mp hg
        obtain ⟨rfl, rfl⟩ := gives_pure.mp hg
        have hreasonlen := (lawful_u8.front hreason).2
        obtain ⟨hblock, hsize⟩ := trailing_front hprops
        refine ⟨hblock, ?_⟩
        unfold ack_size
        split
        · dsimp only
          rcases hsize with rfl | hsize
          · show 3 + 1 ≤ _
            omega
          · omega
        · omega

/-! ## DISCONNECT and AUTH -/

def reason_size (p : UInt8 × Properties) : Nat :=
  if Long p.1 p.2 then 1 + p.2.block_size else 0

theorem body_reason (ctx : PropContext) :
    Body (decode_reason_and_properties ctx) (fun p => encode_reason_and_properties p.1 p.2)
      reason_size (fun p => p.2.BlockOk ctx) := by
  constructor
  · rintro ⟨reason, properties⟩ hblock
    by_cases hlong : Long reason properties
    · obtain ⟨block, hput, hlen, hread⟩ := trailing_back hblock
      obtain ⟨r, hr, -, hreadr⟩ := lawful_u8.back (a := reason) trivial
      cases hr
      refine ⟨put_u8 reason ++ block, ?_, ?_, ?_⟩
      · show (if Long reason properties then _ else _) = _
        rw [if_pos hlong, hput]
        rfl
      · rw [reason_size, if_pos hlong]
        simp only [List.length_append, hlen, put_u8, List.length_singleton]
      · refine Gives.bind (gives_isEmpty.mpr ⟨rfl, rfl⟩) ?_
        refine (hreadr block).bind (hread.bind ?_)
        exact gives_end.bind (by simp)
    · obtain ⟨hr, hp⟩ := not_long hlong
      subst hr hp
      exact ⟨[], rfl, rfl, Gives.bind (gives_isEmpty.mpr ⟨rfl, rfl⟩) (by simp)⟩
  · intro bytes p rest hg
    obtain ⟨empty, left, hempty, hg⟩ := gives_bind.mp hg
    obtain ⟨-, rfl⟩ := gives_isEmpty.mp hempty
    rcases gives_ite.mp hg with ⟨-, hg⟩ | ⟨-, hg⟩
    · obtain ⟨rfl, rfl⟩ := gives_pure.mp hg
      exact ⟨Properties.blockOk_nil _, by simp [reason_size, Long]⟩
    · obtain ⟨reason, left1, hreason, hg⟩ := gives_bind.mp hg
      obtain ⟨properties, left2, hprops, hg⟩ := gives_bind.mp hg
      obtain ⟨u, left3, hend, hg⟩ := gives_bind.mp hg
      obtain ⟨rfl, rfl⟩ := gives_pure.mp hg
      have hreasonlen := (lawful_u8.front hreason).2
      obtain ⟨hblock, hsize⟩ := trailing_front hprops
      refine ⟨hblock, ?_⟩
      unfold reason_size
      split
      · dsimp only
        rcases hsize with rfl | hsize
        · show 1 + 1 ≤ _
          omega
        · omega
      · omega

def disconnect_size (version : ProtocolVersion) (d : Disconnect) : Nat :=
  if version = .V5 then reason_size (d.reason, d.properties) else 0

def DisconnectOk (version : ProtocolVersion) (d : Disconnect) : Prop :=
  if version = .V5 then d.properties.BlockOk .Disconnect else d.reason = 0 ∧ d.properties = []

theorem body_disconnect (version : ProtocolVersion) :
    Body (decode_disconnect version) (encode_disconnect · version) (disconnect_size version)
      (DisconnectOk version) := by
  cases version with
  | V311 =>
    constructor
    · rintro ⟨reason, properties⟩ ⟨hr, hp⟩
      dsimp only at hr hp
      subst hr hp
      exact ⟨[], rfl, rfl, gives_end.bind (by simp)⟩
    · intro bytes d rest hg
      obtain ⟨u, left, -, hg⟩ := gives_bind.mp hg
      obtain ⟨rfl, rfl⟩ := gives_pure.mp hg
      exact ⟨⟨rfl, rfl⟩, Nat.zero_le _⟩
  | V5 =>
    constructor
    · rintro ⟨reason, properties⟩ hok
      obtain ⟨bytes, hput, hlen, hread⟩ := (body_reason .Disconnect).back (a := (reason, properties)) hok
      exact ⟨bytes, hput, hlen, hread.bind (by simp)⟩
    · intro bytes d rest hg
      obtain ⟨⟨reason, properties⟩, left, hr, hg⟩ := gives_bind.mp hg
      obtain ⟨rfl, rfl⟩ := gives_pure.mp hg
      exact (body_reason .Disconnect).front hr

/-! ## CONNACK -/

def connack_size (version : ProtocolVersion) (a : ConnAck) : Nat :=
  2 + prop_size version a.properties

theorem body_connack (version : ProtocolVersion) :
    Body (decode_connack version) (encode_connack · version) (connack_size version)
      (fun a => PropsOk version .ConnAck a.properties) := by
  constructor
  · rintro ⟨session_present, code, properties⟩ hok
    obtain ⟨block, hput, hlen, hread⟩ := (lawful_props version .ConnAck).back hok
    have hall := hread []
    rw [List.append_nil] at hall
    obtain ⟨c, hc, -, hreadc⟩ := lawful_u8.back (a := code) trivial
    cases hc
    have hflags : ∀ b : Bool, ((if b then 1 else 0 : UInt8) &&& 0xFE = 0) ∧
        decide ((if b then 1 else 0 : UInt8) &&& 0x01 ≠ 0) = b := by decide
    obtain ⟨hreserved, hpresent⟩ := hflags session_present
    obtain ⟨f, hf, -, hreadf⟩ :=
      lawful_u8.back (a := (if session_present then 1 else 0 : UInt8)) trivial
    cases hf
    refine ⟨put_u8 (if session_present then 1 else 0) ++ put_u8 code ++ block, ?_, ?_, ?_⟩
    · show (do let properties ← put_properties version properties; _) = _
      rw [hput]
      rfl
    · simp only [connack_size, List.length_append, hlen, put_u8, List.length_singleton]
    · rw [List.append_assoc]
      refine (hreadf _).bind ((Gives.check hreserved _).bind ((hreadc block).bind ?_))
      exact hall.bind (gives_end.bind (by simp [hpresent]))
  · intro bytes a rest hg
    obtain ⟨flags, left, hflags, hg⟩ := gives_bind.mp hg
    obtain ⟨u, left1, hcheck, hg⟩ := gives_bind.mp hg
    obtain ⟨-, rfl⟩ := gives_check.mp hcheck
    obtain ⟨code, left2, hcode, hg⟩ := gives_bind.mp hg
    obtain ⟨properties, left3, hprops, hg⟩ := gives_bind.mp hg
    obtain ⟨u, left4, hend, hg⟩ := gives_bind.mp hg
    obtain ⟨rfl, rfl⟩ := gives_pure.mp hg
    obtain ⟨hok, hsize⟩ := (lawful_props version .ConnAck).front hprops
    have hf := (lawful_u8.front hflags).2
    have hc := (lawful_u8.front hcode).2
    refine ⟨hok, ?_⟩
    simp only [connack_size]
    omega

/-! ## PUBLISH -/

def pkid_size (p : Publish) : Nat := option_size (fun _ => 2) p.pkid

def publish_size (version : ProtocolVersion) (p : Publish) : Nat :=
  prefixed_len (as_bytes p.topic) + pkid_size p + prop_size version p.properties +
    p.payload.length

/-- A packet id, not zero, exactly above QoS 0, and no DUP at QoS 0. -/
def PublishOk (version : ProtocolVersion) (p : Publish) : Prop :=
  ¬ (p.qos = .AtMostOnce ∧ p.dup = true) ∧ p.pkid.isSome = decide (p.qos ≠ .AtMostOnce) ∧
    (∀ id, p.pkid = some id → id ≠ 0) ∧ StringOk p.topic ∧ PropsOk version .Publish p.properties

theorem publish_bits (dup retain : Bool) (qos : QoS) :
    let flags := (QoS.bits qos <<< 1) ||| bits_if dup 0x08 ||| bits_if retain 0x01
    decide (flags &&& 0x08 ≠ 0) = dup ∧ QoS.from_u8 ((flags >>> 1) &&& 0x03) = some qos ∧
      decide (flags &&& 0x01 ≠ 0) = retain := by
  cases dup <;> cases qos <;> cases retain <;> decide

theorem lawful_pkid :
    Lawful read_pkid (fun v => .ok (put_u16 v)) (fun _ => 2) (fun id => id ≠ 0) := by
  constructor
  · intro id hid
    obtain ⟨bytes, hput, hlen, hread⟩ := lawful_u16.back (a := id) trivial
    exact ⟨bytes, hput, hlen, fun rest =>
      (hread rest).bind ((Gives.check hid rest).bind (by simp))⟩
  · intro bytes id rest hg
    obtain ⟨v, left, hv, hg⟩ := gives_bind.mp hg
    obtain ⟨u, left', hcheck, hg⟩ := gives_bind.mp hg
    obtain ⟨rfl, rfl⟩ := gives_pure.mp hg
    obtain ⟨hid, rfl⟩ := gives_check.mp hcheck
    exact ⟨hid, (lawful_u16.front hv).2⟩

variable {p : Publish}

theorem put_pkid_eq (h : p.pkid.isSome = decide (p.qos ≠ .AtMostOnce)) :
    put_pkid p = put_option (fun v => .ok (put_u16 v)) p.pkid := by
  obtain ⟨dup, qos, retain, topic, pkid, properties, payload⟩ := p
  cases qos <;> cases pkid <;> first | rfl | cases h

variable {version : ProtocolVersion}

theorem publish_back (h : PublishOk version p) :
    ∃ bytes, encode_publish p version = .ok bytes ∧ bytes.length = publish_size version p ∧
      Gives (decode_publish version (publish_flags p)) bytes p [] := by
  obtain ⟨hdup, hpresent, hid, htopic, hprops⟩ := h
  obtain ⟨bdup, bqos, bretain⟩ : decide (publish_flags p &&& 0x08 ≠ 0) = p.dup ∧
      QoS.from_u8 ((publish_flags p >>> 1) &&& 0x03) = some p.qos ∧
      decide (publish_flags p &&& 0x01 ≠ 0) = p.retain := publish_bits p.dup p.retain p.qos
  obtain ⟨topic, hputt, hlent, hreadt⟩ := lawful_string.back htopic
  obtain ⟨block, hputp, hlenp, hreadp⟩ := (lawful_props version .Publish).back hprops
  obtain ⟨id, hputi, hleni, hreadi⟩ := read_if_back (fun _ => 2) p.pkid
    (fun id hsome => lawful_pkid.back (hid id hsome))
  refine ⟨topic ++ id ++ block ++ p.payload, ?_, ?_, ?_⟩
  · rw [encode_publish, hputt, put_pkid_eq hpresent, hputi, hputp]
    rfl
  · simp only [publish_size, pkid_size, List.length_append, hlent, hlenp, hleni]
  · rw [List.append_assoc, List.append_assoc]
    refine (Gives.orThrow bqos _).bind ?_
    refine (Gives.check (by rw [bdup]; exact hdup) _).bind ((hreadt _).bind ?_)
    rw [← hpresent]
    refine (hreadi _).bind ((hreadp _).bind ?_)
    refine Gives.bind (gives_read_remaining.mpr ⟨rfl, rfl⟩) ?_
    rw [bdup, bretain]
    simp

theorem publish_front {flags : UInt8} (hg : Gives (decode_publish version flags) bytes p rest) :
    PublishOk version p ∧ publish_size version p ≤ max bytes.length 4 := by
  obtain ⟨qos, left, hqos, hg⟩ := gives_bind.mp hg
  obtain ⟨-, rfl⟩ := gives_orThrow.mp hqos
  obtain ⟨u, left, hcheck, hg⟩ := gives_bind.mp hg
  obtain ⟨hdup, rfl⟩ := gives_check.mp hcheck
  obtain ⟨topic, left1, ht, hg⟩ := gives_bind.mp hg
  obtain ⟨pkid, left2, hi, hg⟩ := gives_bind.mp hg
  obtain ⟨properties, left3, hp, hg⟩ := gives_bind.mp hg
  obtain ⟨payload, left4, hr, hg⟩ := gives_bind.mp hg
  obtain ⟨rfl, rfl⟩ := gives_pure.mp hg
  obtain ⟨rfl, rfl⟩ := gives_read_remaining.mp hr
  obtain ⟨htopic, hlent⟩ := lawful_string.front ht
  obtain ⟨hpresent, hid, hleni⟩ := read_if_front lawful_pkid.front hi
  obtain ⟨hprops, hlenp⟩ := (lawful_props version .Publish).front hp
  refine ⟨⟨hdup, hpresent, hid, htopic, hprops⟩, ?_⟩
  simp only [publish_size, pkid_size]
  omega

/-! ## SUBSCRIBE and UNSUBSCRIBE -/

/-- In version 5 the retain handling is one of three; 3.1.1 has no options. -/
def FilterOk (version : ProtocolVersion) (f : SubscribeFilter) : Prop :=
  StringOk f.path ∧ if version = .V5 then f.options.retain_handling ≤ 2 else f.options = {}

def filter_size (f : SubscribeFilter) : Nat := prefixed_len (as_bytes f.path) + 1

theorem two_bits (x : UInt8) : (x &&& 0x03).toNat = x.toNat % 4 := by
  rw [UInt8.toNat_and]
  exact Nat.and_two_pow_sub_one_eq_mod x.toNat 2

theorem retain_handling_cases {x : UInt8} (h : x ≤ 2) : x = 0 ∨ x = 1 ∨ x = 2 := by
  have hn : x.toNat ≤ 2 := h
  have hc : x.toNat = 0 ∨ x.toNat = 1 ∨ x.toNat = 2 := by omega
  rcases hc with hc | hc | hc
  · exact .inl (UInt8.toNat_inj.mp hc)
  · exact .inr (.inl (UInt8.toNat_inj.mp hc))
  · exact .inr (.inr (UInt8.toNat_inj.mp hc))

theorem option_bits (qos : QoS) (no_local retain_as_published : Bool) {retain_handling : UInt8}
    (h : retain_handling ≤ 2) :
    let byte := QoS.bits qos ||| bits_if no_local 0x04 ||| bits_if retain_as_published 0x08 |||
      ((retain_handling &&& 0x03) <<< 4)
    QoS.from_u8 (byte &&& 0x03) = some qos ∧ byte &&& 0xC0 = 0 ∧
      (byte >>> 4) &&& 0x03 = retain_handling ∧ retain_handling ≠ 3 ∧
      decide (byte &&& 0x04 ≠ 0) = no_local ∧ decide (byte &&& 0x08 ≠ 0) = retain_as_published := by
  rcases retain_handling_cases h with rfl | rfl | rfl <;> cases qos <;> cases no_local <;>
    cases retain_as_published <;> decide

theorem filter_bits {f : SubscribeFilter} (h : FilterOk version f) :
    QoS.from_u8 (filter_byte version f &&& 0x03) = some f.qos ∧
      decode_options version (filter_byte version f) = pure f.options := by
  obtain ⟨path, qos, no_local, retain_as_published, retain_handling⟩ := f
  cases version with
  | V311 =>
    obtain ⟨-, hoptions⟩ := h
    cases hoptions
    have hbits : ∀ q, QoS.from_u8 (QoS.bits q &&& 0x03) = some q ∧ QoS.bits q &&& 0xFC = 0 := by
      intro q
      cases q <;> decide
    refine ⟨(hbits qos).1, ?_⟩
    show (if ProtocolVersion.V311 = .V5 then _ else if QoS.bits qos &&& 0xFC ≠ 0 then _ else _) = _
    rw [if_neg (by decide), if_neg (by simp [(hbits qos).2])]
  | V5 =>
    obtain ⟨bqos, breserved, bhandling, bthree, blocal, bpublished⟩ :=
      option_bits qos no_local retain_as_published h.2
    refine ⟨bqos, ?_⟩
    simp only [decode_options, filter_byte, if_true, bhandling, blocal, bpublished]
    rw [if_neg (by simp [breserved]), if_neg bthree]

theorem lawful_filter (version : ProtocolVersion) :
    Lawful (decode_filter version) (encode_filter version) filter_size (FilterOk version) := by
  constructor
  · intro f hf
    obtain ⟨hqos, hoptions⟩ := filter_bits hf
    obtain ⟨path, hput, hlen, hread⟩ := lawful_string.back hf.1
    obtain ⟨b, hb, -, hreadb⟩ := lawful_u8.back (a := filter_byte version f) trivial
    cases hb
    refine ⟨path ++ put_u8 (filter_byte version f), ?_, ?_, fun rest => ?_⟩
    · rw [encode_filter, hput]
      rfl
    · simp only [filter_size, List.length_append, hlen, put_u8, List.length_singleton]
    · rw [List.append_assoc]
      refine (hread _).bind ((hreadb rest).bind ((Gives.orThrow hqos rest).bind ?_))
      rw [hoptions]
      exact Gives.bind (gives_pure.mpr ⟨rfl, rfl⟩) (by simp)
  · intro bytes f rest hg
    obtain ⟨path, left, hpath, hg⟩ := gives_bind.mp hg
    obtain ⟨byte, left1, hbyte, hg⟩ := gives_bind.mp hg
    obtain ⟨qos, left2, hqos, hg⟩ := gives_bind.mp hg
    obtain ⟨-, rfl⟩ := gives_orThrow.mp hqos
    obtain ⟨options, left3, hoptions, hg⟩ := gives_bind.mp hg
    obtain ⟨rfl, rfl⟩ := gives_pure.mp hg
    obtain ⟨hok, hlen⟩ := lawful_string.front hpath
    have hone := (lawful_u8.front hbyte).2
    have hends : left1 = left3 ∧
        if version = .V5 then options.retain_handling ≤ 2 else options = {} := by
      unfold decode_options at hoptions
      cases version with
      | V5 =>
        rcases gives_ite.mp hoptions with ⟨-, h⟩ | ⟨hne, h⟩
        · rcases gives_ite.mp h with ⟨-, h⟩ | ⟨-, h⟩
          · exact absurd h gives_throw
          · rcases gives_ite.mp h with ⟨-, h⟩ | ⟨hthree, h⟩
            · exact absurd h gives_throw
            · obtain ⟨rfl, rfl⟩ := gives_pure.mp h
              refine ⟨rfl, ?_⟩
              have hbits := two_bits (byte >>> 4)
              have hne : ((byte >>> 4) &&& 0x03).toNat ≠ 3 := fun he =>
                hthree (UInt8.toNat_inj.mp he)
              show ((byte >>> 4) &&& 0x03).toNat ≤ 2
              omega
        · exact absurd rfl hne
      | V311 =>
        rcases gives_ite.mp hoptions with ⟨he, -⟩ | ⟨-, h⟩
        · cases he
        · rcases gives_ite.mp h with ⟨-, h⟩ | ⟨-, h⟩
          · exact absurd h gives_throw
          · obtain ⟨rfl, rfl⟩ := gives_pure.mp h
            exact ⟨rfl, rfl⟩
    obtain ⟨rfl, hvalid⟩ := hends
    refine ⟨⟨hok, hvalid⟩, ?_⟩
    simp only [filter_size] at hlen ⊢
    omega

theorem filter_size_pos (f : SubscribeFilter) : 0 < filter_size f := Nat.succ_pos _

/-- The size of a packet that is a packet id, properties and a list. -/
def listed_size {α : Type} (version : ProtocolVersion) (size : α → Nat) (l : List α)
    (ps : Properties) : Nat := 2 + prop_size version ps + (l.map size).sum

/-- What a packet that is a packet id, properties and a list must have. -/
def ListedOk {α : Type} (version : ProtocolVersion) (ctx : PropContext) (Valid : α → Prop)
    (l : List α) (ps : Properties) : Prop :=
  l ≠ [] ∧ (∀ a ∈ l, Valid a) ∧ PropsOk version ctx ps

section listed

variable {α β : Type} {item : Reader α} {put : α → Result Bytes} {size : α → Nat}
  {Valid : α → Prop}

theorem listed_back (h : Lawful item put size Valid) (hpos : ∀ a, 0 < size a)
    (version : ProtocolVersion) (ctx : PropContext) (pkid : UInt16) {l : List α}
    {ps : Properties} (hok : ListedOk version ctx Valid l ps) (e : CodecError)
    (mk : UInt16 → List α → Properties → β) :
    ∃ block items, put_properties version ps = .ok block ∧ putMany put l = .ok items ∧
      (put_u16 pkid ++ block ++ items).length = listed_size version size l ps ∧
      Gives (do
        let pkid ← read_u16
        let properties ← read_properties version ctx
        let l ← many item
        check (l ≠ []) e
        return mk pkid l properties) (put_u16 pkid ++ block ++ items) (mk pkid l ps) [] := by
  obtain ⟨hne, hvalid, hps⟩ := hok
  obtain ⟨id, hid, hidlen, hreadid⟩ := lawful_u16.back (a := pkid) trivial
  cases hid
  obtain ⟨block, hput, hlen, hread⟩ := (lawful_props version ctx).back hps
  obtain ⟨items, hputs, hlens, hreads⟩ := h.many_back hpos hvalid
  refine ⟨block, items, hput, hputs, ?_, ?_⟩
  · simp only [listed_size, List.length_append, hidlen, hlen, hlens]
  · rw [List.append_assoc]
    refine (hreadid _).bind ((hread items).bind (hreads.bind ?_))
    exact (Gives.check hne []).bind (by simp)

theorem listed_front (h : Lawful item put size Valid) (hpos : ∀ a, 0 < size a)
    (version : ProtocolVersion) (ctx : PropContext) {e : CodecError}
    (mk : UInt16 → List α → Properties → β) {bytes rest : Bytes} {b : β}
    (hg : Gives (do
      let pkid ← read_u16
      let properties ← read_properties version ctx
      let l ← many item
      check (l ≠ []) e
      return mk pkid l properties) bytes b rest) :
    ∃ pkid l ps, b = mk pkid l ps ∧ ListedOk version ctx Valid l ps ∧
      listed_size version size l ps ≤ max bytes.length 4 := by
  obtain ⟨pkid, left, hid, hg⟩ := gives_bind.mp hg
  obtain ⟨ps, left1, hprops, hg⟩ := gives_bind.mp hg
  obtain ⟨l, left2, hmany, hg⟩ := gives_bind.mp hg
  obtain ⟨u, left3, hcheck, hg⟩ := gives_bind.mp hg
  obtain ⟨rfl, rfl⟩ := gives_pure.mp hg
  obtain ⟨hne, rfl⟩ := gives_check.mp hcheck
  have hidlen := (lawful_u16.front hid).2
  obtain ⟨hps, hlen⟩ := (lawful_props version ctx).front hprops
  obtain ⟨-, hvalid, hlens⟩ := h.many_front hpos hmany
  refine ⟨pkid, l, ps, rfl, ⟨hne, hvalid, hps⟩, ?_⟩
  simp only [listed_size]
  omega

end listed

theorem body_subscribe (version : ProtocolVersion) :
    Body (decode_subscribe version) (encode_subscribe · version)
      (fun s => listed_size version filter_size s.filters s.properties)
      (fun s => ListedOk version .Subscribe (FilterOk version) s.filters s.properties) := by
  constructor
  · rintro ⟨pkid, filters, properties⟩ hok
    obtain ⟨block, items, hput, hputs, hlen, hread⟩ :=
      listed_back (lawful_filter version) filter_size_pos version .Subscribe pkid hok
        (.ProtocolViolation "SUBSCRIBE with no filters") Subscribe.mk
    refine ⟨_, ?_, hlen, hread⟩
    rw [encode_subscribe, if_neg hok.1, hput, hputs]
    rfl
  · intro bytes s rest hg
    obtain ⟨pkid, filters, properties, rfl, hok, hsize⟩ :=
      listed_front (lawful_filter version) filter_size_pos version .Subscribe Subscribe.mk hg
    exact ⟨hok, hsize⟩

theorem prefixed_pos (s : String) : 0 < prefixed_len (as_bytes s) := by
  unfold prefixed_len
  omega

theorem body_unsubscribe (version : ProtocolVersion) :
    Body (decode_unsubscribe version) (encode_unsubscribe · version)
      (fun u => listed_size version (fun s => prefixed_len (as_bytes s)) u.filters u.properties)
      (fun u => ListedOk version .Unsubscribe StringOk u.filters u.properties) := by
  constructor
  · rintro ⟨pkid, filters, properties⟩ hok
    obtain ⟨block, items, hput, hputs, hlen, hread⟩ :=
      listed_back lawful_string prefixed_pos version .Unsubscribe pkid hok
        (.ProtocolViolation "UNSUBSCRIBE with no filters") Unsubscribe.mk
    refine ⟨_, ?_, hlen, hread⟩
    rw [encode_unsubscribe, if_neg hok.1, hput, hputs]
    rfl
  · intro bytes u rest hg
    obtain ⟨pkid, filters, properties, rfl, hok, hsize⟩ :=
      listed_front lawful_string prefixed_pos version .Unsubscribe Unsubscribe.mk hg
    exact ⟨hok, hsize⟩

/-! ## SUBACK and UNSUBACK -/

theorem put_codes (codes : Bytes) :
    putMany (ε := CodecError) (fun v => .ok (put_u8 v)) codes = .ok codes := by
  induction codes with
  | nil => rfl
  | cons c codes ih =>
    rw [putMany, ih]
    rfl

/-- The codes of a packet are one byte each. -/
def codes_size (version : ProtocolVersion) (codes : Bytes) (ps : Properties) : Nat :=
  listed_size version (fun _ : UInt8 => 1) codes ps

def CodesOk (version : ProtocolVersion) (ctx : PropContext) (codes : Bytes) (ps : Properties) :
    Prop := ListedOk version ctx (fun _ => True) codes ps

theorem body_suback (version : ProtocolVersion) :
    Body (decode_suback version) (encode_suback · version)
      (fun a => codes_size version a.return_codes a.properties)
      (fun a => CodesOk version .SubAck a.return_codes a.properties) := by
  constructor
  · rintro ⟨pkid, codes, properties⟩ hok
    obtain ⟨block, items, hput, hputs, hlen, hread⟩ :=
      listed_back lawful_u8 (fun _ => Nat.one_pos) version .SubAck pkid hok
        (.ProtocolViolation "SUBACK with no return codes") SubAck.mk
    rw [put_codes] at hputs
    cases hputs
    refine ⟨_, ?_, hlen, hread⟩
    rw [encode_suback, hput]
    rfl
  · intro bytes a rest hg
    obtain ⟨pkid, codes, properties, rfl, hok, hsize⟩ :=
      listed_front lawful_u8 (fun _ => Nat.one_pos) version .SubAck SubAck.mk hg
    exact ⟨hok, hsize⟩

def unsuback_size (version : ProtocolVersion) (a : UnsubAck) : Nat :=
  if version = .V5 then codes_size version a.reason_codes a.properties else 2

def UnsubAckOk (version : ProtocolVersion) (a : UnsubAck) : Prop :=
  if version = .V5 then CodesOk version .UnsubAck a.reason_codes a.properties
  else a.reason_codes = [] ∧ a.properties = []

theorem body_unsuback (version : ProtocolVersion) :
    Body (decode_unsuback version) (encode_unsuback · version) (unsuback_size version)
      (UnsubAckOk version) := by
  cases version with
  | V311 =>
    constructor
    · rintro ⟨pkid, codes, properties⟩ ⟨hc, hp⟩
      dsimp only at hc hp
      subst hc hp
      obtain ⟨id, hid, hidlen, hreadid⟩ := lawful_u16.back (a := pkid) trivial
      cases hid
      have hread := hreadid []
      rw [List.append_nil] at hread
      exact ⟨put_u16 pkid, rfl, hidlen, hread.bind (gives_end.bind (by simp))⟩
    · intro bytes a rest hg
      obtain ⟨pkid, left, hid, hg⟩ := gives_bind.mp hg
      obtain ⟨u, left', -, hg⟩ := gives_bind.mp hg
      obtain ⟨rfl, rfl⟩ := gives_pure.mp hg
      exact ⟨⟨rfl, rfl⟩, by simp [unsuback_size]⟩
  | V5 =>
    constructor
    · rintro ⟨pkid, codes, properties⟩ hok
      obtain ⟨block, items, hput, hputs, hlen, hread⟩ :=
        listed_back lawful_u8 (fun _ => Nat.one_pos) .V5 .UnsubAck pkid hok
          (.ProtocolViolation "UNSUBACK with no reason codes") UnsubAck.mk
      rw [put_codes] at hputs
      cases hputs
      refine ⟨_, ?_, hlen, hread⟩
      have hput' : properties.encode = .ok block := hput
      simp only [encode_unsuback, if_true, hput']
      rfl
    · intro bytes a rest hg
      obtain ⟨pkid, codes, properties, rfl, hok, hsize⟩ :=
        listed_front lawful_u8 (fun _ => Nat.one_pos) .V5 .UnsubAck UnsubAck.mk hg
      exact ⟨hok, hsize⟩

/-! ## CONNECT -/

def will_size (version : ProtocolVersion) (w : LastWill) : Nat :=
  prop_size version w.properties + prefixed_len (as_bytes w.topic) + prefixed_len w.payload

def WillOk (version : ProtocolVersion) (w : LastWill) : Prop :=
  PropsOk version .Will w.properties ∧ StringOk w.topic ∧ BinaryOk w.payload

variable {w : LastWill}

theorem will_back (h : WillOk version w) :
    ∃ bytes, encode_will version w = .ok bytes ∧ bytes.length = will_size version w ∧
      ∀ rest, Gives (decode_will version (QoS.bits w.qos) w.retain) (bytes ++ rest) w rest := by
  obtain ⟨hprops, htopic, hpayload⟩ := h
  obtain ⟨block, hputb, hlenb, hreadb⟩ := (lawful_props version .Will).back hprops
  obtain ⟨topic, hputt, hlent, hreadt⟩ := lawful_string.back htopic
  obtain ⟨payload, hputp, hlenp, hreadp⟩ := lawful_binary.back hpayload
  have hqos : QoS.from_u8 (QoS.bits w.qos) = some w.qos := by cases w.qos <;> decide
  refine ⟨block ++ topic ++ payload, ?_, ?_, fun rest => ?_⟩
  · rw [encode_will, hputb, hputt, hputp]
    rfl
  · simp only [will_size, List.length_append, hlenb, hlent, hlenp]
  · rw [List.append_assoc, List.append_assoc]
    refine (Gives.orThrow hqos _).bind ((hreadb _).bind ((hreadt _).bind ?_))
    exact (hreadp rest).bind (by simp)

theorem will_front {will_qos_bits : UInt8} {will_retain : Bool}
    (hg : Gives (decode_will version will_qos_bits will_retain) bytes w rest) :
    WillOk version w ∧ will_size version w + rest.length ≤ bytes.length := by
  obtain ⟨qos, left, hqos, hg⟩ := gives_bind.mp hg
  obtain ⟨-, rfl⟩ := gives_orThrow.mp hqos
  obtain ⟨properties, left1, hprops, hg⟩ := gives_bind.mp hg
  obtain ⟨topic, left2, htopic, hg⟩ := gives_bind.mp hg
  obtain ⟨payload, left3, hpayload, hg⟩ := gives_bind.mp hg
  obtain ⟨rfl, rfl⟩ := gives_pure.mp hg
  obtain ⟨hokb, hlenb⟩ := (lawful_props version .Will).front hprops
  obtain ⟨hokt, hlent⟩ := lawful_string.front htopic
  obtain ⟨hokp, hlenp⟩ := lawful_binary.front hpayload
  refine ⟨⟨hokb, hokt, hokp⟩, ?_⟩
  simp only [will_size]
  omega

def connect_size (c : Connect) : Nat :=
  10 + prop_size c.protocol c.properties + prefixed_len (as_bytes c.client_id) +
    option_size (will_size c.protocol) c.last_will +
    option_size (fun s => prefixed_len (as_bytes s)) c.username +
    option_size prefixed_len c.password

/-- The strings fit, and there is a password only with a user name. -/
structure ConnectOk (c : Connect) : Prop where
  props : PropsOk c.protocol .Connect c.properties
  client_id : StringOk c.client_id
  last_will : ∀ w, c.last_will = some w → WillOk c.protocol w
  username : ∀ s, c.username = some s → StringOk s
  password : ∀ b, c.password = some b → BinaryOk b
  login : ¬ (c.password.isSome = true ∧ c.username.isSome = false)

theorem connect_bits (clean username password : Bool) (will : UInt8)
    (h : will = 0 ∨ ∃ qos retain, will = (0x04 : UInt8) ||| (QoS.bits qos <<< 3) |||
      bits_if retain 0x20) :
    let flags : UInt8 := bits_if clean 0x02 ||| will ||| bits_if username 0x80 ||| bits_if password 0x40
    flags &&& 0x01 = 0 ∧ decide (flags &&& 0x02 ≠ 0) = clean ∧
      decide (flags &&& 0x40 ≠ 0) = password ∧ decide (flags &&& 0x80 ≠ 0) = username ∧
      flags &&& 0x04 = will &&& 0x04 ∧ (flags >>> 3) &&& (0x03 : UInt8) = (will >>> 3) &&& 0x03 ∧
      flags &&& 0x20 = will &&& 0x20 := by
  rcases h with rfl | ⟨qos, retain, rfl⟩
  · cases clean <;> cases username <;> cases password <;> decide
  · cases clean <;> cases username <;> cases password <;> cases qos <;> cases retain <;> decide

theorem will_bits (qos : QoS) (retain : Bool) :
    let will := (0x04 : UInt8) ||| (QoS.bits qos <<< 3) ||| bits_if retain 0x20
    decide (will &&& 0x04 ≠ 0) = true ∧ (will >>> 3) &&& 0x03 = QoS.bits qos ∧
      decide (will &&& 0x20 ≠ 0) = retain := by
  cases qos <;> cases retain <;> decide

theorem will_flags_cases (o : Option LastWill) :
    will_flags o = 0 ∨ ∃ qos retain, will_flags o =
      (0x04 : UInt8) ||| (QoS.bits qos <<< 3) ||| bits_if retain 0x20 := by
  cases o with
  | none => exact .inl rfl
  | some w => exact .inr ⟨w.qos, w.retain, rfl⟩

theorem will_flags_bits (o : Option LastWill) :
    decide (will_flags o &&& 0x04 ≠ 0) = o.isSome ∧
      ¬ (o.isSome = false ∧ ((will_flags o >>> 3) &&& 0x03 ≠ 0 ∨
        decide (will_flags o &&& 0x20 ≠ 0) = true)) ∧
      ∀ w, o = some w → (will_flags o >>> 3) &&& 0x03 = QoS.bits w.qos ∧
        decide (will_flags o &&& 0x20 ≠ 0) = w.retain := by
  cases o with
  | none => exact ⟨by decide, by decide, by simp⟩
  | some w =>
    obtain ⟨hflag, hqos, hretain⟩ := will_bits w.qos w.retain
    refine ⟨hflag, by simp, ?_⟩
    rintro v hv
    cases hv
    exact ⟨hqos, hretain⟩

structure FlagsFor (c : Connect) (flags : UInt8) : Prop where
  reserved : flags &&& 0x01 = 0
  clean : decide (flags &&& 0x02 ≠ 0) = c.clean_session
  will : decide (flags &&& 0x04 ≠ 0) = c.last_will.isSome
  password : decide (flags &&& 0x40 ≠ 0) = c.password.isSome
  username : decide (flags &&& 0x80 ≠ 0) = c.username.isSome
  no_will : ¬ (c.last_will.isSome = false ∧ ((flags >>> 3) &&& 0x03 ≠ 0 ∨
    decide (flags &&& 0x20 ≠ 0) = true))
  a_will : ∀ w, c.last_will = some w → (flags >>> 3) &&& 0x03 = QoS.bits w.qos ∧
    decide (flags &&& 0x20 ≠ 0) = w.retain

theorem connect_flags_for (c : Connect) : FlagsFor c (connect_flags c) := by
  obtain ⟨breserved, bclean, bpassword, busername, bflag, bqos, bretain⟩ :
      connect_flags c &&& 0x01 = 0 ∧ decide (connect_flags c &&& 0x02 ≠ 0) = c.clean_session ∧
      decide (connect_flags c &&& 0x40 ≠ 0) = c.password.isSome ∧
      decide (connect_flags c &&& 0x80 ≠ 0) = c.username.isSome ∧
      connect_flags c &&& 0x04 = will_flags c.last_will &&& 0x04 ∧
      (connect_flags c >>> 3) &&& (0x03 : UInt8) = (will_flags c.last_will >>> 3) &&& 0x03 ∧
      connect_flags c &&& 0x20 = will_flags c.last_will &&& 0x20 :=
    connect_bits c.clean_session c.username.isSome c.password.isSome _
      (will_flags_cases c.last_will)
  obtain ⟨wflag, wnone, wsome⟩ := will_flags_bits c.last_will
  refine ⟨breserved, bclean, ?_, bpassword, busername, ?_, ?_⟩
  · rw [bflag]
    exact wflag
  · rw [bqos, bretain]
    exact wnone
  · rw [bqos, bretain]
    exact wsome

theorem level_back (v : ProtocolVersion) : ProtocolVersion.from_level v.level = some v := by
  cases v <;> rfl

theorem name_back : ∃ bytes, put_string "MQTT" = .ok bytes ∧ bytes.length = 6 ∧
    ∀ rest, Gives read_string (bytes ++ rest) "MQTT" rest := by
  have hok : StringOk "MQTT" := by decide +kernel
  have hlen : prefixed_len (as_bytes "MQTT") = 6 := by decide +kernel
  rw [← hlen]
  exact lawful_string.back hok

theorem body_connect :
    Body decode_connect encode_connect connect_size ConnectOk := by
  constructor
  · intro c hok
    have hflags := connect_flags_for c
    obtain ⟨name, hputn, hlenn, hreadn⟩ := name_back
    obtain ⟨l, hl, -, hreadl⟩ := lawful_u8.back (a := c.protocol.level) trivial
    cases hl
    obtain ⟨f, hf, -, hreadf⟩ := lawful_u8.back (a := connect_flags c) trivial
    cases hf
    obtain ⟨k, hk, hlenk, hreadk⟩ := lawful_u16.back (a := c.keep_alive) trivial
    cases hk
    obtain ⟨block, hputb, hlenb, hreadb⟩ := (lawful_props c.protocol .Connect).back hok.props
    obtain ⟨id, hputi, hleni, hreadi⟩ := lawful_string.back hok.client_id
    -- The flags give the QoS and the retain flag of a will that is there.
    have hwill : ∀ w, c.last_will = some w → ∃ bytes, encode_will c.protocol w = .ok bytes ∧
        bytes.length = will_size c.protocol w ∧
        ∀ rest, Gives (decode_will c.protocol ((connect_flags c >>> 3) &&& 0x03)
          (decide (connect_flags c &&& 0x20 ≠ 0))) (bytes ++ rest) w rest := by
      intro w hw
      rw [(hflags.a_will w hw).1, (hflags.a_will w hw).2]
      exact will_back (hok.last_will w hw)
    obtain ⟨will, hputw, hlenw, hreadw⟩ := read_if_back (will_size c.protocol) c.last_will hwill
    obtain ⟨user, hputu, hlenu, hreadu⟩ := read_if_back (fun s => prefixed_len (as_bytes s))
      c.username (fun s hs => lawful_string.back (hok.username s hs))
    obtain ⟨pass, hputp, hlenp, hreadp⟩ := read_if_back prefixed_len c.password
      (fun b hb => lawful_binary.back (hok.password b hb))
    have hpass := hreadp []
    rw [List.append_nil] at hpass
    refine ⟨name ++ put_u8 c.protocol.level ++ put_u8 (connect_flags c) ++ put_u16 c.keep_alive ++
      block ++ id ++ will ++ user ++ pass, ?_, ?_, ?_⟩
    · rw [encode_connect, hputn, hputb, hputi, hputw, hputu, hputp]
      rfl
    · simp only [connect_size, List.length_append, hlenn, hlenk, hlenb, hleni, hlenw, hlenu, hlenp,
        put_u8, List.length_singleton]
    · simp only [List.append_assoc]
      refine (hreadn _).bind ((Gives.check rfl _).bind ((hreadl _).bind ?_))
      refine (Gives.orThrow (level_back _) _).bind ((hreadf _).bind ?_)
      refine (Gives.check hflags.reserved _).bind ?_
      rw [hflags.clean, hflags.will, hflags.password, hflags.username]
      refine (Gives.check hflags.no_will _).bind ((hreadk _).bind ((hreadb _).bind ?_))
      refine (hreadi _).bind ((hreadw _).bind ((hreadu _).bind ?_))
      refine (Gives.check hok.login _).bind (hpass.bind ?_)
      exact gives_end.bind (by simp)
  · intro bytes c rest hg
    obtain ⟨name, left, hname, hg⟩ := gives_bind.mp hg
    obtain ⟨u, left', hcheck, hg⟩ := gives_bind.mp hg
    obtain ⟨rfl, rfl⟩ := gives_check.mp hcheck
    obtain ⟨level, left1, hlevel, hg⟩ := gives_bind.mp hg
    obtain ⟨protocol, left2, hprotocol, hg⟩ := gives_bind.mp hg
    obtain ⟨-, rfl⟩ := gives_orThrow.mp hprotocol
    obtain ⟨flags, left3, hflags, hg⟩ := gives_bind.mp hg
    obtain ⟨u, left', hcheck, hg⟩ := gives_bind.mp hg
    obtain ⟨-, rfl⟩ := gives_check.mp hcheck
    obtain ⟨u, left', hcheck, hg⟩ := gives_bind.mp hg
    obtain ⟨-, rfl⟩ := gives_check.mp hcheck
    obtain ⟨keep_alive, left4, halive, hg⟩ := gives_bind.mp hg
    obtain ⟨properties, left5, hprops, hg⟩ := gives_bind.mp hg
    obtain ⟨client_id, left6, hid, hg⟩ := gives_bind.mp hg
    obtain ⟨last_will, left7, hwill, hg⟩ := gives_bind.mp hg
    obtain ⟨username, left8, huser, hg⟩ := gives_bind.mp hg
    obtain ⟨u, left', hcheck, hg⟩ := gives_bind.mp hg
    obtain ⟨hlogin, rfl⟩ := gives_check.mp hcheck
    obtain ⟨password, left9, hpass, hg⟩ := gives_bind.mp hg
    obtain ⟨u, left10, hend, hg⟩ := gives_bind.mp hg
    obtain ⟨rfl, rfl⟩ := gives_pure.mp hg
    have hlenn := (lawful_string.front hname).2
    have hmqtt : prefixed_len (as_bytes "MQTT") = 6 := by decide +kernel
    have hlenl := (lawful_u8.front hlevel).2
    have hlenf := (lawful_u8.front hflags).2
    have hlenk := (lawful_u16.front halive).2
    obtain ⟨hokb, hlenb⟩ := (lawful_props protocol .Connect).front hprops
    obtain ⟨hoki, hleni⟩ := lawful_string.front hid
    obtain ⟨-, hokw, hlenw⟩ := read_if_front will_front hwill
    obtain ⟨hissome, hoku, hlenu⟩ := read_if_front lawful_string.front huser
    obtain ⟨hispass, hokp, hlenp⟩ := read_if_front lawful_binary.front hpass
    refine ⟨⟨hokb, hoki, hokw, hoku, hokp, ?_⟩, ?_⟩
    · rw [hissome, hispass]
      exact hlogin
    · simp only [connect_size]
      rw [hmqtt] at hlenn
      omega

end mqtt_codec
