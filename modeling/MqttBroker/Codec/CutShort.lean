-- When `Packet::decode` says `Incomplete` of a frame that is all there: the variable byte
-- integer in front of a property section, or of a subscription identifier in it, is cut by the
-- end of what it is read from. Every other read that meets the end says `MalformedPacket`.
import MqttBroker.Codec.RoundTrip
import MqttBroker.Lib.ReadErrors

namespace mqtt_codec

open Wire mqtt_core

/-- The reader cannot ask for more bytes. -/
abbrev Settles {α : Type} (m : Reader α) : Prop := Spares CodecError.Incomplete m

/-! ## Fields that do not ask for more -/

theorem settles_read_bytes (n : Nat) : Settles (read_bytes n) := by
  intro bytes h
  have hrun : (if bytes.length < n then Except.error ensure_error
    else .ok (bytes.take n, bytes.drop n)) = .error .Incomplete := h
  split at hrun <;> cases hrun

theorem settles_u8 : Settles read_u8 := (settles_read_bytes 1).bind fun _ => spares_pure _

theorem settles_u16 : Settles read_u16 := (settles_read_bytes 2).bind fun _ => spares_pure _

theorem settles_u32 : Settles read_u32 := (settles_read_bytes 4).bind fun _ => spares_pure _

theorem settles_binary : Settles read_binary := settles_u16.bind fun _ => settles_read_bytes _

theorem settles_string : Settles read_string :=
  settles_binary.bind fun _ => (spares_throw (by simp)).ite (spares_orThrow (by simp))

theorem settles_flag (what : String) : Settles (Property.read_flag what) :=
  settles_u8.bind fun _ => (spares_pure _).ite (spares_throw (by simp))

theorem settles_pair : Settles Property.read_string_pair :=
  settles_string.bind fun _ => settles_string.bind fun _ => spares_pure _

theorem settles_expect_empty : Settles expect_empty :=
  spares_isEmpty.bind fun _ => spares_check (by simp)

theorem settles_read_remaining : Settles read_remaining := by
  intro bytes h
  cases h

variable {α : Type}

theorem settles_read_if {read : Reader α} (h : Settles read) (flag : Bool) :
    Settles (read_if flag read) := (h.bind fun _ => spares_pure _).ite (spares_pure _)

theorem settles_pkid : Settles read_pkid :=
  settles_u16.bind fun _ => (spares_check (by simp)).bind fun _ => spares_pure _

theorem settles_flags (actual expected : UInt8) : Settles (expect_flags actual expected) :=
  spares_check (by simp)

theorem settles_options (version : ProtocolVersion) (byte : UInt8) :
    Settles (decode_options version byte) := by
  unfold decode_options
  refine Spares.ite (Spares.ite (spares_throw (by simp)) ?_) ?_
  · exact (spares_throw (by simp)).ite (spares_pure _)
  · exact (spares_throw (by simp)).ite (spares_pure _)

theorem settles_filter (version : ProtocolVersion) : Settles (decode_filter version) :=
  settles_string.bind fun _ => settles_u8.bind fun _ => (spares_orThrow (by simp)).bind fun _ =>
    (settles_options version _).bind fun _ => spares_pure _

/-! ## A variable byte integer that is cut -/

/-- Fewer bytes than an integer may take, and every one of them says that another follows. -/
def CutVarint (bytes : Bytes) : Prop := bytes.length < 4 ∧ ∀ b ∈ bytes, 128 ≤ b.toNat

theorem decode_loop_none (bytes : Bytes) (i value multiplier : Nat) :
    varint.decode_loop bytes i value multiplier = none ↔ ∀ b ∈ bytes, 128 ≤ b.toNat := by
  induction bytes generalizing i value multiplier with
  | nil => simp [varint.decode_loop]
  | cons b bytes ih =>
    rw [varint.decode_loop_cons, List.forall_mem_cons]
    split
    · rename_i hlt
      simp only [reduceCtorEq, false_iff, not_and]
      omega
    · rename_i hge
      rw [ih]
      exact (and_iff_right (Nat.not_lt.mp hge)).symm

theorem fails_varint (bytes : Bytes) : Fails read_varint bytes .Incomplete ↔ CutVarint bytes := by
  have hrun : Fails read_varint bytes .Incomplete ↔ varint.decode bytes = .error .Incomplete := by
    unfold Fails read_varint StateT.run
    dsimp only
    rcases varint.decode bytes with e | ⟨v, n⟩ <;> simp
  rw [hrun, varint.decode, CutVarint, ← decode_loop_none bytes 0 0 1]
  cases hloop : varint.decode_loop (bytes.take 4) 0 0 1 with
  | some p =>
    simp only [reduceCtorEq, false_iff, not_and]
    intro hlen hnone
    rw [List.take_of_length_le (Nat.le_of_lt hlen), hnone] at hloop
    cases hloop
  | none =>
    by_cases hlen : bytes.length < 4
    · rw [List.take_of_length_le (Nat.le_of_lt hlen)] at hloop
      simp [hlen, hloop]
    · simp [hlen]

/-- A block whose properties are read one after another, up to a subscription identifier that
is cut. -/
inductive CutBlock : Bytes → Prop
  | here {rest : Bytes} : CutVarint rest → CutBlock (0x0B :: rest)
  | next {block left : Bytes} {p : Property} :
      Gives Property.read_one block p left → CutBlock left → CutBlock block

theorem fails_property (id : UInt8) (bytes : Bytes) :
    Fails (Property.decode id) bytes .Incomplete ↔ id = 0x0B ∧ CutVarint bytes := by
  have hnot {m : Reader Property} (hm : Settles m) (hid : id ≠ 0x0B) :
      Fails m bytes .Incomplete ↔ id = 0x0B ∧ CutVarint bytes :=
    iff_of_false (hm bytes) fun h => hid h.1
  unfold Property.decode
  -- one identifier reads a variable byte integer, the others read fields that settle
  split
  all_goals first
    | exact hnot ((settles_flag _).bind fun _ => spares_pure _) (by decide)
    | exact hnot (settles_u8.bind fun _ => spares_pure _) (by decide)
    | exact hnot (settles_u16.bind fun _ => spares_pure _) (by decide)
    | exact hnot (settles_u32.bind fun _ => spares_pure _) (by decide)
    | exact hnot (settles_string.bind fun _ => spares_pure _) (by decide)
    | exact hnot (settles_binary.bind fun _ => spares_pure _) (by decide)
    | exact hnot (settles_pair.bind fun _ => spares_pure _) (by decide)
    | skip
  · rw [fails_last fun _ => spares_pure _, Property.read_varint_u32,
      fails_last fun _ => spares_pure _, fails_varint]
    simp
  · apply hnot (spares_throw (by simp))
    assumption

variable {bytes : Bytes}

theorem gives_read_u8 {left : Bytes} {v : UInt8} :
    Gives read_u8 bytes v left ↔ bytes = v :: left := by
  constructor
  · intro h
    obtain ⟨b, left', hb, hpure⟩ := gives_bind.mp h
    obtain ⟨rfl, hlen⟩ := gives_read_bytes.mp hb
    obtain ⟨x, rfl⟩ := List.length_eq_one_iff.mp hlen
    obtain ⟨rfl, rfl⟩ := gives_pure.mp hpure
    simp [ByteCodec.ofBe]
  · rintro rfl
    obtain ⟨bytes, hput, -, hread⟩ := lawful_u8.back (a := v) trivial
    cases hput
    exact hread left

theorem fails_read_one (bytes : Bytes) :
    Fails Property.read_one bytes .Incomplete ↔ ∃ rest, bytes = 0x0B :: rest ∧ CutVarint rest := by
  unfold Property.read_one
  rw [fails_bind, or_iff_right (settles_u8 bytes)]
  constructor
  · rintro ⟨id, left, hid, h⟩
    obtain ⟨rfl, hcut⟩ := (fails_property id left).mp h
    exact ⟨left, gives_read_u8.mp hid, hcut⟩
  · rintro ⟨rest, rfl, hcut⟩
    exact ⟨0x0B, rest, gives_read_u8.mpr rfl, (fails_property _ rest).mpr ⟨rfl, hcut⟩⟩

theorem cutBlock_iff (block : Bytes) :
    CutBlock block ↔ Fails Property.read_one block .Incomplete ∨
      After Property.read_one (fun _ left => CutBlock left) block := by
  rw [fails_read_one]
  constructor
  · rintro (⟨hcut⟩ | ⟨hp, hcut⟩)
    · exact .inl ⟨_, rfl, hcut⟩
    · exact .inr ⟨_, _, hp, hcut⟩
  · rintro (⟨rest, rfl, hcut⟩ | ⟨p, left, hp, hcut⟩)
    · exact .here hcut
    · exact .next hp hcut

theorem not_cutBlock_nil : ¬ CutBlock [] := by
  intro h
  rcases (cutBlock_iff []).mp h with h | ⟨p, left, hp, -⟩
  · obtain ⟨rest, hnil, -⟩ := (fails_read_one []).mp h
    cases hnil
  · have := (Property.lawful_one.front hp).2
    have := p.size_pos
    simp at *
    omega

theorem fails_block (block : Bytes) :
    Fails (many Property.read_one) block .Incomplete ↔ CutBlock block := by
  have hloop (fuel : Nat) (block : Bytes) (hfuel : block.length ≤ fuel) :
      Fails (manyLoop Property.read_one fuel) block .Incomplete ↔ CutBlock block := by
    induction fuel generalizing block with
    | zero =>
      obtain rfl : block = [] := List.length_eq_zero_iff.mp (by omega)
      exact iff_of_false (spares_pure [] []) not_cutBlock_nil
    | succ fuel ih =>
      cases block with
      | nil =>
        refine iff_of_false ?_ not_cutBlock_nil
        intro h
        cases h
      | cons b block =>
        have hstep : Fails (manyLoop Property.read_one (fuel + 1)) (b :: block) .Incomplete ↔
            Fails (do
              let p ← Property.read_one
              let ps ← manyLoop Property.read_one fuel
              return p :: ps) (b :: block) .Incomplete := Iff.rfl
        rw [hstep, fails_bind, cutBlock_iff]
        refine or_congr_right (exists_congr fun p => exists_congr fun left => ?_)
        refine and_congr_right fun hp => ?_
        have hlen := (Property.lawful_one.front hp).2
        have hpos := p.size_pos
        show Fails _ left _ ↔ CutBlock left
        rw [fails_last fun _ => spares_pure _]
        exact ih left (by simp only [List.length_cons] at hfuel hlen; omega)
  exact hloop block.length block (le_refl _)

/-! ## A property section that is cut -/

/-- The length of the section is cut by the end of the body, or a subscription identifier in
the section by the end of the section. -/
def CutSection (bytes : Bytes) : Prop :=
  CutVarint bytes ∨ ∃ block left, Gives read_varint bytes block.length (block ++ left) ∧
    CutBlock block

theorem settles_validate (ctx : PropContext) (ps : Properties) :
    Settles (lift (ps.validate_for ctx)) := by
  have hloop (seen : UInt64) : Properties.validate_loop ctx ps seen ≠ .error .Incomplete := by
    induction ps generalizing seen with
    | nil => simp [Properties.validate_loop]
    | cons p ps ih =>
      unfold Properties.validate_loop
      dsimp only
      split_ifs
      all_goals first
        | exact ih _
        | simp
  intro bytes h
  unfold Properties.validate_for lift at h
  split at h
  · cases h
  · rename_i e he
    cases h
    exact hloop 0 he

theorem fails_section (ctx : PropContext) (bytes : Bytes) :
    Fails (Properties.decode_for ctx) bytes .Incomplete ↔ CutSection bytes := by
  have hblock (block : Bytes) (left : Bytes) :
      Fails (lift (Properties.decode_block block)) left .Incomplete ↔ CutBlock block := by
    rw [← fails_block]
    unfold Properties.decode_block Fails
    rcases (many Property.read_one).run block with e | ⟨ps, rest⟩
    · show Except.error e = _ ↔ Except.error e = _
      simp
    · show Except.ok (ps, left) = _ ↔ Except.ok (ps, rest) = _
      simp
  unfold Properties.decode_for Properties.decode CutSection
  rw [fails_last fun ps => (settles_validate ctx ps).bind fun _ => spares_pure _, fails_bind,
    fails_varint]
  refine or_congr_right ⟨?_, ?_⟩
  · rintro ⟨len, left, hlen, h⟩
    rcases fails_bind.mp h with hread | ⟨block, left', hread, hcut⟩
    · exact absurd hread (settles_read_bytes len left)
    · obtain ⟨rfl, rfl⟩ := gives_read_bytes.mp hread
      exact ⟨block, left', hlen, (hblock block left').mp hcut⟩
  · rintro ⟨block, left, hlen, hcut⟩
    refine ⟨block.length, block ++ left, hlen, fails_bind.mpr (.inr ?_)⟩
    exact ⟨block, left, gives_read_bytes.mpr ⟨rfl, rfl⟩, (hblock block left).mpr hcut⟩

/-- The section behind the fields that `front` reads is cut. -/
def Cut {α : Type} (front : Reader α) : Bytes → Prop := After front fun _ => CutSection

variable {β : Type} {ctx : PropContext}

/-- A section that stands here, and fields behind it that settle. -/
theorem fails_here {k : Properties → Reader α} {b : β} (hk : ∀ ps, Settles (k ps)) :
    Fails (Properties.decode_for ctx >>= k) bytes .Incomplete ↔
      Cut (pure b : Reader β) bytes := by
  rw [fails_last hk, fails_section, Cut, after_pure]

/-! ## The fields in front of the sections -/

/-- Something is left. -/
def expect_more : Reader Unit := do
  let empty ← isEmpty
  check (empty = false) ensure_error

/-- CONNECT up to its properties, in version 5. -/
def connect_front : Reader UInt8 := do
  let proto_name ← read_string
  check (proto_name = "MQTT") (.ProtocolViolation "unsupported protocol name")
  let level ← read_u8
  check (level = 5) (.UnsupportedProtocol level)
  let flags ← read_u8
  check (flags &&& 0x01 = 0) (.MalformedPacket "CONNECT reserved flag set")
  check (¬ (decide (flags &&& 0x04 ≠ 0) = false ∧
      ((flags >>> 3) &&& 0x03 ≠ 0 ∨ decide (flags &&& 0x20 ≠ 0) = true)))
    (.MalformedPacket "will qos/retain set without will flag")
  let _ ← read_u16
  return flags

def will_front_of (flags : UInt8) : Reader QoS := do
  let _ ← Properties.decode_for .Connect
  let _ ← read_string
  check (flags &&& 0x04 ≠ 0) (.MalformedPacket "no will")
  orThrow (QoS.from_u8 ((flags >>> 3) &&& 0x03)) (.MalformedPacket "invalid will QoS")

def connack_front (flags : UInt8) : Reader Unit := do
  expect_flags flags 0
  let ack_flags ← read_u8
  check (ack_flags &&& 0xFE = 0) (.MalformedPacket "CONNACK reserved flags set")
  let _ ← read_u8

def publish_front_of (flags : UInt8) : Reader Unit := do
  let qos ← orThrow (QoS.from_u8 ((flags >>> 1) &&& 0x03))
    (.MalformedPacket "invalid PUBLISH QoS (3)")
  check (¬ (qos = .AtMostOnce ∧ decide (flags &&& 0x08 ≠ 0) = true))
    (.MalformedPacket "DUP set on QoS 0 PUBLISH")
  let _ ← read_string
  let _ ← read_if (decide (qos ≠ .AtMostOnce)) read_pkid

def ack_front (flags expected : UInt8) : Reader Unit := do
  expect_flags flags expected
  let _ ← read_u16
  expect_more
  let _ ← read_u8
  expect_more
  return ()

def listed_front_of (flags expected : UInt8) : Reader Unit := do
  expect_flags flags expected
  let _ ← read_u16

def reason_front (flags : UInt8) : Reader Unit := do
  expect_flags flags 0
  expect_more
  let _ ← read_u8
  expect_more
  return ()

/-- A property section of the body is cut, behind fields that are read. -/
def CutIn (header : FixedHeader) (version : ProtocolVersion) (frame : Bytes) : Prop :=
  match header.packet_type with
  | .Connect => After connect_front
      (fun flags left => CutSection left ∨ Cut (will_front_of flags) left) frame
  | .ConnAck => version = .V5 ∧ Cut (connack_front header.flags) frame
  | .Publish => version = .V5 ∧ Cut (publish_front_of header.flags) frame
  | .PubAck | .PubRec | .PubComp => version = .V5 ∧ Cut (ack_front header.flags 0) frame
  | .PubRel => version = .V5 ∧ Cut (ack_front header.flags 0x02) frame
  | .Subscribe | .Unsubscribe => version = .V5 ∧ Cut (listed_front_of header.flags 0x02) frame
  | .SubAck | .UnsubAck => version = .V5 ∧ Cut (listed_front_of header.flags 0) frame
  | .Disconnect | .Auth => version = .V5 ∧ Cut (reason_front header.flags) frame
  | .PingReq | .PingResp => False

variable {version : ProtocolVersion} {flags expected : UInt8} {frame : Bytes}

/-! ## The bodies -/

theorem fails_by_version {m : ProtocolVersion → Reader α} {C : Prop} (hold : Settles (m .V311))
    (hnew : Fails (m .V5) frame .Incomplete ↔ C) :
    Fails (m version) frame .Incomplete ↔ version = .V5 ∧ C := by
  cases version with
  | V311 => exact iff_of_false (hold frame) (by simp)
  | V5 => simpa using hnew

theorem fails_flagged {m : ProtocolVersion → Reader α} {mk : α → Packet} {front : Reader β}
    (hold : Settles (m .V311))
    (hnew : ∀ left, Fails (m .V5) left .Incomplete ↔ Cut front left) :
    Fails (do expect_flags flags expected; return mk (← m version)) frame .Incomplete ↔
      version = .V5 ∧ Cut (do expect_flags flags expected; front) frame := by
  apply fails_by_version (m := fun version => do
    expect_flags flags expected
    return mk (← m version))
  · exact (settles_flags _ _).bind fun _ => hold.bind fun _ => spares_pure _
  · refine fails_step (settles_flags _ _) fun _ left => ?_
    rw [fails_last fun _ => spares_pure _]
    exact hnew left

theorem fails_connack :
    Fails (do expect_flags flags 0; return Packet.ConnAck (← decode_connack version)) frame
      .Incomplete ↔ version = .V5 ∧ Cut (connack_front flags) frame := by
  apply fails_flagged
  · exact settles_u8.bind fun _ => (spares_check (by simp)).bind fun _ => settles_u8.bind fun _ =>
      (spares_pure _).bind fun _ => settles_expect_empty.bind fun _ => spares_pure _
  · refine fun left => fails_step settles_u8 fun _ left =>
      fails_step (spares_check (by simp)) fun _ left => fails_step settles_u8 fun _ left => ?_
    exact fails_here fun _ => settles_expect_empty.bind fun _ => spares_pure _

theorem fails_publish :
    Fails (do return Packet.Publish (← decode_publish version flags)) frame .Incomplete ↔
      version = .V5 ∧ Cut (publish_front_of flags) frame := by
  apply fails_by_version (m := fun version => do
    return Packet.Publish (← decode_publish version flags))
  · exact ((spares_orThrow (by simp)).bind fun _ => (spares_check (by simp)).bind fun _ =>
      settles_string.bind fun _ => (settles_read_if settles_pkid _).bind fun _ =>
      (spares_pure _).bind fun _ => settles_read_remaining.bind fun _ =>
      spares_pure _).bind fun _ => spares_pure _
  · rw [fails_last fun _ => spares_pure _]
    refine fails_step (spares_orThrow (by simp)) fun _ left =>
      fails_step (spares_check (by simp)) fun _ left => fails_step settles_string fun _ left =>
      fails_step (settles_read_if settles_pkid _) fun _ left => ?_
    exact fails_here fun _ => settles_read_remaining.bind fun _ => spares_pure _

theorem gives_expect_more {u : Unit} {rest : Bytes} :
    Gives expect_more bytes u rest ↔ bytes ≠ [] ∧ bytes = rest := by
  unfold expect_more
  rw [gives_bind]
  simp [and_assoc]

theorem fails_more {short long : Reader α} {front : Reader β} (hshort : Settles short)
    (hlong : Fails long bytes .Incomplete ↔ Cut front bytes) :
    Fails (do if (← isEmpty) then short else long) bytes .Incomplete ↔
      Cut (do expect_more; front) bytes := by
  have hif : Fails (do if (← isEmpty) then short else long) bytes .Incomplete ↔
      bytes ≠ [] ∧ Fails long bytes .Incomplete := by
    cases bytes with
    | nil => exact iff_of_false (hshort []) (by simp)
    | cons b bytes => exact (and_iff_right (by simp)).symm
  rw [hif, hlong]
  constructor
  · rintro ⟨hne, c, left, hc, hcut⟩
    exact ⟨c, left, gives_bind.mpr ⟨(), bytes, gives_expect_more.mpr ⟨hne, rfl⟩, hc⟩, hcut⟩
  · rintro ⟨c, left, hc, hcut⟩
    obtain ⟨u, mid, hmore, hc⟩ := gives_bind.mp hc
    obtain ⟨hne, rfl⟩ := gives_expect_more.mp hmore
    exact ⟨hne, c, left, hc, hcut⟩

theorem fails_trailing {k : UInt8 → Properties → Reader α}
    (hk : ∀ reason ps, Settles (k reason ps)) :
    Fails (do
        let reason ← read_u8
        let properties ← read_trailing ctx
        k reason properties) bytes .Incomplete ↔
      Cut (do let _ ← read_u8; expect_more; return ()) bytes := by
  refine fails_step settles_u8 fun reason left => ?_
  rw [fails_last (hk reason)]
  apply fails_more (spares_pure [])
  rw [fails_section, Cut, after_pure]

theorem fails_ack {mk : Ack → Packet} :
    Fails (do expect_flags flags expected; return mk (← decode_ack version)) frame .Incomplete ↔
      version = .V5 ∧ Cut (ack_front flags expected) frame := by
  apply fails_flagged
  · exact settles_u16.bind fun _ => settles_expect_empty.bind fun _ => spares_pure _
  · refine fun left => fails_step settles_u16 fun pkid left => fails_more (spares_pure _) ?_
    exact fails_trailing fun _ _ => settles_expect_empty.bind fun _ => spares_pure _

theorem fails_reason (ctx : PropContext) :
    Fails (decode_reason_and_properties ctx) frame .Incomplete ↔
      Cut (do expect_more; let _ ← read_u8; expect_more; return ()) frame :=
  fails_more (spares_pure _) (fails_trailing fun _ _ => settles_expect_empty.bind fun _ =>
    spares_pure _)

theorem fails_disconnect :
    Fails (do expect_flags flags 0; return Packet.Disconnect (← decode_disconnect version)) frame
      .Incomplete ↔ version = .V5 ∧ Cut (reason_front flags) frame := by
  apply fails_flagged
  · exact settles_expect_empty.bind fun _ => spares_pure _
  · exact fun left => (fails_last fun _ => spares_pure _).trans (fails_reason .Disconnect)

theorem fails_auth :
    Fails (do
        check (version = .V5) (.ProtocolViolation "AUTH is MQTT 5.0 only")
        expect_flags flags 0
        let (reason, properties) ← decode_reason_and_properties .Auth
        return Packet.Auth { reason, properties }) frame .Incomplete ↔
      version = .V5 ∧ Cut (reason_front flags) frame := by
  rw [fails_bind, or_iff_right (spares_check (by simp) frame)]
  constructor
  · rintro ⟨u, left, hcheck, h⟩
    obtain ⟨hversion, rfl⟩ := gives_check.mp hcheck
    refine ⟨hversion, (fails_step (settles_flags _ _) fun _ left => ?_).mp h⟩
    exact (fails_last fun _ => spares_pure _).trans (fails_reason .Auth)
  · rintro ⟨hversion, hcut⟩
    refine ⟨(), frame, gives_check.mpr ⟨hversion, rfl⟩, ?_⟩
    refine (fails_step (settles_flags _ _) fun _ left => ?_).mpr hcut
    exact (fails_last fun _ => spares_pure _).trans (fails_reason .Auth)

theorem fails_listed {k : UInt16 → Properties → Reader α} {mk : α → Packet}
    (hk : ∀ pkid ps, Settles (k pkid ps)) :
    Fails (do
        expect_flags flags expected
        let a ← (do
          let pkid ← read_u16
          let properties ← read_properties version ctx
          k pkid properties)
        return mk a) frame .Incomplete ↔
      version = .V5 ∧ Cut (listed_front_of flags expected) frame := by
  apply fails_flagged (m := fun version => do
    let pkid ← read_u16
    let properties ← read_properties version ctx
    k pkid properties)
  · exact settles_u16.bind fun pkid => (spares_pure _).bind fun ps => hk pkid ps
  · exact fun left => fails_step settles_u16 fun pkid left => fails_here (hk pkid)

theorem fails_unsuback :
    Fails (do expect_flags flags 0; return Packet.UnsubAck (← decode_unsuback version)) frame
      .Incomplete ↔ version = .V5 ∧ Cut (listed_front_of flags 0) frame := by
  apply fails_flagged
  · exact settles_u16.bind fun _ => settles_expect_empty.bind fun _ => spares_pure _
  · exact fun left => fails_step settles_u16 fun pkid left => fails_here fun _ =>
      settles_u8.many.bind fun _ => (spares_check (by simp)).bind fun _ => spares_pure _

/-! ## CONNECT -/

theorem settles_will_v311 (bits : UInt8) (retain : Bool) :
    Settles (decode_will .V311 bits retain) :=
  (spares_orThrow (by simp)).bind fun _ => (spares_pure _).bind fun _ => settles_string.bind
    fun _ => settles_binary.bind fun _ => spares_pure _

theorem settles_login {username_flag password_flag : Bool}
    {k : Option String → Option Bytes → Reader α} (hk : ∀ user pass, Settles (k user pass)) :
    Settles (do
      let username ← read_if username_flag read_string
      check (¬ (password_flag = true ∧ username_flag = false))
        (.MalformedPacket "password flag set without username flag")
      let password ← read_if password_flag read_binary
      k username password) :=
  (settles_read_if settles_string _).bind fun user => (spares_check (by simp)).bind fun _ =>
    (settles_read_if settles_binary _).bind fun pass => hk user pass

theorem fails_will {k : Option LastWill → Reader α} {retain : Bool}
    (hk : ∀ will, Settles (k will)) :
    Fails (do
        let will ← read_if (decide (flags &&& 0x04 ≠ 0))
          (decode_will .V5 ((flags >>> 3) &&& 0x03) retain)
        k will) bytes .Incomplete ↔
      Cut (do
        check (flags &&& 0x04 ≠ 0) (.MalformedPacket "no will")
        orThrow (QoS.from_u8 ((flags >>> 3) &&& 0x03)) (.MalformedPacket "invalid will QoS"))
        bytes := by
  rw [fails_last hk]
  by_cases hflag : flags &&& 0x04 ≠ 0
  · rw [decide_eq_true hflag, check, if_pos hflag]
    show Fails (do let a ← decode_will .V5 _ retain; return some a) bytes _ ↔
      Cut (orThrow _ _) bytes
    rw [fails_last fun _ => spares_pure _, decode_will, fails_bind,
      or_iff_right (spares_orThrow (by simp) bytes)]
    exact after_congr fun qos left => (fails_last fun _ => settles_string.bind fun _ =>
      settles_binary.bind fun _ => spares_pure _).trans (fails_section .Will left)
  · rw [decide_eq_false hflag, check, if_neg hflag]
    refine iff_of_false (spares_pure none bytes) ?_
    rintro ⟨a, left, h, -⟩
    cases h

theorem fails_level {f : ProtocolVersion → Reader α} {g : Reader UInt8} {P : UInt8 → Bytes → Prop}
    {level : UInt8} (hold : Settles (f .V311))
    (hnew : Fails (f .V5) bytes .Incomplete ↔ After g P bytes) :
    Fails (do
        let protocol ← orThrow (ProtocolVersion.from_level level) (.UnsupportedProtocol level)
        f protocol) bytes .Incomplete ↔
      After (do check (level = 5) (.UnsupportedProtocol level); g) P bytes := by
  by_cases h5 : level = 5
  · subst h5
    exact hnew
  · have hnone :
        ¬ After (do check (level = 5) (CodecError.UnsupportedProtocol level); g) P bytes := by
      rintro ⟨a, left, hg, -⟩
      obtain ⟨u, mid, hcheck, -⟩ := gives_bind.mp hg
      exact h5 (gives_check.mp hcheck).1
    refine iff_of_false ?_ hnone
    by_cases h4 : level = 4
    · subst h4
      exact hold bytes
    · have hlevel : ProtocolVersion.from_level level = none := by
        simp [ProtocolVersion.from_level, h4, h5]
      rw [hlevel, fails_bind]
      rintro (h | ⟨a, left, h, -⟩)
      · exact spares_throw (by simp) bytes h
      · cases h

theorem fails_connect :
    Fails decode_connect frame .Incomplete ↔ After connect_front
      (fun flags left => CutSection left ∨ Cut (will_front_of flags) left) frame := by
  refine fails_step settles_string fun _ left => fails_step (spares_check (by simp)) fun _ left =>
    fails_step settles_u8 fun level left => fails_level ?_ ?_
  · exact settles_u8.bind fun _ => (spares_check (by simp)).bind fun _ =>
      (spares_check (by simp)).bind fun _ => settles_u16.bind fun _ => (spares_pure _).bind fun _ =>
      settles_string.bind fun _ => (settles_read_if (settles_will_v311 _ _) _).bind fun _ =>
      settles_login fun _ _ => settles_expect_empty.bind fun _ => spares_pure _
  refine fails_step settles_u8 fun flags left => fails_step (spares_check (by simp)) fun _ left =>
    fails_step (spares_check (by simp)) fun _ left => fails_step settles_u16 fun _ left => ?_
  rw [after_pure]
  refine fails_bind.trans (or_congr (fails_section .Connect left) ?_)
  rw [Cut, will_front_of, after_bind]
  refine after_congr fun ps left => fails_step settles_string fun _ left => fails_will fun _ => ?_
  exact settles_login fun _ _ => settles_expect_empty.bind fun _ => spares_pure _

/-! ## A frame -/

theorem fails_body (header : FixedHeader) :
    Fails (decode_body header version) frame .Incomplete ↔ CutIn header version frame := by
  obtain ⟨packet_type, flags, remaining_len⟩ := header
  cases packet_type with
  | Connect => exact (fails_last fun _ => spares_pure _).trans fails_connect
  | ConnAck => exact fails_connack
  | Publish => exact fails_publish
  | PubAck | PubRec | PubRel | PubComp => exact fails_ack
  | Subscribe =>
    exact fails_listed fun _ _ => (settles_filter version).many.bind fun _ =>
      (spares_check (by simp)).bind fun _ => spares_pure _
  | SubAck =>
    exact fails_listed fun _ _ => settles_u8.many.bind fun _ =>
      (spares_check (by simp)).bind fun _ => spares_pure _
  | Unsubscribe =>
    exact fails_listed fun _ _ => settles_string.many.bind fun _ =>
      (spares_check (by simp)).bind fun _ => spares_pure _
  | UnsubAck => exact fails_unsuback
  | PingReq | PingResp =>
    exact iff_of_false (((settles_flags _ _).bind fun _ => settles_expect_empty.bind fun _ =>
      spares_pure _) frame) id
  | Disconnect => exact fails_disconnect
  | Auth => exact fails_auth

theorem header_settles {buf : Bytes} : FixedHeader.decode buf ≠ .error .Incomplete := by
  cases buf with
  | nil => simp [FixedHeader.decode]
  | cons first rest =>
    have hnibble : PacketType.from_nibble (first >>> 4) ≠ .error .Incomplete := by
      unfold PacketType.from_nibble
      split <;> simp
    rcases hn : PacketType.from_nibble (first >>> 4) with e | t
    · have hheader : FixedHeader.decode (first :: rest) = .error e := by
        rw [FixedHeader.decode, hn]
        rfl
      rw [hheader]
      rintro ⟨rfl⟩
      exact hnibble hn
    · rw [FixedHeader.decode_cons hn]
      split
      · simp
      · simp
      · rename_i hne _
        simpa using hne

/-- The frame in front of the buffer is all there, and a property section of it is cut. -/
def CutFrame (buf : Bytes) (version : ProtocolVersion) : Prop :=
  ∃ header n, FixedHeader.decode buf = .ok (some (header, n)) ∧
    n + header.remaining_len ≤ buf.length ∧
    CutIn header version ((buf.take (n + header.remaining_len)).drop n)

theorem incomplete_iff (buf : Bytes) (version : ProtocolVersion) :
    (Packet.decode buf version).1 = .error .Incomplete ↔ CutFrame buf version := by
  unfold Packet.decode CutFrame
  rcases hh : FixedHeader.decode buf with e | o
  · have hne : e ≠ .Incomplete := fun h => header_settles (h ▸ hh)
    simp [hne]
  rcases o with - | ⟨header, n⟩
  · simp
  simp only [Except.ok.injEq, Option.some.injEq, Prod.mk.injEq]
  constructor
  · intro h
    split at h
    · cases h
    · rename_i hlen
      refine ⟨header, n, ⟨rfl, rfl⟩, Nat.not_lt.mp hlen, (fails_body header).mp ?_⟩
      split at h
      · cases h
      · rename_i e hrun
        cases h
        exact hrun
  · rintro ⟨_, _, ⟨rfl, rfl⟩, hlen, hcut⟩
    have hrun : (decode_body header version).run
        ((buf.take (n + header.remaining_len)).drop n) = .error .Incomplete :=
      (fails_body header).mpr hcut
    rw [if_neg (Nat.not_lt.mpr hlen), hrun]

/-- `Packet::decode` never says `Incomplete`, unless the frame is all there and the integer in
front of one of its property sections, or of a subscription identifier there, is cut. -/
theorem a_complete_frame_is_not_incomplete (buf : Bytes) (version : ProtocolVersion) :
    (Packet.decode buf version).1 ≠ .error .Incomplete ↔
      ¬ ∃ header n, FixedHeader.decode buf = .ok (some (header, n)) ∧
        n + header.remaining_len ≤ buf.length ∧
        CutIn header version ((buf.take (n + header.remaining_len)).drop n) :=
  (incomplete_iff buf version).not

/-- A CONNACK of five bytes whose property length says that another byte follows. -/
theorem a_whole_connack_is_incomplete :
    ¬ ∀ (buf : Bytes) version, (Packet.decode buf version).1 ≠ .error .Incomplete := by
  intro h
  exact h [0x20, 0x03, 0x00, 0x00, 0x80] .V5 (by decide +kernel)

end mqtt_codec
