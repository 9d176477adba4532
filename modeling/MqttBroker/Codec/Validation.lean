-- Which property lists a packet may carry (`Properties::validate_for`): the pass with its set of
-- seen identifiers accepts exactly the lists that a condition on their members describes, and a
-- packet is decoded only with lists that pass.
import MqttBroker.Codec.RoundTrip
import MqttBroker.Lib.BitMask

namespace mqtt_codec

open BitMask

namespace Properties

/-- What is asked of one property, whatever stands beside it. -/
def Admits (ctx : PropContext) (p : Property) : Prop :=
  ctx.allows p.id = true ∧ p ≠ .SubscriptionIdentifier 0 ∧
    ∀ v, p = .SubscriptionIdentifierAvailable v → v ≤ 1

/-- How often the identifier occurs. -/
def occurrences (ps : Properties) (id : UInt8) : Nat := ps.countP (fun p => p.id == id)

/-- A list of properties that a packet of the context may carry. -/
def Permitted (ctx : PropContext) (ps : Properties) : Prop :=
  (∀ p ∈ ps, ctx.allows p.id = true) ∧
    (∀ id, ctx.repeatable id = false → ps.occurrences id ≤ 1) ∧
    .SubscriptionIdentifier 0 ∉ ps ∧
    ∀ v, .SubscriptionIdentifierAvailable v ∈ ps → v ≤ 1

variable {ctx : PropContext} {p : Property} {ps : Properties}

theorem permitted_iff : ps.Permitted ctx ↔ (∀ p ∈ ps, Admits ctx p) ∧
    ∀ id, ctx.repeatable id = false → ps.occurrences id ≤ 1 := by
  constructor
  · rintro ⟨hallows, honce, hzero, havailable⟩
    refine ⟨fun p hp => ⟨hallows p hp, ?_, ?_⟩, honce⟩
    · rintro rfl
      exact hzero hp
    · rintro v rfl
      exact havailable v hp
  · rintro ⟨hall, honce⟩
    refine ⟨fun p hp => (hall p hp).1, honce, ?_, ?_⟩
    · intro hzero
      exact (hall _ hzero).2.1 rfl
    · intro v hv
      exact (hall _ hv).2.2 v rfl

/-- Every identifier has a bit in the set of those seen. -/
theorem id_lt (p : Property) : p.id.toUInt64.toNat < 64 := by
  cases p <;> simp [Property.id]

theorem has_seen (seen : UInt64) (p : Property) (id : UInt8) :
    Has (seen ||| 1 <<< p.id.toUInt64) id.toNat ↔ Has seen id.toNat ∨ p.id = id := by
  rw [has_or, has_bit (id_lt p), UInt8.toNat_toUInt64, ← UInt8.toNat_inj, eq_comm]

theorem occurrences_cons (p : Property) (ps : Properties) (id : UInt8) :
    occurrences (p :: ps) id = ps.occurrences id + if p.id = id then 1 else 0 := by
  simp [occurrences, List.countP_cons]

theorem checks_rest (seen : UInt64) (hzero : p ≠ .SubscriptionIdentifier 0)
    (havailable : ∀ v, p = .SubscriptionIdentifierAvailable v → v ≤ 1) :
    (if !ctx.allows p.id then
      .error (.ProtocolViolation "property not allowed on this packet type")
    else if !ctx.repeatable p.id then
      if seen &&& 1 <<< p.id.toUInt64 ≠ 0 then
        .error (.ProtocolViolation "duplicate of a non-repeatable property")
      else validate_loop ctx ps (seen ||| 1 <<< p.id.toUInt64)
    else validate_loop ctx ps seen) = .ok () ↔ Admits ctx p ∧
      if ctx.repeatable p.id = true then validate_loop ctx ps seen = .ok ()
      else ¬ Has seen p.id.toNat ∧
        validate_loop ctx ps (seen ||| 1 <<< p.id.toUInt64) = .ok () := by
  have hseen : seen &&& 1 <<< p.id.toUInt64 ≠ 0 ↔ Has seen p.id.toNat := by
    rw [and_bit seen (id_lt p), UInt8.toNat_toUInt64]
  have hadmits : Admits ctx p ↔ ctx.allows p.id = true :=
    ⟨fun h => h.1, fun h => ⟨h, hzero, havailable⟩⟩
  rw [hadmits]
  cases hallows : ctx.allows p.id <;> cases hrepeat : ctx.repeatable p.id
  · simp
  · simp
  · by_cases hhas : Has seen p.id.toNat
    · simp [hseen.mpr hhas, hhas]
    · have hclear : seen &&& 1 <<< p.id.toUInt64 = 0 := not_not.mp (mt hseen.mp hhas)
      simp [hclear, hhas]
  · simp

theorem validate_loop_cons (seen : UInt64) :
    validate_loop ctx (p :: ps) seen = .ok () ↔ Admits ctx p ∧
      if ctx.repeatable p.id = true then validate_loop ctx ps seen = .ok ()
      else ¬ Has seen p.id.toNat ∧
        validate_loop ctx ps (seen ||| 1 <<< p.id.toUInt64) = .ok () := by
  conv_lhs => unfold validate_loop
  by_cases hzero : p = .SubscriptionIdentifier 0
  · simp [hzero, Admits]
  rw [if_neg hzero]
  split
  · rename_i v
    by_cases hv : 1 < v
    · have hnot : ¬ Admits ctx (.SubscriptionIdentifierAvailable v) := fun h =>
        absurd (h.2.2 v rfl) (UInt8.not_le.mpr hv)
      simp [hv, hnot]
    · rw [if_neg (by simpa using hv)]
      apply checks_rest seen hzero
      rintro _ ⟨rfl⟩
      exact UInt8.not_lt.mp hv
  · rename_i hother
    exact checks_rest seen hzero fun v hv => absurd hv (hother v)

theorem validate_loop_iff (seen : UInt64) :
    validate_loop ctx ps seen = .ok () ↔ (∀ p ∈ ps, Admits ctx p) ∧
      ∀ id, ctx.repeatable id = false →
        ps.occurrences id + (if Has seen id.toNat then 1 else 0) ≤ 1 := by
  induction ps generalizing seen with
  | nil =>
    simp only [validate_loop, occurrences, List.countP_nil, List.not_mem_nil, true_iff]
    refine ⟨by simp, ?_⟩
    intro id _
    split <;> omega
  | cons p ps ih =>
    rw [validate_loop_cons, List.forall_mem_cons]
    by_cases hrepeat : ctx.repeatable p.id = true
    · rw [if_pos hrepeat, ih seen, and_assoc]
      -- an identifier that may not repeat is not that of `p`
      refine and_congr_right fun _ => and_congr_right fun _ => forall_congr' fun id => ?_
      refine imp_congr_right fun hid => ?_
      have hne : p.id ≠ id := by
        rintro rfl
        simp [hid] at hrepeat
      rw [occurrences_cons, if_neg hne, Nat.add_zero]
    · rw [if_neg hrepeat, ih, and_assoc]
      refine and_congr_right fun _ => ?_
      rw [Bool.not_eq_true] at hrepeat
      constructor
      · rintro ⟨hnew, hall, honce⟩
        refine ⟨hall, fun id hid => ?_⟩
        have h := honce id hid
        rw [if_congr (has_seen seen p id) rfl rfl] at h
        rw [occurrences_cons]
        by_cases heq : p.id = id
        · subst heq
          simp only [or_true, if_true] at h
          rw [if_neg hnew, if_pos rfl]
          omega
        · simpa only [heq, or_false, if_false, Nat.add_zero] using h
      · rintro ⟨hall, honce⟩
        have hp := honce p.id hrepeat
        rw [occurrences_cons, if_pos rfl] at hp
        refine ⟨?_, hall, fun id hid => ?_⟩
        · intro hhas
          rw [if_pos hhas] at hp
          omega
        · have h := honce id hid
          rw [occurrences_cons] at h
          rw [if_congr (has_seen seen p id) rfl rfl]
          by_cases heq : p.id = id
          · subst heq
            simp only [or_true, if_true]
            omega
          · simpa only [heq, or_false, if_false, Nat.add_zero] using h

theorem validate_for_iff : ps.validate_for ctx = .ok () ↔ ps.Permitted ctx := by
  rw [validate_for, validate_loop_iff, permitted_iff]
  simp

/-- The condition counts and looks at members, so the order is nothing to it. -/
theorem Permitted.perm {qs : Properties} (hperm : ps.Perm qs) (h : ps.Permitted ctx) :
    qs.Permitted ctx := by
  obtain ⟨hallows, honce, hzero, havailable⟩ := h
  refine ⟨fun p hp => hallows p (hperm.mem_iff.mpr hp), ?_, ?_, ?_⟩
  · intro id hid
    have := honce id hid
    rwa [occurrences, hperm.countP_eq] at this
  · exact fun hp => hzero (hperm.mem_iff.mpr hp)
  · exact fun v hv => havailable v (hperm.mem_iff.mpr hv)

end Properties

/-! ## The sections of a packet -/

def Packet.sections : Packet → List (PropContext × Properties)
  | .Connect c =>
    (.Connect, c.properties) :: c.last_will.toList.map (fun w => (.Will, w.properties))
  | .ConnAck a => [(.ConnAck, a.properties)]
  | .Publish p => [(.Publish, p.properties)]
  | .PubAck a | .PubRec a | .PubRel a | .PubComp a => [(.PubAck, a.properties)]
  | .Subscribe s => [(.Subscribe, s.properties)]
  | .SubAck a => [(.SubAck, a.properties)]
  | .Unsubscribe u => [(.Unsubscribe, u.properties)]
  | .UnsubAck a => [(.UnsubAck, a.properties)]
  | .PingReq | .PingResp => []
  | .Disconnect d => [(.Disconnect, d.properties)]
  | .Auth a => [(.Auth, a.properties)]

variable {version : ProtocolVersion}

theorem PropsOk.validates {ctx : PropContext} {ps : Properties} (h : PropsOk version ctx ps) :
    ps.validate_for ctx = .ok () := by
  unfold PropsOk at h
  split at h
  · exact h.1.2
  · rw [h]
    rfl

theorem AckOk.props {a : Ack} (h : AckOk version a) : PropsOk version .PubAck a.properties := by
  cases version with
  | V311 => exact h.2
  | V5 => exact h

theorem DisconnectOk.props {d : Disconnect} (h : DisconnectOk version d) :
    PropsOk version .Disconnect d.properties := by
  cases version with
  | V311 => exact h.2
  | V5 => exact h

theorem UnsubAckOk.props {a : UnsubAck} (h : UnsubAckOk version a) :
    PropsOk version .UnsubAck a.properties := by
  cases version with
  | V311 => exact h.2
  | V5 => exact h.2.2

theorem Packet.Ok.validates {p : Packet} (h : p.Ok version) :
    ∀ s ∈ p.sections, s.2.validate_for s.1 = .ok () := by
  have hone {ctx : PropContext} {ps : Properties} (hps : ps.validate_for ctx = .ok ()) :
      ∀ s ∈ [(ctx, ps)], s.2.validate_for s.1 = .ok () := by
    intro s hs
    rw [List.mem_singleton.mp hs]
    exact hps
  cases p with
  | Connect c =>
    have hok : ConnectOk c := h
    intro s hs
    rcases List.mem_cons.mp hs with rfl | hs
    · exact hok.props.validates
    · obtain ⟨w, hw, rfl⟩ := List.mem_map.mp hs
      exact (hok.last_will w (Option.mem_toList.mp hw)).1.validates
  | ConnAck a => exact hone (PropsOk.validates h)
  | Publish p => exact hone h.2.2.2.2.validates
  | PubAck a | PubRec a | PubRel a | PubComp a => exact hone (AckOk.props h).validates
  | Subscribe s => exact hone h.2.2.validates
  | SubAck a => exact hone h.2.2.validates
  | Unsubscribe u => exact hone h.2.2.validates
  | UnsubAck a => exact hone (UnsubAckOk.props h).validates
  | PingReq | PingResp => simp [sections]
  | Disconnect d => exact hone (DisconnectOk.props h).validates
  | Auth a => exact hone h.2.1.2

/-- A property list passes exactly when its context permits it, in whatever order it stands,
and a packet is decoded only when each of its sections passes. -/
theorem property_validation_is_exact :
    (∀ (ps : Properties) ctx, ps.validate_for ctx = .ok () ↔ ps.Permitted ctx) ∧
    (∀ (ps qs : Properties) ctx, ps.Perm qs →
      (ps.validate_for ctx = .ok () ↔ qs.validate_for ctx = .ok ())) ∧
    ∀ buf version p rest, Packet.decode buf version = (.ok (some p), rest) →
      ∀ s ∈ p.sections, s.2.validate_for s.1 = .ok () := by
  refine ⟨fun ps ctx => Properties.validate_for_iff, ?_, ?_⟩
  · intro ps qs ctx hperm
    rw [Properties.validate_for_iff, Properties.validate_for_iff]
    exact ⟨fun h => h.perm hperm, fun h => h.perm hperm.symm⟩
  · intro buf version p rest h
    exact (Packet.decoded_ok h).1.validates

/-- A PUBLISH with two user properties, decoded. -/
theorem a_decoded_publish_validates :
    Properties.validate_for [.UserProperty "k" "v", .TopicAlias 3, .UserProperty "k" "w"]
      .Publish = .ok () :=
  property_validation_is_exact.2.2
    [0x30, 22, 0, 1, 97, 17, 0x26, 0, 1, 107, 0, 1, 118, 0x23, 0, 3, 0x26, 0, 1, 107, 0, 1, 119, 9]
    .V5 (.Publish ⟨false, .AtMostOnce, false, "a", none,
      [.UserProperty "k" "v", .TopicAlias 3, .UserProperty "k" "w"], [9]⟩) []
    (by decide +kernel) (.Publish, [.UserProperty "k" "v", .TopicAlias 3, .UserProperty "k" "w"])
    List.mem_cons_self

end mqtt_codec
