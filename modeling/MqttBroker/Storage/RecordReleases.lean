-- The releases of the session records. Each release wrote its fields behind those of
-- the releases before it, so that a record of an earlier release is a record cut
-- there: it is read with the later fields at their defaults.
import MqttBroker.Storage.RecordLaws

namespace mqtt_storage.logged

open mqtt_core
open CursorReader (Fault Reads)

variable {α : Type}

theorem decode_reads {m : Reader α} {bytes : Bytes} {a : α} (h : Reads m [] bytes a []) :
    decode m bytes = .ok a := by
  unfold Reads at h
  simp only [List.nil_append, List.append_nil] at h
  simp only [decode, List.length_nil] at h ⊢
  rw [h]
  rfl

/-- The first blocks of a record are the record cut at their end. -/
theorem take_blocks {ρ : Type} (block : ρ → Bytes) (all : List ρ) (k : Nat) :
    (all.flatMap block).take ((all.take k).flatMap block).length = (all.take k).flatMap block := by
  have hsplit : all.flatMap block = (all.take k).flatMap block ++ (all.drop k).flatMap block := by
    rw [← List.flatMap_append, List.take_append_drop]
  rw [hsplit]
  exact List.take_left

variable {c : Prop}

theorem elim_ite {β : Type} [Decidable c] (a : α) (b : β) (f : α → β) :
    (if c then some a else none).elim b f = if c then f a else b := by
  split <;> rfl

theorem getD_ite [Decidable c] (a b : α) :
    (if c then some a else none).getD b = if c then a else b := by
  split <;> rfl

/-! ## Packet ids -/

theorem insert_all_toList (s : BTreeSet U16) : insert_all s.toList = s :=
  BTreeSet.foldl_insert_toList s

theorem insert_outbound_toList (m : BTreeMap U16 (U64 × Bool)) :
    insert_outbound m.toList = m := BTreeMap.foldl_insert_toList m

theorem packet_ids_fit {l : List U16} (h : l.Nodup) : l.length < 2 ^ 32 := by
  have hcard := h.length_le_card
  rw [Fintype.card_fin] at hcard
  omega

theorem ids_fit (s : BTreeSet U16) : s.toList.length < 2 ^ 32 :=
  packet_ids_fit s.toList_nodup

theorem outbound_fit (m : BTreeMap U16 (U64 × Bool)) : m.toList.length < 2 ^ 32 := by
  have hnodup : (m.toList.map Prod.fst).Nodup := by
    rw [List.nodup_iff_pairwise_ne, List.pairwise_map]
    exact m.toList_sorted.imp (fun h => ne_of_lt h)
  simpa using packet_ids_fit hnodup

/-! ## Subscription identifiers -/

variable {e : String × U32}

theorem set_sub_id_append {pre : List Subscription} (h : ∀ s ∈ pre, s.filter ≠ e.1)
    (rest : List Subscription) : set_sub_id (pre ++ rest) e = pre ++ set_sub_id rest e := by
  induction pre with
  | nil => rfl
  | cons s pre ih =>
    have hs : s.filter ≠ e.1 := h s (by simp)
    have hpre := ih (fun s' hs' => h s' (List.mem_cons_of_mem _ hs'))
    simp [set_sub_id, hs, hpre]

/-- The identifiers go back to the subscriptions they came from, the first ones first. -/
theorem foldl_set_sub_id {rest : List Subscription} : ∀ pre : List Subscription,
    ((pre ++ rest).map (·.filter)).Nodup →
      (sub_ids rest).foldl set_sub_id (pre ++ rest.map plain) = pre ++ rest := by
  induction rest with
  | nil =>
    intro pre h
    simp [sub_ids]
  | cons s rest ih =>
    intro pre h
    have hmove : pre ++ s :: rest = (pre ++ [s]) ++ rest := by simp
    have hih := ih (pre ++ [s]) (by rwa [← hmove])
    have hother : ∀ s' ∈ pre, s'.filter ≠ s.filter := by
      rw [List.map_append, List.nodup_append] at h
      intro s' hs'
      exact h.2.2 s'.filter (List.mem_map_of_mem hs') s.filter (by simp)
    cases hid : s.sub_id with
    | none =>
      have hplain : plain s = s := by
        unfold plain
        rw [← hid]
      have hids : sub_ids (s :: rest) = sub_ids rest := by simp [sub_ids, hid]
      rw [hids, List.map_cons, hplain, hmove]
      simpa using hih
    | some id =>
      have hids : sub_ids (s :: rest) = (s.filter, id) :: sub_ids rest := by
        simp [sub_ids, hid]
      have hset : set_sub_id (pre ++ (plain s :: rest.map plain)) (s.filter, id) =
          pre ++ (s :: rest.map plain) := by
        have hback : { plain s with sub_id := some id } = s := by
          unfold plain
          rw [← hid]
        rw [set_sub_id_append hother, set_sub_id, if_pos (by rfl), hback]
      rw [hids, List.foldl_cons, List.map_cons, hset, hmove]
      simpa using hih

variable {subscriptions : List Subscription}

theorem sub_ids_put_back (h : (subscriptions.map (·.filter)).Nodup) :
    (sub_ids subscriptions).foldl set_sub_id (subscriptions.map plain) = subscriptions := by
  simpa using foldl_set_sub_id [] (by simpa using h)

theorem sub_ids_length_le (subscriptions : List Subscription) :
    (sub_ids subscriptions).length ≤ subscriptions.length := by
  unfold sub_ids
  exact List.length_filterMap_le _ _

theorem mem_sub_ids (h : e ∈ sub_ids subscriptions) : ∃ s ∈ subscriptions, s.filter = e.1 := by
  obtain ⟨s, hs, he⟩ := List.mem_filterMap.mp h
  cases hid : s.sub_id with
  | none => simp [hid] at he
  | some id =>
    simp only [hid, Option.map_some, Option.some.injEq] at he
    exact ⟨s, hs, by rw [← he]⟩

theorem sub_ids_nil (h : subscriptions.any (fun s => s.sub_id.isSome) = false) :
    sub_ids subscriptions = [] := by
  unfold sub_ids
  rw [List.filterMap_eq_nil_iff]
  intro s hs
  have hnone := List.any_eq_false.mp h s hs
  simp only [Bool.not_eq_true, Option.isSome_eq_false_iff, Option.isNone_iff_eq_none] at hnone
  simp [hnone]

/-! ## The releases of the snapshot -/

/-- The releases, each named by the fields it added. -/
inductive MetaRelease
  | Original
  | SessionExpiry
  | Owner
  | Outbound
  | Unacked
  | SubIds
  | Interval
  deriving DecidableEq

namespace MetaRelease

def all : List MetaRelease :=
  [.Original, .SessionExpiry, .Owner, .Outbound, .Unacked, .SubIds, .Interval]

def rank : MetaRelease → Nat
  | .Original => 0
  | .SessionExpiry => 1
  | .Owner => 2
  | .Outbound => 3
  | .Unacked => 4
  | .SubIds => 5
  | .Interval => 6

def upTo (r : MetaRelease) : List MetaRelease := all.take (r.rank + 1)

/-- The fields of the release `f` are in the records of the release `r`. -/
def wrote (r f : MetaRelease) : Bool := decide (f.rank ≤ r.rank)

end MetaRelease

section snapshot

variable (m : SessionMeta)

def hasSubIds : Bool := m.subscriptions.any (fun s => s.sub_id.isSome)

def hasInterval : Bool := m.session_expiry_interval.isSome

def metaBlock : MetaRelease → Bytes
  | .Original =>
    put_list put_subscription m.subscriptions ++ put_list put_u16 m.received_qos2.toList ++
      put_u16 m.last_packet_id
  | .SessionExpiry => put_opt_u64 m.session_expiry_at
  | .Owner => put_opt_str m.owner
  | .Outbound => put_list put_outbound m.outbound_qos2.toList
  | .Unacked =>
    if !m.unacked_received_qos2.isEmpty || hasSubIds m || hasInterval m then
      put_list put_u16 m.unacked_received_qos2.toList else []
  | .SubIds =>
    if hasSubIds m || hasInterval m then put_list put_sub_id (sub_ids m.subscriptions) else []
  | .Interval => m.session_expiry_interval.elim [] put_u32

/-- Where the last field of a release ends in the record. -/
def metaCut (r : MetaRelease) : Nat := (r.upTo.flatMap (metaBlock m)).length

/-- The session as a release knew it: the fields of later releases are at their defaults. -/
def metaAsOf (r : MetaRelease) : SessionMeta where
  subscriptions := if r.wrote .SubIds then m.subscriptions else m.subscriptions.map plain
  received_qos2 := m.received_qos2
  last_packet_id := m.last_packet_id
  session_expiry_at := if r.wrote .SessionExpiry then m.session_expiry_at else none
  owner := if r.wrote .Owner then m.owner else none
  outbound_qos2 := if r.wrote .Outbound then m.outbound_qos2 else ∅
  unacked_received_qos2 := if r.wrote .Unacked then m.unacked_received_qos2 else ∅
  session_expiry_interval := if r.wrote .Interval then m.session_expiry_interval else none

structure MetaFits : Prop where
  subscriptions : m.subscriptions.length < 2 ^ 32
  filters : ∀ s ∈ m.subscriptions, Short s.filter
  owner : ∀ s ∈ m.owner, Short s

theorem encode_session_meta_blocks :
    encode_session_meta m = MetaRelease.all.flatMap (metaBlock m) := by
  cases hi : m.session_expiry_interval with
  | none => simp [encode_session_meta, MetaRelease.all, metaBlock, hasSubIds, hasInterval, hi]
  | some v => simp [encode_session_meta, MetaRelease.all, metaBlock, hasSubIds, hasInterval, hi]

theorem take_metaCut (r : MetaRelease) :
    (encode_session_meta m).take (metaCut m r) = r.upTo.flatMap (metaBlock m) := by
  rw [encode_session_meta_blocks]
  exact take_blocks _ _ _

theorem metaCut_interval : metaCut m .Interval = (encode_session_meta m).length := by
  rw [encode_session_meta_blocks]
  rfl

/-- The blocks behind the first release, as far as a release wrote them. -/
def metaTail (r : MetaRelease) : MetaTail where
  expiry := if r.wrote .SessionExpiry then some m.session_expiry_at else none
  owner := if r.wrote .Owner then some m.owner else none
  outbound := if r.wrote .Outbound then some m.outbound_qos2.toList else none
  unacked :=
    if r.wrote .Unacked && (!m.unacked_received_qos2.isEmpty || hasSubIds m || hasInterval m) then
      some m.unacked_received_qos2.toList else none
  ids :=
    if r.wrote .SubIds && (hasSubIds m || hasInterval m) then some (sub_ids m.subscriptions)
    else none
  interval := if r.wrote .Interval then m.session_expiry_interval else none

theorem upTo_blocks (r : MetaRelease) :
    r.upTo.flatMap (metaBlock m) = put_list put_subscription m.subscriptions ++
      (put_list put_u16 m.received_qos2.toList ++
        (put_u16 m.last_packet_id ++ (metaTail m r).bytes)) := by
  cases r <;>
    simp [MetaRelease.upTo, MetaRelease.all, MetaRelease.rank, MetaRelease.wrote, metaBlock,
      metaTail, MetaTail.bytes, MetaTail.owner_bytes, MetaTail.outbound_bytes,
      MetaTail.unacked_bytes, MetaTail.ids_bytes, MetaTail.interval_bytes, elim_ite]

variable {m}

theorem metaTail_ordered (hfits : MetaFits m) (r : MetaRelease) : (metaTail m r).Ordered where
  owner := by cases r <;> simp [metaTail, MetaRelease.wrote, MetaRelease.rank]
  outbound := by cases r <;> simp [metaTail, MetaRelease.wrote, MetaRelease.rank]
  unacked := by cases r <;> simp [metaTail, MetaRelease.wrote, MetaRelease.rank]
  ids := by
    cases r <;> simp [metaTail, MetaRelease.wrote, MetaRelease.rank]
    · tauto
    · tauto
  interval := by
    cases r <;> simp [metaTail, MetaRelease.wrote, MetaRelease.rank, hasInterval]
  owner_fits := by
    intro o ho s hs
    simp only [metaTail, Option.mem_def, Option.ite_none_right_eq_some, Option.some.injEq] at ho
    exact hfits.owner s (ho.2 ▸ hs)
  outbound_fits := by
    intro l hl
    simp only [metaTail, Option.mem_def, Option.ite_none_right_eq_some, Option.some.injEq] at hl
    exact hl.2 ▸ outbound_fit _
  unacked_fits := by
    intro l hl
    simp only [metaTail, Option.mem_def, Option.ite_none_right_eq_some, Option.some.injEq] at hl
    exact hl.2 ▸ ids_fit _
  ids_fits := by
    intro l hl
    simp only [metaTail, Option.mem_def, Option.ite_none_right_eq_some, Option.some.injEq] at hl
    obtain ⟨-, rfl⟩ := hl
    refine ⟨Nat.lt_of_le_of_lt (sub_ids_length_le _) hfits.subscriptions, ?_⟩
    intro e he
    obtain ⟨s, hs, hf⟩ := mem_sub_ids he
    exact hf ▸ hfits.filters s hs

theorem metaTail_subscriptions (hdistinct : (m.subscriptions.map (·.filter)).Nodup)
    (r : MetaRelease) :
    ((metaTail m r).ids.getD []).foldl set_sub_id (m.subscriptions.map plain) =
      if r.wrote .SubIds then m.subscriptions else m.subscriptions.map plain := by
  have hback := sub_ids_put_back hdistinct
  by_cases hw : r.wrote .SubIds = true
  · by_cases hany : (hasSubIds m || hasInterval m) = true
    · simp only [metaTail, hw, hany, Bool.and_self, if_true, Option.getD_some]
      exact hback
    · have hnone : hasSubIds m = false := by
        simp only [Bool.or_eq_true, not_or, Bool.not_eq_true] at hany
        exact hany.1
      rw [sub_ids_nil hnone] at hback
      simpa [metaTail, hw, hany] using hback
  · simp [metaTail, hw]

theorem metaTail_unacked (r : MetaRelease) :
    insert_all ((metaTail m r).unacked.getD []) =
      if r.wrote .Unacked then m.unacked_received_qos2 else ∅ := by
  have hall := insert_all_toList m.unacked_received_qos2
  by_cases hw : r.wrote .Unacked = true
  · by_cases hany : (!m.unacked_received_qos2.isEmpty || hasSubIds m || hasInterval m) = true
    · simp only [metaTail, hw, hany, Bool.and_self, if_true, Option.getD_some]
      exact hall
    · have hnone : m.unacked_received_qos2 = ∅ := by
        simp only [Bool.or_eq_true, not_or, Bool.not_eq_true, Bool.not_eq_false'] at hany
        exact Std.ExtTreeSet.isEmpty_iff.mp hany.1.1
      have hno : (metaTail m r).unacked = none := by simp [metaTail, hw, hany]
      rw [hno, if_pos hw, hnone]
      rfl
  · simp only [metaTail, hw]
    rfl

theorem metaTail_outbound (r : MetaRelease) :
    insert_outbound ((metaTail m r).outbound.getD []) =
      if r.wrote .Outbound then m.outbound_qos2 else ∅ := by
  by_cases hw : r.wrote .Outbound = true
  · simp only [metaTail, hw, if_true, Option.getD_some]
    exact insert_outbound_toList _
  · simp only [metaTail, hw]
    rfl

theorem decode_metaCut (hfits : MetaFits m) (hdistinct : (m.subscriptions.map (·.filter)).Nodup)
    (r : MetaRelease) :
    decode_session_meta ((encode_session_meta m).take (metaCut m r)) = .ok (metaAsOf m r) := by
  have hread := reads_session_meta m.last_packet_id hfits.subscriptions hfits.filters
    (ids_fit m.received_qos2) (metaTail_ordered hfits r)
  rw [← upTo_blocks, ← take_metaCut] at hread
  unfold decode_session_meta
  rw [decode_reads hread, metaTail_subscriptions hdistinct, metaTail_unacked, metaTail_outbound,
    insert_all_toList]
  simp only [metaTail, metaAsOf, getD_ite]

end snapshot

/-! ## The releases of a queued record -/

/-- The blocks of a queued record behind its first release, as far as they are written. -/
structure QueuedTail where
  props : Option (List (String × String)) := none
  format : Option (Option UInt8) := none
  content : Option (Option String) := none
  response : Option (Option String) := none
  correlation : Option (Option Bytes) := none
  origin : Option PublishOrigin := none

def put_origin (o : PublishOrigin) : Bytes := 1 :: (put_str o.node ++ put_u64 o.id)

namespace QueuedTail

variable (t : QueuedTail)

def origin_bytes : Bytes := t.origin.elim [] put_origin

def correlation_bytes : Bytes := t.correlation.elim [] put_opt_bytes

def response_bytes : Bytes := t.response.elim [] put_opt_str ++ t.correlation_bytes

def content_bytes : Bytes := t.content.elim [] put_opt_str ++ t.response_bytes

def format_bytes : Bytes := t.format.elim [] put_opt_u8 ++ t.content_bytes

def app_bytes : Bytes := t.props.elim [] (put_list put_property) ++ t.format_bytes

/-- A block is written only behind the blocks before it, and its lengths fit. -/
structure Ordered : Prop where
  format : t.props = none → t.format = none
  content : t.format = none → t.content = none
  response : t.content = none → t.response = none
  correlation : t.response = none → t.correlation = none
  origin : t.correlation = none → t.origin = none
  props_fits : ∀ l ∈ t.props, l.length < 2 ^ 32 ∧ ∀ p ∈ l, Short p.1 ∧ Short p.2
  content_fits : ∀ v ∈ t.content, ∀ s ∈ v, Short s
  response_fits : ∀ v ∈ t.response, ∀ s ∈ v, Short s
  correlation_fits : ∀ v ∈ t.correlation, ∀ b ∈ v, b.length < 2 ^ 32
  origin_fits : ∀ o ∈ t.origin, Short o.node

variable {t}

theorem Ordered.no_origin (h : t.Ordered) (hc : t.correlation = none) : t.origin_bytes = [] := by
  simp [origin_bytes, h.origin hc]

theorem Ordered.no_correlation (h : t.Ordered) (hr : t.response = none) :
    t.correlation_bytes ++ t.origin_bytes = [] := by
  have hc := h.correlation hr
  simp [correlation_bytes, hc, h.no_origin hc]

theorem Ordered.no_response (h : t.Ordered) (hc : t.content = none) :
    t.response_bytes ++ t.origin_bytes = [] := by
  have hr := h.response hc
  simp [response_bytes, hr, h.no_correlation hr]

theorem Ordered.no_content (h : t.Ordered) (hf : t.format = none) :
    t.content_bytes ++ t.origin_bytes = [] := by
  have hc := h.content hf
  simp [content_bytes, hc, h.no_response hc]

theorem Ordered.no_format (h : t.Ordered) (hp : t.props = none) :
    t.format_bytes ++ t.origin_bytes = [] := by
  have hf := h.format hp
  simp [format_bytes, hf, h.no_content hf]

def app (t : QueuedTail) : AppProperties where
  payload_format := t.format.getD none
  content_type := t.content.getD none
  response_topic := t.response.getD none
  correlation_data := t.correlation.getD none
  user_properties := t.props.getD []

theorem Ordered.no_app (h : t.Ordered) (hp : t.props = none) : t.app = {} := by
  have hf := h.format hp
  have hc := h.content hf
  have hr := h.response hc
  simp [app, hp, hf, hc, hr, h.correlation hr]

end QueuedTail

/-- The properties of a record that has any. -/
theorem reads_app (before : Bytes) {t : QueuedTail} (ht : t.Ordered) {l : List (String × String)}
    (hl : t.props = some l) : Reads read_app before t.app_bytes t.app t.origin_bytes := by
  obtain ⟨hcount, hshort⟩ := ht.props_fits l hl
  unfold QueuedTail.app_bytes
  rw [hl]
  refine (reads_list _ _ hcount (fun p hp before after =>
    reads_property before after (hshort p hp).1 (hshort p hp).2)).bind ?_
  unfold QueuedTail.format_bytes
  refine (reads_ifAny _ _ none ?_ ?_).bind ?_
  · exact fun v _ => ⟨put_opt_ne_nil _ v,
      reads_flagged _ _ (fun b _ before after => reads_u8 before after b)⟩
  · exact ht.no_content
  unfold QueuedTail.content_bytes
  refine (reads_ifAny _ _ none ?_ ?_).bind ?_
  · exact fun v hv => ⟨put_opt_ne_nil _ v, reads_flagged _ _ (fun s hs before after =>
      reads_string before after (ht.content_fits v hv s hs))⟩
  · exact ht.no_response
  unfold QueuedTail.response_bytes
  refine (reads_ifAny _ _ none ?_ ?_).bind ?_
  · exact fun v hv => ⟨put_opt_ne_nil _ v, reads_flagged _ _ (fun s hs before after =>
      reads_string before after (ht.response_fits v hv s hs))⟩
  · exact ht.no_correlation
  unfold QueuedTail.correlation_bytes
  have happ : t.app = AppProperties.mk (t.format.getD none) (t.content.getD none)
      (t.response.getD none) (t.correlation.getD none) l none := by
    unfold QueuedTail.app
    rw [hl]
    rfl
  rw [happ]
  refine Reads.map (fun data => AppProperties.mk _ _ _ data l none) ?_
  refine reads_ifAny _ _ none ?_ ht.no_origin
  exact fun v hv => ⟨put_opt_ne_nil _ v, reads_flagged _ _ (fun b hb before after =>
    reads_bytes before after (ht.correlation_fits v hv b hb))⟩

/-- The properties, or nothing when the record ends before them. -/
theorem reads_app_block (before : Bytes) {t : QueuedTail} (ht : t.Ordered) :
    Reads (Reader.ifAny read_app {}) before t.app_bytes t.app t.origin_bytes := by
  refine Reads.bind_nil (reads_is_empty before (t.app_bytes ++ t.origin_bytes)) ?_
  cases hp : t.props with
  | none =>
    have hempty : t.app_bytes = t.format_bytes := by simp [QueuedTail.app_bytes, hp]
    have hnone := ht.no_format hp
    rw [hempty, hnone, ht.no_app hp, (List.append_eq_nil_iff.mp hnone).1]
    exact .pure _ _ _
  | some l =>
    have hnot : (t.app_bytes ++ t.origin_bytes).isEmpty = false := by
      have hne := put_list_ne_nil put_property l
      simp [QueuedTail.app_bytes, hp, hne]
    rw [hnot]
    exact reads_app before ht hp

theorem reads_origin_block (before : Bytes) {t : QueuedTail} (ht : t.Ordered) :
    Reads (Reader.ifAny (Reader.flagged read_origin) none) before t.origin_bytes t.origin [] := by
  unfold QueuedTail.origin_bytes
  cases ho : t.origin with
  | none => exact Reads.bind_nil (reads_is_empty _ []) (.pure none _ [])
  | some o =>
    refine Reads.bind_nil (reads_is_empty _ _) ?_
    have hflag : Reads (Reader.flagged read_origin) before
        ([1] ++ (put_str o.node ++ put_u64 o.id)) (some o) [] :=
      (reads_u8 before _ 1).bind ((reads_origin _ [] (ht.origin_fits o ho)).map some)
    exact hflag

/-- A queued record whose blocks are written up to some release. -/
theorem reads_queued {topic : String} {payload : Bytes} (qos : QoS) (retain : Bool)
    (expiry_at : Option U64) {t : QueuedTail} (htopic : Short topic)
    (hpayload : payload.length < 2 ^ 32) (ht : t.Ordered) :
    Reads read_queued [] (put_str topic ++ (put_bytes payload ++ ([qos_to_u8 qos] ++
        (put_bool retain ++ (put_opt_u64 expiry_at ++ (t.app_bytes ++ t.origin_bytes))))))
      ({ topic, payload, qos, retain, app := t.app }, expiry_at, t.origin) [] := by
  refine (reads_string [] _ htopic).bind ?_
  refine (reads_bytes _ _ hpayload).bind ?_
  refine (reads_u8 _ _ (qos_to_u8 qos)).bind ?_
  refine Reads.bind_nil (reads_qos _ _ qos) ?_
  refine (reads_u8 _ _ (if retain then 1 else 0)).bind ?_
  have hretain : ((if retain then 1 else 0 : UInt8) != 0) = retain := by cases retain <;> rfl
  rw [hretain]
  refine (reads_flagged _ _ (fun v _ before after => reads_u64 before after v)).bind ?_
  refine Reads.bind (by simpa using reads_app_block _ ht) ?_
  exact (reads_origin_block _ ht).map (fun origin => (_, expiry_at, origin))

/-- The releases, each named by the fields it added. -/
inductive QueuedRelease
  | Original
  | UserProperties
  | AppProperties
  | Origin
  deriving DecidableEq

namespace QueuedRelease

def all : List QueuedRelease := [.Original, .UserProperties, .AppProperties, .Origin]

def rank : QueuedRelease → Nat
  | .Original => 0
  | .UserProperties => 1
  | .AppProperties => 2
  | .Origin => 3

def upTo (r : QueuedRelease) : List QueuedRelease := all.take (r.rank + 1)

/-- The fields of the release `f` are in the records of the release `r`. -/
def wrote (r f : QueuedRelease) : Bool := decide (f.rank ≤ r.rank)

end QueuedRelease

section queued

variable (m : Message) (expiry_at : Option U64) (origin : Option PublishOrigin)

def queuedBlock : QueuedRelease → Bytes
  | .Original => encode_message m ++ put_opt_u64 expiry_at
  | .UserProperties => put_list put_property m.app.user_properties
  | .AppProperties =>
    put_opt_u8 m.app.payload_format ++ put_opt_str m.app.content_type ++
      put_opt_str m.app.response_topic ++ put_opt_bytes m.app.correlation_data
  | .Origin => origin.elim [] put_origin

/-- Where the last field of a release ends in the record. -/
def queuedCut (r : QueuedRelease) : Nat :=
  (r.upTo.flatMap (queuedBlock m expiry_at origin)).length

/-- The message as it is stored: who published it and when it expires are kept in memory. -/
def stored : Message := { m with app := { m.app with origin := none }, expires_at := none }

/-- The message as a release knew it: the fields of later releases are at their defaults. -/
def messageAsOf (r : QueuedRelease) : Message :=
  { stored m with app := {
      user_properties := if r.wrote .UserProperties then m.app.user_properties else []
      payload_format := if r.wrote .AppProperties then m.app.payload_format else none
      content_type := if r.wrote .AppProperties then m.app.content_type else none
      response_topic := if r.wrote .AppProperties then m.app.response_topic else none
      correlation_data := if r.wrote .AppProperties then m.app.correlation_data else none } }

def originAsOf (r : QueuedRelease) : Option PublishOrigin :=
  if r.wrote .Origin then origin else none

structure QueuedFits : Prop where
  topic : Short m.topic
  payload : m.payload.length < 2 ^ 32
  properties : m.app.user_properties.length < 2 ^ 32
  property : ∀ p ∈ m.app.user_properties, Short p.1 ∧ Short p.2
  content_type : ∀ s ∈ m.app.content_type, Short s
  response_topic : ∀ s ∈ m.app.response_topic, Short s
  correlation_data : ∀ b ∈ m.app.correlation_data, b.length < 2 ^ 32
  node : ∀ o ∈ origin, Short o.node

theorem messageAsOf_origin : messageAsOf m .Origin = stored m := by
  simp [messageAsOf, stored, QueuedRelease.wrote, QueuedRelease.rank]

theorem encode_queued_blocks :
    encode_queued m expiry_at origin =
      QueuedRelease.all.flatMap (queuedBlock m expiry_at origin) := by
  cases origin with
  | none => simp [encode_queued, QueuedRelease.all, queuedBlock]
  | some o => simp [encode_queued, QueuedRelease.all, queuedBlock, put_origin]

theorem take_queuedCut (r : QueuedRelease) :
    (encode_queued m expiry_at origin).take (queuedCut m expiry_at origin r) =
      r.upTo.flatMap (queuedBlock m expiry_at origin) := by
  rw [encode_queued_blocks]
  exact take_blocks _ _ _

theorem queuedCut_origin :
    queuedCut m expiry_at origin .Origin = (encode_queued m expiry_at origin).length := by
  rw [encode_queued_blocks]
  rfl

/-- The blocks behind the first release, as far as a release wrote them. -/
def queuedTail (r : QueuedRelease) : QueuedTail where
  props := if r.wrote .UserProperties then some m.app.user_properties else none
  format := if r.wrote .AppProperties then some m.app.payload_format else none
  content := if r.wrote .AppProperties then some m.app.content_type else none
  response := if r.wrote .AppProperties then some m.app.response_topic else none
  correlation := if r.wrote .AppProperties then some m.app.correlation_data else none
  origin := originAsOf origin r

theorem upTo_queued_blocks (r : QueuedRelease) :
    r.upTo.flatMap (queuedBlock m expiry_at origin) =
      put_str m.topic ++ (put_bytes m.payload ++ ([qos_to_u8 m.qos] ++ (put_bool m.retain ++
        (put_opt_u64 expiry_at ++
          ((queuedTail m origin r).app_bytes ++ (queuedTail m origin r).origin_bytes))))) := by
  cases r <;>
    simp [QueuedRelease.upTo, QueuedRelease.all, QueuedRelease.rank, QueuedRelease.wrote,
      queuedBlock, encode_message, queuedTail, originAsOf, QueuedTail.app_bytes,
      QueuedTail.format_bytes, QueuedTail.content_bytes, QueuedTail.response_bytes,
      QueuedTail.correlation_bytes, QueuedTail.origin_bytes]

theorem queuedTail_app (r : QueuedRelease) :
    (queuedTail m origin r).app = (messageAsOf m r).app := by
  simp only [QueuedTail.app, queuedTail, messageAsOf, getD_ite]

variable {m origin}

theorem queuedTail_ordered (hfits : QueuedFits m origin) (r : QueuedRelease) :
    (queuedTail m origin r).Ordered where
  format := by cases r <;> simp [queuedTail, QueuedRelease.wrote, QueuedRelease.rank]
  content := by cases r <;> simp [queuedTail, QueuedRelease.wrote, QueuedRelease.rank]
  response := by cases r <;> simp [queuedTail, QueuedRelease.wrote, QueuedRelease.rank]
  correlation := by cases r <;> simp [queuedTail, QueuedRelease.wrote, QueuedRelease.rank]
  origin := by cases r <;> simp [queuedTail, originAsOf, QueuedRelease.wrote, QueuedRelease.rank]
  props_fits := by
    intro l hl
    simp only [queuedTail, Option.mem_def, Option.ite_none_right_eq_some, Option.some.injEq] at hl
    obtain ⟨-, rfl⟩ := hl
    exact ⟨hfits.properties, hfits.property⟩
  content_fits := by
    intro v hv s hs
    simp only [queuedTail, Option.mem_def, Option.ite_none_right_eq_some, Option.some.injEq] at hv
    exact hfits.content_type s (hv.2 ▸ hs)
  response_fits := by
    intro v hv s hs
    simp only [queuedTail, Option.mem_def, Option.ite_none_right_eq_some, Option.some.injEq] at hv
    exact hfits.response_topic s (hv.2 ▸ hs)
  correlation_fits := by
    intro v hv b hb
    simp only [queuedTail, Option.mem_def, Option.ite_none_right_eq_some, Option.some.injEq] at hv
    exact hfits.correlation_data b (hv.2 ▸ hb)
  origin_fits := by
    intro o ho
    simp only [queuedTail, originAsOf, Option.mem_def, Option.ite_none_right_eq_some] at ho
    exact hfits.node o ho.2

theorem decode_queuedCut (hfits : QueuedFits m origin) (r : QueuedRelease) :
    decode_queued ((encode_queued m expiry_at origin).take (queuedCut m expiry_at origin r)) =
      .ok (messageAsOf m r, expiry_at, originAsOf origin r) := by
  have hread := reads_queued m.qos m.retain expiry_at hfits.topic hfits.payload
    (queuedTail_ordered hfits r)
  rw [← upTo_queued_blocks, ← take_queuedCut] at hread
  unfold decode_queued
  rw [decode_reads hread, queuedTail_app]
  rfl

end queued

/-! ## Records survive encoding and upgrades -/

/-- A snapshot is read as it was written; a queued message too, without what is kept in memory
only. A record of an earlier release is read with the later fields at their defaults. No bytes
make a reader panic. -/
theorem session_records_survive_encoding_and_upgrades :
    (∀ m : SessionMeta, MetaFits m → (m.subscriptions.map (·.filter)).Nodup →
      decode_session_meta (encode_session_meta m) = .ok m ∧
      ∀ r, decode_session_meta ((encode_session_meta m).take (metaCut m r)) =
        .ok (metaAsOf m r)) ∧
    (∀ (m : Message) (expiry_at : Option U64) (origin : Option PublishOrigin),
      QueuedFits m origin →
      decode_queued (encode_queued m expiry_at origin) = .ok (stored m, expiry_at, origin) ∧
      ∀ r, decode_queued
          ((encode_queued m expiry_at origin).take (queuedCut m expiry_at origin r)) =
        .ok (messageAsOf m r, expiry_at, originAsOf origin r)) ∧
    ∀ buf : Bytes, decode_session_meta buf ≠ .error .Panic ∧
      decode_queued buf ≠ .error .Panic := by
  refine ⟨?_, ?_, ?_⟩
  · intro m hfits hdistinct
    have hwhole := decode_metaCut hfits hdistinct .Interval
    rw [metaCut_interval, List.take_length] at hwhole
    exact ⟨hwhole, decode_metaCut hfits hdistinct⟩
  · intro m expiry_at origin hfits
    have hwhole := decode_queuedCut expiry_at hfits .Origin
    rw [queuedCut_origin, List.take_length, messageAsOf_origin] at hwhole
    exact ⟨hwhole, decode_queuedCut expiry_at hfits⟩
  · exact fun buf => ⟨calm_decode calm_session_meta buf, calm_decode calm_queued buf⟩

def twoSubscriptions : SessionMeta where
  subscriptions := [⟨"a", .AtLeastOnce, true, none⟩, ⟨"b", .AtMostOnce, false, some 7⟩]
  owner := some "o"

def expiring : Message where
  topic := "a"
  payload := [1]
  qos := .AtLeastOnce
  retain := false
  expires_at := some 9

theorem twoSubscriptions_fits : MetaFits twoSubscriptions where
  subscriptions := by decide
  filters := by
    intro s hs
    simp only [twoSubscriptions, List.mem_cons, List.not_mem_nil, or_false] at hs
    rcases hs with rfl | rfl
    · decide +kernel
    · decide +kernel
  owner := by
    intro s hs
    simp only [twoSubscriptions, Option.mem_def, Option.some.injEq] at hs
    obtain rfl := hs
    decide +kernel

theorem expiring_fits : QueuedFits expiring none where
  topic := by decide +kernel
  payload := by decide
  properties := by decide
  property := by simp [expiring]
  content_type := by simp [expiring]
  response_topic := by simp [expiring]
  correlation_data := by simp [expiring]
  node := by simp

/-- The identifier comes back, and a release before identifiers reads the session without. -/
theorem two_subscriptions_survive :
    decode_session_meta (encode_session_meta twoSubscriptions) = .ok twoSubscriptions ∧
    decode_session_meta ((encode_session_meta twoSubscriptions).take
      (metaCut twoSubscriptions .Outbound)) = .ok (metaAsOf twoSubscriptions .Outbound) ∧
    decode_queued (encode_queued expiring (some 9) none) = .ok (stored expiring, some 9, none) := by
  obtain ⟨hmeta, hqueued, -⟩ := session_records_survive_encoding_and_upgrades
  have hsubs := hmeta twoSubscriptions twoSubscriptions_fits (by decide +kernel)
  exact ⟨hsubs.1, hsubs.2 .Outbound, (hqueued expiring (some 9) none expiring_fits).1⟩

/-- The deadline in the message is not read back. -/
theorem expiring_message_comes_back_changed :
    QueuedFits expiring none ∧
      decode_queued (encode_queued expiring (some 9) none) ≠ .ok (expiring, some 9, none) := by
  refine ⟨expiring_fits, ?_⟩
  have hread := decode_queuedCut (some 9) expiring_fits .Origin
  rw [queuedCut_origin, List.take_length] at hread
  rw [hread]
  simp [messageAsOf, stored, expiring]

end mqtt_storage.logged
