-- The laws of the session records: what was written is read, also when the record
-- ends where an earlier release ended it, and no bytes make a reader panic.
import Mathlib.Data.Fintype.Card
import MqttBroker.Storage.Records

namespace mqtt_storage.logged

open mqtt_core
open ByteCodec (toBe ofBe stringBytes length_toBe ofBe_toBe fromUTF8_stringBytes)
open CursorReader (Cursor Fault Reads Calm times)

/-! ## No panics -/

theorem calm_is_empty : Calm Reader.is_empty := fun r hr => .inl ⟨_, r.pos, rfl, hr⟩

theorem take_run (n : Nat) (r : Cursor) :
    (Reader.take n).run r =
      if r.pos + n ≤ r.buf.length then .ok ((r.buf.drop r.pos).take n, ⟨r.buf, r.pos + n⟩)
      else .error (.Error corrupt) := by
  by_cases h : r.pos + n ≤ r.buf.length
  · have hslice : (CursorReader.slice r.pos (r.pos + n)).run r =
        (.ok ((r.buf.drop r.pos).take n, r) : Except (Fault StorageError) _) := by
      simp [CursorReader.slice, StateT.run, h]
    simp [Reader.take, h, hslice]
  · simp [Reader.take, h, CursorReader.fail]
    rfl

theorem calm_take_bind {α : Type} (n : Nat) {f : Bytes → Reader α}
    (hf : ∀ b, b.length = n → Calm (f b)) : Calm (Reader.take n >>= f) := by
  intro r hr
  rw [StateT.run_bind, take_run]
  by_cases h : r.pos + n ≤ r.buf.length
  · rw [if_pos h]
    refine hf _ ?_ ⟨r.buf, r.pos + n⟩ h
    rw [List.length_take, List.length_drop]
    omega
  · rw [if_neg h]
    exact .inr ⟨corrupt, rfl⟩

theorem calm_take (n : Nat) : Calm (Reader.take n) := by
  intro r hr
  rw [take_run]
  by_cases h : r.pos + n ≤ r.buf.length
  · rw [if_pos h]
    exact .inl ⟨_, _, rfl, h⟩
  · rw [if_neg h]
    exact .inr ⟨corrupt, rfl⟩

theorem calm_index {α : Type} {l : List α} {i : Nat} (h : i < l.length) :
    Calm (CursorReader.index l i : Reader α) := by
  unfold CursorReader.index
  rw [List.getElem?_eq_getElem h]
  exact CursorReader.calm_pure _

theorem calm_u8 : Calm Reader.u8 := by
  refine calm_take_bind 1 ?_
  intro b hb
  exact calm_index (by omega)

theorem calm_u16 : Calm Reader.u16 := by
  refine calm_take_bind 2 ?_
  intro b hb
  refine (calm_index (by omega)).bind (fun b0 => ?_)
  exact (calm_index (by omega)).bind (fun b1 => CursorReader.calm_pure _)

theorem calm_u32 : Calm Reader.u32 := by
  refine calm_take_bind 4 ?_
  intro b hb
  refine (calm_index (by omega)).bind (fun b0 => ?_)
  refine (calm_index (by omega)).bind (fun b1 => ?_)
  refine (calm_index (by omega)).bind (fun b2 => ?_)
  exact (calm_index (by omega)).bind (fun b3 => CursorReader.calm_pure _)

theorem calm_u64 : Calm Reader.u64 := by
  refine calm_take_bind 8 ?_
  intro b hb
  exact CursorReader.calm_ite (CursorReader.calm_pure _) (CursorReader.calm_fail _)

theorem calm_bytes : Calm Reader.bytes := calm_u32.bind (fun len => calm_take len.val)

theorem calm_string : Calm Reader.string := by
  refine calm_bytes.bind (fun b => ?_)
  split
  · exact CursorReader.calm_pure _
  · exact CursorReader.calm_fail _

theorem calm_ifAny {α : Type} {m : Reader α} (h : Calm m) (default : α) :
    Calm (Reader.ifAny m default) :=
  calm_is_empty.bind (fun _ => CursorReader.calm_ite (CursorReader.calm_pure _) h)

theorem calm_flagged {α : Type} {m : Reader α} (h : Calm m) : Calm (Reader.flagged m) := by
  refine calm_u8.bind (fun flag => CursorReader.calm_ite ?_ (CursorReader.calm_pure _))
  exact h.bind (fun _ => CursorReader.calm_pure _)

theorem calm_list {α : Type} {item : Reader α} (h : Calm item) : Calm (Reader.list item) :=
  calm_u32.bind (fun n => CursorReader.calm_times h n.val)

theorem calm_qos (v : UInt8) : Calm (qos_from_u8 v) := by
  unfold qos_from_u8
  split
  · exact CursorReader.calm_pure _
  · exact CursorReader.calm_fail _

theorem calm_property : Calm property :=
  calm_string.bind (fun _ => calm_string.bind (fun _ => CursorReader.calm_pure _))

theorem calm_origin : Calm read_origin :=
  calm_string.bind (fun _ => calm_u64.bind (fun _ => CursorReader.calm_pure _))

theorem calm_app : Calm read_app := by
  refine (calm_list calm_property).bind (fun _ => ?_)
  refine (calm_ifAny (calm_flagged calm_u8) _).bind (fun _ => ?_)
  refine (calm_ifAny (calm_flagged calm_string) _).bind (fun _ => ?_)
  refine (calm_ifAny (calm_flagged calm_string) _).bind (fun _ => ?_)
  exact (calm_ifAny (calm_flagged calm_bytes) _).bind (fun _ => CursorReader.calm_pure _)

theorem calm_queued : Calm read_queued := by
  refine calm_string.bind (fun _ => calm_bytes.bind (fun _ => calm_u8.bind (fun _ => ?_)))
  refine (calm_qos _).bind (fun _ => calm_u8.bind (fun _ => ?_))
  refine (calm_flagged calm_u64).bind (fun _ => ?_)
  refine (calm_ifAny calm_app _).bind (fun _ => ?_)
  exact (calm_ifAny (calm_flagged calm_origin) _).bind (fun _ => CursorReader.calm_pure _)

theorem calm_subscription : Calm read_subscription := by
  refine calm_string.bind (fun _ => calm_u8.bind (fun _ => ?_))
  exact (calm_qos _).bind (fun _ => calm_u8.bind (fun _ => CursorReader.calm_pure _))

theorem calm_outbound : Calm read_outbound := by
  refine calm_u16.bind (fun _ => calm_u64.bind (fun _ => ?_))
  exact calm_u8.bind (fun _ => CursorReader.calm_pure _)

theorem calm_sub_id : Calm read_sub_id :=
  calm_string.bind (fun _ => calm_u32.bind (fun _ => CursorReader.calm_pure _))

theorem calm_session_meta : Calm read_session_meta := by
  refine (calm_list calm_subscription).bind (fun _ => ?_)
  refine (calm_list calm_u16).bind (fun _ => calm_u16.bind (fun _ => ?_))
  refine (calm_ifAny (calm_flagged calm_u64) _).bind (fun _ => ?_)
  refine (calm_ifAny (calm_flagged calm_string) _).bind (fun _ => ?_)
  refine (calm_ifAny (calm_list calm_outbound) _).bind (fun _ => ?_)
  refine (calm_ifAny (calm_list calm_u16) _).bind (fun _ => ?_)
  refine (calm_ifAny (calm_list calm_sub_id) _).bind (fun _ => ?_)
  refine (calm_ifAny ?_ _).bind (fun _ => CursorReader.calm_pure _)
  exact calm_u32.bind (fun _ => CursorReader.calm_pure _)

theorem calm_decode {α : Type} {m : Reader α} (h : Calm m) (buf : Bytes) :
    decode m buf ≠ .error .Panic := by
  unfold decode
  rcases h ⟨buf, 0⟩ (Nat.zero_le _) with ⟨a, pos, hrun, -⟩ | ⟨e, hrun⟩
  · rw [hrun]
    simp [Except.map]
  · rw [hrun]
    simp [Except.map]

/-! ## What was written is read -/

section primitives

variable (before after : Bytes)

theorem reads_is_empty : Reads Reader.is_empty before [] after.isEmpty after := by
  have hempty : decide ((before ++ ([] ++ after)).length ≤ before.length) = after.isEmpty := by
    cases after with
    | nil => simp
    | cons b l => simp
  unfold Reads
  show Except.ok (decide _, _) = Except.ok (after.isEmpty, _)
  rw [hempty]
  rfl

theorem reads_take (b : Bytes) : Reads (Reader.take b.length) before b b after := by
  unfold Reads
  rw [take_run, if_pos (by simp)]
  simp

theorem reads_index {α : Type} {l : List α} {i : Nat} {a : α} (h : l[i]? = some a) :
    Reads (CursorReader.index l i : Reader α) before [] a after := by
  unfold CursorReader.index
  rw [h]
  exact .pure a before after

theorem reads_u8 (b : UInt8) : Reads Reader.u8 before [b] b after := by
  have htake := reads_take before after [b]
  have h : Reads Reader.u8 before ([b] ++ []) b after :=
    Reads.bind (by simpa using htake) (reads_index _ _ rfl)
  simpa using h

/-- A number of two bytes, of four and of eight. -/
theorem reads_u16 (v : U16) : Reads Reader.u16 before (put_u16 v) v after := by
  have htake := reads_take before after (put_u16 v)
  have hlen : (put_u16 v).length = 2 := length_toBe 2 v.val
  have hval : ofBe (put_u16 v) = v.val := ofBe_toBe 2 v.val (by have := v.isLt; omega)
  obtain ⟨b0, b1, hb⟩ : ∃ b0 b1, put_u16 v = [b0, b1] := by
    match hb : put_u16 v, hlen with
    | [b0, b1], _ => exact ⟨b0, b1, rfl⟩
  rw [hlen] at htake
  rw [hb] at htake hval ⊢
  have h : Reads Reader.u16 before ([b0, b1] ++ []) v after := by
    refine Reads.bind (by simpa using htake) ?_
    refine Reads.bind_nil (reads_index _ _ rfl) ?_
    refine Reads.bind_nil (reads_index _ _ rfl) ?_
    have hfin : Fin.ofNat (2 ^ 16) (ofBe [b0, b1]) = v := by
      apply Fin.ext
      rw [Fin.val_ofNat, hval]
      exact Nat.mod_eq_of_lt v.isLt
    rw [hfin]
    exact .pure v _ _
  simpa using h

theorem reads_u32_of {n : Nat} (hn : n < 2 ^ 32) :
    Reads Reader.u32 before (toBe 4 n) ⟨n, hn⟩ after := by
  have htake := reads_take before after (toBe 4 n)
  have hlen : (toBe 4 n).length = 4 := length_toBe 4 n
  have hval : ofBe (toBe 4 n) = n := ofBe_toBe 4 n (by omega)
  obtain ⟨b0, b1, b2, b3, hb⟩ : ∃ b0 b1 b2 b3, toBe 4 n = [b0, b1, b2, b3] := by
    match hb : toBe 4 n, hlen with
    | [b0, b1, b2, b3], _ => exact ⟨b0, b1, b2, b3, rfl⟩
  rw [hlen] at htake
  rw [hb] at htake hval ⊢
  have h : Reads Reader.u32 before ([b0, b1, b2, b3] ++ []) ⟨n, hn⟩ after := by
    refine Reads.bind (by simpa using htake) ?_
    refine Reads.bind_nil (reads_index _ _ rfl) ?_
    refine Reads.bind_nil (reads_index _ _ rfl) ?_
    refine Reads.bind_nil (reads_index _ _ rfl) ?_
    refine Reads.bind_nil (reads_index _ _ rfl) ?_
    have hfin : Fin.ofNat (2 ^ 32) (ofBe [b0, b1, b2, b3]) = ⟨n, hn⟩ := by
      apply Fin.ext
      rw [Fin.val_ofNat, hval]
      exact Nat.mod_eq_of_lt hn
    rw [hfin]
    exact .pure _ _ _
  simpa using h

theorem reads_u32 (v : U32) : Reads Reader.u32 before (put_u32 v) v after :=
  reads_u32_of before after v.isLt

theorem reads_u64 (v : U64) : Reads Reader.u64 before (put_u64 v) v after := by
  have htake := reads_take before after (put_u64 v)
  have hlen : (put_u64 v).length = 8 := length_toBe 8 v.val
  have hval : ofBe (put_u64 v) = v.val := ofBe_toBe 8 v.val (by have := v.isLt; omega)
  rw [hlen] at htake
  have h : Reads Reader.u64 before (put_u64 v ++ []) v after := by
    refine Reads.bind (by simpa using htake) ?_
    rw [if_pos hlen]
    have hfin : Fin.ofNat (2 ^ 64) (ofBe (put_u64 v)) = v := by
      apply Fin.ext
      rw [Fin.val_ofNat, hval]
      exact Nat.mod_eq_of_lt v.isLt
    rw [hfin]
    exact .pure v _ _
  simpa using h

theorem saturated_of_lt {n : Nat} (h : n < 2 ^ 32) : saturated n = n := by
  unfold saturated
  omega

theorem reads_bytes {b : Bytes} (h : b.length < 2 ^ 32) :
    Reads Reader.bytes before (put_bytes b) b after := by
  unfold put_bytes put_count
  rw [saturated_of_lt h, List.take_length]
  exact (reads_u32_of before (b ++ after) h).bind (reads_take _ after b)

theorem reads_string {s : String} (h : (stringBytes s).length < 2 ^ 32) :
    Reads Reader.string before (put_str s) s after := by
  have hb : Reads Reader.string before (put_bytes (stringBytes s) ++ []) s after := by
    refine Reads.bind (by simpa using reads_bytes before after h) ?_
    rw [fromUTF8_stringBytes]
    exact .pure s _ _
  simpa [put_str] using hb

theorem reads_qos (q : QoS) : Reads (qos_from_u8 (qos_to_u8 q)) before [] q after := by
  cases q <;> exact .pure _ before after

/-- A truth value, and what is made of it. -/
theorem reads_bool {β : Type} (f : Bool → β) (b : Bool) :
    Reads (do return f ((← Reader.u8) != 0)) before (put_bool b) (f b) after := by
  have h := (reads_u8 before after (if b then 1 else 0)).map (fun v => f (v != 0))
  have hb : ((if b then 1 else 0 : UInt8) != 0) = b := by cases b <;> rfl
  rw [hb] at h
  exact h

end primitives

section fields

variable {α : Type} {item : Reader α} {put : α → Bytes} (before after : Bytes)

theorem reads_flagged {a : Option α}
    (h : ∀ x ∈ a, ∀ before after, Reads item before (put x) x after) :
    Reads (Reader.flagged item) before (put_opt put a) a after := by
  cases a with
  | none =>
    have hb : Reads (Reader.flagged item) before ([0] ++ []) none after := by
      refine Reads.bind (a := 0) (by simpa using reads_u8 before after 0) ?_
      exact .pure none _ _
    simpa [put_opt] using hb
  | some x =>
    have hb : Reads (Reader.flagged item) before ([1] ++ put x) (some x) after := by
      refine Reads.bind (a := 1) (reads_u8 before _ 1) ?_
      exact (h x rfl _ after).map some
    simpa [put_opt] using hb

theorem reads_list {l : List α} (hl : l.length < 2 ^ 32)
    (h : ∀ a ∈ l, ∀ before after, Reads item before (put a) a after) :
    Reads (Reader.list item) before (put_list put l) l after := by
  unfold put_list put_count
  rw [saturated_of_lt hl, List.take_length]
  exact (reads_u32_of before _ hl).bind (CursorReader.reads_times h _ after)

/-- A block at the end of a record: written, or missing with all that follows it. -/
theorem reads_ifAny {block : Option α} (default : α)
    (hput : ∀ a ∈ block, put a ≠ [] ∧ Reads item before (put a) a after)
    (hmissing : block = none → after = []) :
    Reads (Reader.ifAny item default) before (block.elim [] put) (block.getD default) after := by
  cases block with
  | none =>
    obtain rfl := hmissing rfl
    exact Reads.bind_nil (reads_is_empty before []) (.pure default before [])
  | some a =>
    obtain ⟨hne, hread⟩ := hput a rfl
    have hnot : (put a ++ after).isEmpty = false := by
      cases hp : put a with
      | nil => exact absurd hp hne
      | cons b l => rfl
    refine Reads.bind_nil (reads_is_empty before (put a ++ after)) ?_
    rw [hnot]
    exact hread

end fields

/-! ## The items of the records -/

def Short (s : String) : Prop := (stringBytes s).length < 2 ^ 32

instance (s : String) : Decidable (Short s) :=
  inferInstanceAs (Decidable ((stringBytes s).length < 2 ^ 32))

section items

variable (before after : Bytes)

theorem reads_property {p : String × String} (hk : Short p.1) (hv : Short p.2) :
    Reads property before (put_property p) p after :=
  (reads_string before _ hk).bind ((reads_string _ after hv).map (fun v => (p.1, v)))

theorem reads_origin {o : PublishOrigin} (h : Short o.node) :
    Reads read_origin before (put_str o.node ++ put_u64 o.id) o after :=
  (reads_string before _ h).bind ((reads_u64 _ after o.id).map (fun id => PublishOrigin.mk o.node id))

theorem reads_subscription {s : Subscription} (h : Short s.filter) :
    Reads read_subscription before (put_subscription s) { s with sub_id := none } after := by
  unfold put_subscription
  rw [List.append_assoc]
  refine (reads_string before _ h).bind ?_
  refine (reads_u8 _ _ (qos_to_u8 s.max_qos)).bind ?_
  refine Reads.bind_nil (reads_qos _ _ s.max_qos) ?_
  exact reads_bool _ after (fun no_local => Subscription.mk s.filter s.max_qos no_local none)
    s.no_local

theorem reads_outbound (e : U16 × U64 × Bool) :
    Reads read_outbound before (put_outbound e) e after := by
  unfold put_outbound
  rw [List.append_assoc]
  refine (reads_u16 before _ e.1).bind ((reads_u64 _ _ e.2.1).bind ?_)
  exact reads_bool _ after (fun seen => (e.1, e.2.1, seen)) e.2.2

theorem reads_sub_id {e : String × U32} (h : Short e.1) :
    Reads read_sub_id before (put_sub_id e) e after :=
  (reads_string before _ h).bind ((reads_u32 _ after e.2).map (fun id => (e.1, id)))

end items

/-! ## The blocks at the end of a snapshot -/

/-- The blocks of a snapshot behind its first release, as far as they are written. -/
structure MetaTail where
  expiry : Option (Option U64) := none
  owner : Option (Option String) := none
  outbound : Option (List (U16 × U64 × Bool)) := none
  unacked : Option (List U16) := none
  ids : Option (List (String × U32)) := none
  interval : Option U32 := none

namespace MetaTail

variable (t : MetaTail)

def interval_bytes : Bytes := t.interval.elim [] put_u32

def ids_bytes : Bytes := t.ids.elim [] (put_list put_sub_id) ++ t.interval_bytes

def unacked_bytes : Bytes := t.unacked.elim [] (put_list put_u16) ++ t.ids_bytes

def outbound_bytes : Bytes := t.outbound.elim [] (put_list put_outbound) ++ t.unacked_bytes

def owner_bytes : Bytes := t.owner.elim [] put_opt_str ++ t.outbound_bytes

def bytes : Bytes := t.expiry.elim [] put_opt_u64 ++ t.owner_bytes

/-- A block is written only behind the blocks before it, and its lengths fit. -/
structure Ordered : Prop where
  owner : t.expiry = none → t.owner = none
  outbound : t.owner = none → t.outbound = none
  unacked : t.outbound = none → t.unacked = none
  ids : t.unacked = none → t.ids = none
  interval : t.ids = none → t.interval = none
  owner_fits : ∀ o ∈ t.owner, ∀ s ∈ o, Short s
  outbound_fits : ∀ l ∈ t.outbound, l.length < 2 ^ 32
  unacked_fits : ∀ l ∈ t.unacked, l.length < 2 ^ 32
  ids_fits : ∀ l ∈ t.ids, l.length < 2 ^ 32 ∧ ∀ e ∈ l, Short e.1

variable {t}

theorem Ordered.no_interval (h : t.Ordered) (hids : t.ids = none) : t.interval_bytes = [] := by
  simp [interval_bytes, h.interval hids]

theorem Ordered.no_ids (h : t.Ordered) (hun : t.unacked = none) : t.ids_bytes = [] := by
  have hids := h.ids hun
  simp [ids_bytes, hids, h.no_interval hids]

theorem Ordered.no_unacked (h : t.Ordered) (hout : t.outbound = none) : t.unacked_bytes = [] := by
  have hun := h.unacked hout
  simp [unacked_bytes, hun, h.no_ids hun]

theorem Ordered.no_outbound (h : t.Ordered) (hown : t.owner = none) : t.outbound_bytes = [] := by
  have hout := h.outbound hown
  simp [outbound_bytes, hout, h.no_unacked hout]

theorem Ordered.no_owner (h : t.Ordered) (hexp : t.expiry = none) : t.owner_bytes = [] := by
  have hown := h.owner hexp
  simp [owner_bytes, hown, h.no_outbound hown]

end MetaTail

theorem put_list_ne_nil {α : Type} (put : α → Bytes) (l : List α) : put_list put l ≠ [] := by
  intro h
  have hlen := congrArg List.length h
  simp [put_list, put_count] at hlen

theorem put_opt_ne_nil {α : Type} (put : α → Bytes) (a : Option α) : put_opt put a ≠ [] := by
  cases a with
  | none => simp [put_opt]
  | some x => simp [put_opt]

/-- The subscription without its identifier, as the first release wrote it. -/
def plain (s : Subscription) : Subscription := { s with sub_id := none }

theorem put_list_plain (l : List Subscription) :
    put_list put_subscription (l.map plain) = put_list put_subscription l := by
  unfold put_list
  rw [List.length_map, ← List.map_take, List.flatMap_map]
  rfl

theorem reads_subscriptions (before after : Bytes) {l : List Subscription}
    (hl : l.length < 2 ^ 32) (h : ∀ s ∈ l, Short s.filter) :
    Reads (Reader.list read_subscription) before (put_list put_subscription l) (l.map plain)
      after := by
  rw [← put_list_plain]
  refine reads_list before after (by simpa using hl) ?_
  intro s hs before after
  obtain ⟨s₀, hs₀, rfl⟩ := List.mem_map.mp hs
  exact reads_subscription before after (s := plain s₀) (h s₀ hs₀)

/-- A snapshot whose blocks are written up to some release. -/
theorem reads_session_meta {subscriptions : List Subscription} {received : List U16}
    (last_packet_id : U16) {t : MetaTail} (hsubs : subscriptions.length < 2 ^ 32)
    (hfilters : ∀ s ∈ subscriptions, Short s.filter) (hreceived : received.length < 2 ^ 32)
    (ht : t.Ordered) :
    Reads read_session_meta [] (put_list put_subscription subscriptions ++
        (put_list put_u16 received ++ (put_u16 last_packet_id ++ t.bytes)))
      { subscriptions := (t.ids.getD []).foldl set_sub_id (subscriptions.map plain)
        received_qos2 := insert_all received
        last_packet_id
        session_expiry_at := t.expiry.getD none
        owner := t.owner.getD none
        outbound_qos2 := insert_outbound (t.outbound.getD [])
        unacked_received_qos2 := insert_all (t.unacked.getD [])
        session_expiry_interval := t.interval } [] := by
  refine (reads_subscriptions [] _ hsubs hfilters).bind ?_
  refine (reads_list _ _ hreceived (fun id _ before after => reads_u16 before after id)).bind ?_
  refine (reads_u16 _ _ last_packet_id).bind ?_
  unfold MetaTail.bytes
  refine (reads_ifAny _ _ none ?_ ?_).bind ?_
  · exact fun a _ => ⟨put_opt_ne_nil _ a,
      reads_flagged _ _ (fun v _ before after => reads_u64 before after v)⟩
  · simpa using ht.no_owner
  unfold MetaTail.owner_bytes
  refine (reads_ifAny _ _ none ?_ ?_).bind ?_
  · exact fun a ha => ⟨put_opt_ne_nil _ a,
      reads_flagged _ _ (fun s hs before after => reads_string before after (ht.owner_fits a ha s hs))⟩
  · simpa using ht.no_outbound
  unfold MetaTail.outbound_bytes
  refine (reads_ifAny _ _ [] ?_ ?_).bind ?_
  · exact fun l hl => ⟨put_list_ne_nil _ l, reads_list _ _ (ht.outbound_fits l hl)
      (fun e _ before after => reads_outbound before after e)⟩
  · simpa using ht.no_unacked
  unfold MetaTail.unacked_bytes
  refine (reads_ifAny _ _ [] ?_ ?_).bind ?_
  · exact fun l hl => ⟨put_list_ne_nil _ l, reads_list _ _ (ht.unacked_fits l hl)
      (fun id _ before after => reads_u16 before after id)⟩
  · simpa using ht.no_ids
  unfold MetaTail.ids_bytes
  refine (reads_ifAny _ _ [] ?_ ?_).bind ?_
  · exact fun l hl => ⟨put_list_ne_nil _ l, reads_list _ _ (ht.ids_fits l hl).1
      (fun e he before after => reads_sub_id before after ((ht.ids_fits l hl).2 e he))⟩
  · simpa using ht.no_interval
  refine Reads.map (fun interval => SessionMeta.mk _ _ _ _ _ _ _ interval) ?_
  unfold MetaTail.interval_bytes
  cases hi : t.interval with
  | none => exact Reads.bind_nil (reads_is_empty _ []) (.pure none _ [])
  | some v =>
    refine Reads.bind_nil (reads_is_empty _ _) ?_
    have hnot : ((some v).elim [] put_u32 ++ [] : Bytes).isEmpty = false := by
      have hlen : (put_u32 v).length = 4 := length_toBe 4 v.val
      cases hp : put_u32 v with
      | nil => simp [hp] at hlen
      | cons b l => simp [hp]
    rw [hnot]
    exact (reads_u32 _ [] v).map some

end mqtt_storage.logged
