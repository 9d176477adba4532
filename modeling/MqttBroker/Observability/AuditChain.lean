-- The hash chain of the audit log (`mqtt-observability/src/lib.rs`). Each head is a digest over
-- the head before it and the fields of an event, so that one head stands for everything that
-- was appended, as far as no two of the texts that are digested have the same digest.
import Mathlib.Data.List.Basic
import Mathlib.Data.Set.Function
import MqttBroker.Lib.Sha256

namespace mqtt_observability

open ByteCodec

abbrev Bytes := List UInt8

/-- A string. None is longer than what can be addressed. -/
structure Text where
  text : String
  fits : (stringBytes text).length < 2 ^ 63
  deriving DecidableEq

def Text.as_bytes (t : Text) : Bytes := stringBytes t.text

abbrev Head := { b : Bytes // b.length = 32 }

/-- What is recorded. -/
structure Event where
  kind : Text
  subject : Option Text
  detail : Text
  deriving DecidableEq

structure AuditEvent extends Event where
  seq : UInt64

structure AuditChain where
  next_seq : UInt64
  last_hash : Head

/-- The label of the first head. -/
def CHAIN_GENESIS : Bytes := stringBytes "mqttd-audit-chain-genesis:v1"

/-! ## The chain -/

def lp (b : Bytes) : Bytes := putPrefixed 8 b

/-- The subject, tagged by whether there is one. -/
def tagged : Option Text → Bytes
  | some s => 1 :: lp s.as_bytes
  | none => [0]

def step_parts (prev : Head) (event : AuditEvent) : Bytes :=
  prev.1 ++ (toBe 8 event.seq.toNat ++ (lp event.kind.as_bytes ++
    (tagged event.subject ++ lp event.detail.as_bytes)))

def genesis_parts (boot_id : Text) : Bytes :=
  CHAIN_GENESIS ++ (stringBytes ":boot:" ++ boot_id.as_bytes)

variable (digest32 : Bytes → Head)

def chain_step (prev : Head) (event : AuditEvent) : Head := digest32 (step_parts prev event)

namespace AuditChain

def with_boot (boot_id : Text) : AuditChain := ⟨0, digest32 (genesis_parts boot_id)⟩

def append (c : AuditChain) (e : Event) : AuditEvent × AuditChain :=
  let event : AuditEvent := { e with seq := c.next_seq }
  (event, ⟨c.next_seq + 1, chain_step digest32 c.last_hash event⟩)

def head (c : AuditChain) : Head := c.last_hash

def of (boot_id : Text) (events : List Event) : AuditChain :=
  events.foldl (fun c e => (c.append digest32 e).2) (with_boot digest32 boot_id)

def trace (c : AuditChain) : List Event → List Bytes
  | [] => []
  | e :: events => step_parts c.head (c.append digest32 e).1 :: trace (c.append digest32 e).2 events

/-- Everything that was digested for the chain of a boot. -/
def digested (boot_id : Text) (events : List Event) : List Bytes :=
  genesis_parts boot_id :: trace digest32 (with_boot digest32 boot_id) events

end AuditChain

/-! ## One step -/

theorem Text.as_bytes_injective {a b : Text} (h : a.as_bytes = b.as_bytes) : a = b := by
  obtain ⟨a, ha⟩ := a
  obtain ⟨b, hb⟩ := b
  obtain rfl : a = b := stringBytes_inj h
  rfl

/-- A text behind its length is told apart from what follows. -/
theorem lp_injective {a b : Text} {r s : Bytes} (h : lp a.as_bytes ++ r = lp b.as_bytes ++ s) :
    a = b ∧ r = s := by
  have hfits : ∀ t : Text, t.as_bytes.length < 256 ^ 8 := fun t => lt_trans t.fits (by decide)
  have ha := reads_prefixed 8 a.as_bytes r (hfits a)
  have hb := reads_prefixed 8 b.as_bytes s (hfits b)
  unfold lp at h
  rw [h] at ha
  obtain ⟨h1, h2⟩ := Prod.mk.inj (Except.ok.inj (ha.symm.trans hb))
  exact ⟨Text.as_bytes_injective h1, h2⟩

theorem tagged_injective {a b : Option Text} {r s : Bytes} (h : tagged a ++ r = tagged b ++ s) :
    a = b ∧ r = s := by
  cases a with
  | none =>
    cases b with
    | none => exact ⟨rfl, List.append_cancel_left h⟩
    | some y => simp [tagged] at h
  | some x =>
    cases b with
    | none => simp [tagged] at h
    | some y =>
      have htail : lp x.as_bytes ++ r = lp y.as_bytes ++ s := by simpa [tagged] using h
      obtain ⟨rfl, hr⟩ := lp_injective htail
      exact ⟨rfl, hr⟩

theorem toBe_seq_injective {a b : UInt64} (h : toBe 8 a.toNat = toBe 8 b.toNat) : a = b := by
  have ha := ofBe_toBe 8 a.toNat a.toNat_lt
  have hb := ofBe_toBe 8 b.toNat b.toNat_lt
  rw [h, hb] at ha
  exact UInt64.toNat_inj.mp ha.symm

theorem step_parts_injective {p q : Head} {a b : AuditEvent}
    (h : step_parts p a = step_parts q b) : p = q ∧ a = b := by
  obtain ⟨hprev, h⟩ := List.append_inj h (p.2.trans q.2.symm)
  obtain ⟨hseq, h⟩ := List.append_inj h (by simp)
  obtain ⟨hkind, h⟩ := lp_injective h
  obtain ⟨hsubject, h⟩ := tagged_injective h
  obtain ⟨hdetail, -⟩ := @lp_injective _ _ [] [] (by simpa using h)
  obtain ⟨⟨ak, as, ad⟩, aseq⟩ := a
  obtain ⟨⟨bk, bs, bd⟩, bseq⟩ := b
  obtain rfl : aseq = bseq := toBe_seq_injective hseq
  obtain ⟨rfl, rfl, rfl⟩ : ak = bk ∧ as = bs ∧ ad = bd := ⟨hkind, hsubject, hdetail⟩
  exact ⟨Subtype.ext hprev, rfl⟩

theorem genesis_ne_last (boot_id : Text) (p : Head) (e : Event) :
    genesis_parts boot_id ≠ step_parts p { e with seq := -1 } := by
  intro h
  have hbyte := congrArg (fun b => b[32]?) h
  have hleft : (genesis_parts boot_id)[32]? = some 116 := by
    unfold genesis_parts
    rw [← List.append_assoc, List.getElem?_append_left (by decide +kernel)]
    decide +kernel
  have hright : (step_parts p { e with seq := -1 })[32]? = some 255 := by
    unfold step_parts
    rw [List.getElem?_append_right (by rw [p.2]), p.2, List.getElem?_append_left (by simp)]
    have hlast : (toBe 8 (-1 : UInt64).toNat)[32 - 32]? = some 255 := by decide +kernel
    exact hlast
  rw [hleft, hright] at hbyte
  cases hbyte

/-! ## The whole chain -/

namespace AuditChain

variable {digest32} {boot_id : Text} {events events' : List Event} {e e' : Event}

theorem of_snoc : of digest32 boot_id (events ++ [e]) =
    ((of digest32 boot_id events).append digest32 e).2 := by
  unfold of
  rw [List.foldl_append]
  rfl

theorem next_seq_of : (of digest32 boot_id events).next_seq = UInt64.ofNat events.length := by
  induction events using List.reverseRecOn with
  | nil => rfl
  | append_singleton events e ih =>
    rw [of_snoc, List.length_append, UInt64.ofNat_add, ← ih]
    rfl

def parts (digest32 : Bytes → Head) (boot_id : Text) (events : List Event) (e : Event) : Bytes :=
  step_parts (of digest32 boot_id events).head
    { e with seq := (of digest32 boot_id events).next_seq }

theorem head_snoc : (of digest32 boot_id (events ++ [e])).head =
    digest32 (parts digest32 boot_id events e) := by
  rw [of_snoc]
  rfl

theorem digested_snoc : digested digest32 boot_id (events ++ [e]) =
    digested digest32 boot_id events ++ [parts digest32 boot_id events e] := by
  have htrace : ∀ (events : List Event) (c : AuditChain), trace digest32 c (events ++ [e]) =
      trace digest32 c events ++ [step_parts (events.foldl (fun c e => (c.append digest32 e).2) c).head
        { e with seq := (events.foldl (fun c e => (c.append digest32 e).2) c).next_seq }] := by
    intro events
    induction events with
    | nil => exact fun c => rfl
    | cons x events ih =>
      intro c
      rw [List.cons_append, trace, ih]
      rfl
  unfold digested
  rw [htrace]
  rfl

theorem genesis_digested : genesis_parts boot_id ∈ digested digest32 boot_id events := by
  simp [digested]

theorem digested_mono {x : Bytes} (h : x ∈ digested digest32 boot_id events) :
    x ∈ digested digest32 boot_id (events ++ [e]) := by
  rw [digested_snoc]
  exact List.mem_append_left _ h

theorem parts_digested :
    parts digest32 boot_id events e ∈ digested digest32 boot_id (events ++ [e]) := by
  simp [digested_snoc]

/-- No two of the texts that two chains digested have the same digest. -/
def NoCollision (digest32 : Bytes → Head) (boot_id : Text) (events events' : List Event) : Prop :=
  Set.InjOn digest32
    { x | x ∈ digested digest32 boot_id events ∨ x ∈ digested digest32 boot_id events' }

theorem NoCollision.symm (h : NoCollision digest32 boot_id events events') :
    NoCollision digest32 boot_id events' events :=
  h.mono fun _ hx => Or.symm hx

theorem last_of_head (hno : NoCollision digest32 boot_id (events ++ [e]) (events' ++ [e']))
    (hhead : (of digest32 boot_id (events ++ [e])).head =
      (of digest32 boot_id (events' ++ [e'])).head) :
    (of digest32 boot_id events).head = (of digest32 boot_id events').head ∧ e = e' ∧
      UInt64.ofNat events.length = UInt64.ofNat events'.length := by
  rw [head_snoc, head_snoc] at hhead
  obtain ⟨hprev, hevent⟩ :=
    step_parts_injective (hno (.inl parts_digested) (.inr parts_digested) hhead)
  obtain ⟨hsame, hseq⟩ := AuditEvent.mk.inj hevent
  rw [next_seq_of, next_seq_of] at hseq
  exact ⟨hprev, hsame, hseq⟩

theorem genesis_not_last (hno : NoCollision digest32 boot_id [] (events ++ [e]))
    (hwrap : UInt64.ofNat (events.length + 1) = 0)
    (hhead : (of digest32 boot_id []).head = (of digest32 boot_id (events ++ [e])).head) : False := by
  rw [head_snoc] at hhead
  have hparts := hno (.inl genesis_digested) (.inr parts_digested) hhead
  have hseq : UInt64.ofNat events.length = -1 := by
    rw [UInt64.ofNat_add] at hwrap
    rw [← UInt64.add_sub_cancel (UInt64.ofNat events.length) (UInt64.ofNat 1), hwrap]
    rfl
  unfold parts at hparts
  rw [next_seq_of, hseq] at hparts
  exact genesis_ne_last boot_id _ e hparts

theorem events_of_head (hno : NoCollision digest32 boot_id events events')
    (hlen : UInt64.ofNat events.length = UInt64.ofNat events'.length)
    (hhead : (of digest32 boot_id events).head = (of digest32 boot_id events').head) :
    events = events' := by
  induction events using List.reverseRecOn generalizing events' with
  | nil =>
    rcases List.eq_nil_or_concat' events' with rfl | ⟨events', e', rfl⟩
    · rfl
    · refine (genesis_not_last hno ?_ hhead).elim
      simpa using hlen.symm
  | append_singleton events e ih =>
    rcases List.eq_nil_or_concat' events' with rfl | ⟨events', e', rfl⟩
    · refine (genesis_not_last hno.symm ?_ hhead.symm).elim
      simpa using hlen
    · obtain ⟨hprev, rfl, hseq⟩ := last_of_head hno hhead
      rw [ih (hno.mono fun x hx => hx.imp digested_mono digested_mono) hseq hprev]

/-- The head of a chain stands for all that was appended to it since the boot. -/
theorem the_head_commits_to_the_history (digest32 : Bytes → Head) (boot_id : Text)
    (events events' : List Event) (hne : events ≠ []) (hne' : events' ≠ [])
    (hno : NoCollision digest32 boot_id events events')
    (hhead : (of digest32 boot_id events).head = (of digest32 boot_id events').head) :
    events.length = events'.length ∧ ∀ i : Nat, events[i]? = events'[i]? := by
  obtain ⟨before, e, rfl⟩ := (List.eq_nil_or_concat' events).resolve_left hne
  obtain ⟨before', e', rfl⟩ := (List.eq_nil_or_concat' events').resolve_left hne'
  obtain ⟨hprev, rfl, hseq⟩ := last_of_head hno hhead
  rw [events_of_head (hno.mono fun x hx => hx.imp digested_mono digested_mono) hseq hprev]
  exact ⟨rfl, fun _ => rfl⟩

end AuditChain

def sha256 (b : Bytes) : Head := ⟨Sha2.digest b, Sha2.length_digest b⟩

/-- A login and a refused publish that were recorded. -/
def login : Event where
  kind := ⟨"auth.success", by decide +kernel⟩
  subject := some ⟨"dev-7", by decide +kernel⟩
  detail := ⟨"mTLS", by decide +kernel⟩

def refusal : Event where
  kind := ⟨"acl.deny.publish", by decide +kernel⟩
  subject := some ⟨"dev-7", by decide +kernel⟩
  detail := ⟨"a/b", by decide +kernel⟩

def boot : Text := ⟨"5f0c", by decide +kernel⟩

def recorded : List Event := [login, refusal]

theorem two_events_are_told_by_their_head :
    AuditChain.NoCollision sha256 boot recorded recorded ∧
    recorded.length = recorded.length ∧ ∀ i : Nat, recorded[i]? = recorded[i]? := by
  have hno : ∀ x ∈ AuditChain.digested sha256 boot recorded,
      ∀ y ∈ AuditChain.digested sha256 boot recorded, sha256 x = sha256 y → x = y := by
    decide +kernel
  have hinj : AuditChain.NoCollision sha256 boot recorded recorded :=
    fun x hx y hy heq => hno x (or_self_iff.mp hx) y (or_self_iff.mp hy) heq
  have hne : recorded ≠ [] := List.cons_ne_nil _ _
  exact ⟨hinj,
    AuditChain.the_head_commits_to_the_history sha256 boot recorded recorded hne hne hinj rfl⟩

end mqtt_observability
