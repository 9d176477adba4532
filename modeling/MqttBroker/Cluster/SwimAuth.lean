-- Who may move a replay window (`swim_auth.rs`, `replay.rs`, the gates of
-- `swim_driver.rs`). A datagram carries a tag under the shared key over all of
-- it and a signature of its sender over the payload alone.
import MqttBroker.Lib.AssocList
import MqttBroker.Lib.Sha256
import MqttBroker.Cluster.Swim

namespace mqtt_cluster.swim_auth

open ByteCodec mqtt_cluster.swim

abbrev Bytes := List UInt8

/-! ## The replay window -/

structure ReplayWindow where
  high : UInt64 := 0
  /-- Bit `i` is set when `high - i` was seen. -/
  bitmap : UInt64 := 0
  seeded : Bool := false
  deriving DecidableEq, Repr

def WINDOW : UInt64 := 64

/-- Records a sequence, and says whether it is fresh. -/
def ReplayWindow.check_and_set (w : ReplayWindow) (seq : UInt64) : Bool × ReplayWindow :=
  if !w.seeded then (true, { high := seq, bitmap := 1, seeded := true })
  else if w.high < seq then
    let shift := seq - w.high
    (true, { w with bitmap := if WINDOW ≤ shift then 1 else (w.bitmap <<< shift) ||| 1,
                    high := seq })
  else
    let offset := w.high - seq
    if WINDOW ≤ offset then (false, w)
    else if w.bitmap &&& (1 <<< offset) ≠ 0 then (false, w)
    else (true, { w with bitmap := w.bitmap ||| (1 <<< offset) })

/-! ## Sealing -/

def VERSION_V1 : UInt8 := 1

def VERSION_V2 : UInt8 := 2

def VERSION_V3 : UInt8 := 3

def TAG_LEN : Nat := 32

def CERT_REF_FULL : UInt8 := 1

def CERT_REF_FP : UInt8 := 2

def FP_LEN : Nat := 32

def FULL_CERT_EVERY : Nat := 16

def CERT_CACHE_CAP : Nat := 128

def fingerprint (cert_der : Bytes) : Bytes := Sha2.digest cert_der

inductive OpenReject
  | Auth
  | Expired
  | Revoked
  | UnknownCert
  deriving DecidableEq, Repr

def OpenReject.reason : OpenReject → String
  | .Auth => "auth"
  | .Expired => "expired"
  | .Revoked => "revoked"
  | .UnknownCert => "cert-miss"

structure VerifiedIdentity where
  cn : String
  failure_domain : Option String
  deriving DecidableEq, Repr

/-- The key and certificate of this node, and the datagrams it has sealed. -/
structure Signer where
  cert_der : Bytes
  sign : Bytes → Bytes
  sends : Nat := 0

/-- Verifies a certificate, and a signature over a payload under it. -/
abbrev Verifier := Bytes → Bytes → Bytes → Except OpenReject VerifiedIdentity

structure SwimAuth where
  /-- The key that seals. -/
  key : Bytes
  /-- Further keys that a datagram may be sealed with. -/
  also : List Bytes := []
  signer : Option Signer := none
  verifier : Option Verifier := none
  sequenced : Bool := false
  /-- Verified certificates under their fingerprints. -/
  cert_cache : List (Bytes × Bytes) := []

namespace SwimAuth

def frame (a : SwimAuth) (version : UInt8) (body : Bytes) : Bytes :=
  version :: Sha2.hmac a.key body ++ body

/-- The certificate in full, or its fingerprint. The source panics where the length does
not fit, which is `none`. -/
def cert_ref (s : Signer) (prime : Bool) : Option (Bytes × Signer) :=
  let sent := { s with sends := s.sends + 1 }
  if prime ∨ s.sends % FULL_CERT_EVERY = 0 then
    if s.cert_der.length < 2 ^ 16 then
      some (CERT_REF_FULL :: toBe 2 s.cert_der.length ++ s.cert_der, sent)
    else none
  else some (CERT_REF_FP :: fingerprint s.cert_der, sent)

/-- What a signed datagram carries after its sequence. -/
def signed_body (s : Signer) (payload : Bytes) (prime : Bool) : Option (Bytes × Signer) := do
  let sig := s.sign payload
  if sig.length < 2 ^ 16 then
    let (cref, sent) ← cert_ref s prime
    return (cref ++ toBe 2 sig.length ++ sig ++ payload, sent)
  else none

/-- This function is named `seal` in the source. -/
def sealDatagram (a : SwimAuth) (payload : Bytes) (prime : Bool) : Option (Bytes × SwimAuth) :=
  match a.signer with
  | none => some (a.frame VERSION_V1 payload, a)
  | some s => do
    let (body, sent) ← signed_body s payload prime
    return (a.frame VERSION_V2 body, { a with signer := some sent })

def seal_sequenced (a : SwimAuth) (payload : Bytes) (seq : UInt64) (prime : Bool) :
    Option (Bytes × SwimAuth) :=
  match a.signer with
  | none => a.sealDatagram payload prime
  | some s => do
    let (body, sent) ← signed_body s payload prime
    return (a.frame VERSION_V3 (toBe 8 seq.toNat ++ body), { a with signer := some sent })

end SwimAuth

/-! ## Opening -/

inductive CertRef
  | Full (cert : Bytes)
  | Fp (fp : Bytes)
  deriving DecidableEq, Repr

/-- The first `n` bytes and the rest. -/
def cut (n : Nat) (b : Bytes) : Option (Bytes × Bytes) :=
  if n ≤ b.length then some (b.take n, b.drop n) else none

def parse_cert_ref : Bytes → Option (CertRef × Bytes)
  | [] => none
  | marker :: rest =>
    if marker = CERT_REF_FULL then do
      let (len, rest) ← cut 2 rest
      let (cert, rest) ← cut (ofBe len) rest
      return (.Full cert, rest)
    else if marker = CERT_REF_FP then do
      let (fp, rest) ← cut FP_LEN rest
      return (.Fp fp, rest)
    else none

def parse_v2 (body : Bytes) : Option (CertRef × Bytes × Bytes) := do
  let (cref, rest) ← parse_cert_ref body
  let (len, rest) ← cut 2 rest
  let (sig, payload) ← cut (ofBe len) rest
  return (cref, sig, payload)

def parse_v3 (body : Bytes) : Option (UInt64 × CertRef × Bytes × Bytes) := do
  let (seq, rest) ← cut 8 body
  let (cref, sig, payload) ← parse_v2 rest
  return (UInt64.ofNat (ofBe seq), cref, sig, payload)

structure Opened where
  payload : Bytes
  identity : Option String
  seq : Option UInt64
  domain : Option String
  deriving DecidableEq, Repr

namespace SwimAuth

/-- Finds the certificate and verifies in full against it. -/
def verify_ref (a : SwimAuth) (cref : CertRef) (payload sig : Bytes) :
    Except OpenReject VerifiedIdentity × SwimAuth :=
  match a.verifier with
  | none => (.error .Auth, a)
  | some verify =>
    match cref with
    | .Full cert =>
      match verify cert payload sig with
      | .error e => (.error e, a)
      | .ok v =>
        let fp := fingerprint cert
        let cache := if CERT_CACHE_CAP ≤ a.cert_cache.length ∧ a.cert_cache.lookup fp = none then []
          else a.cert_cache
        (.ok v, { a with cert_cache := AssocList.put fp cert cache })
    | .Fp fp =>
      match a.cert_cache.lookup fp with
      | none => (.error .UnknownCert, a)
      | some cert => (verify cert payload sig, a)

def tagged (a : SwimAuth) (tag body : Bytes) : Bool :=
  (a.key :: a.also).any (fun k => decide (Sha2.hmac k body = tag))

def split_datagram : Bytes → Option (UInt8 × Bytes × Bytes)
  | [] => none
  | version :: rest => do
    let (tag, body) ← cut TAG_LEN rest
    return (version, tag, body)

/-- What a signed datagram shows once it is verified. -/
def opened (a : SwimAuth) (seq : Option UInt64) (cref : CertRef) (sig payload : Bytes) :
    Except OpenReject Opened × SwimAuth :=
  match a.verify_ref cref payload sig with
  | (.error e, a) => (.error e, a)
  | (.ok v, a) =>
    (.ok { payload, identity := some v.cn, seq, domain := v.failure_domain }, a)

/-- This function is named `open` in the source. -/
def openDatagram (a : SwimAuth) (datagram : Bytes) : Except OpenReject Opened × SwimAuth :=
  match split_datagram datagram with
  | none => (.error .Auth, a)
  | some (version, tag, body) =>
    if !a.tagged tag body then (.error .Auth, a)
    else if version = VERSION_V1 ∧ a.signer.isNone then
      (.ok { payload := body, identity := none, seq := none, domain := none }, a)
    else if version = VERSION_V2 ∧ a.signer.isSome ∧ a.sequenced = false then
      match parse_v2 body with
      | none => (.error .Auth, a)
      | some (cref, sig, payload) => a.opened none cref sig payload
    else if version = VERSION_V3 ∧ a.sequenced = true then
      match parse_v3 body with
      | none => (.error .Auth, a)
      | some (seq, cref, sig, payload) => a.opened (some seq) cref sig payload
    else (.error .Auth, a)

end SwimAuth

/-! ## The gates of the driver -/

/-- A label as it is attested: the label of the certificate stands, and a claim that says
otherwise is refused. -/
def attested_label (claimed attested : Option String) : Except String (Option String) :=
  match attested with
  | some att =>
    if claimed.any (fun d => decide (d ≠ att)) then .error (claimed.getD "") else .ok (some att)
  | none => .ok claimed

/-- The claims of a message, with no labels for other nodes. -/
def enforce_claims (sender : NodeId) (attested : Option String) :
    List Update → Except String (List Update)
  | [] => .ok []
  | u :: us => do
    let failure_domain ← if u.id = sender then attested_label u.failure_domain attested
      else .ok none
    let us ← enforce_claims sender attested us
    return { u with failure_domain } :: us

def enforce_domain (msg : Message) (identity attested : Option String) : Except String Message :=
  if identity.isNone then .ok msg
  else do
    let from_domain ← attested_label msg.from_domain attested
    let gossip ← enforce_claims msg.sender attested msg.gossip
    return { msg with from_domain, gossip }

/-- The inbound side of the driver. The decoder of messages is a library's. -/
structure Gossip where
  auth : SwimAuth
  decode : Bytes → Option Message
  windows : BTreeMap NodeId ReplayWindow := ∅

namespace Gossip

def window (g : Gossip) (sender : NodeId) : ReplayWindow := g.windows[sender]?.getD {}

/-- What a message that was opened has to pass: the reason of the drop, or the message. -/
def pass_gates (g : Gossip) (opened : Opened) : Except String Message × Gossip :=
  match g.decode opened.payload with
  | none => (.error "decode", g)
  | some msg =>
    if opened.identity.any (fun cn => decide (cn ≠ msg.sender)) then (.error "identity", g)
    else
      match enforce_domain msg opened.identity opened.domain with
      | .error _ => (.error "domain", g)
      | .ok msg =>
        match opened.seq with
        | none => (.ok msg, g)
        | some seq =>
          let (fresh, w) := (g.window msg.sender).check_and_set seq
          let g := { g with windows := g.windows.insert msg.sender w }
          if fresh then (.ok msg, g) else (.error "replay", g)

/-- The gates up to the window, in the order of the source. -/
def receive (g : Gossip) (datagram : Bytes) : Except String Message × Gossip :=
  match g.auth.openDatagram datagram with
  | (.error e, auth) => (.error e.reason, { g with auth })
  | (.ok opened, auth) => { g with auth }.pass_gates opened

end Gossip

/-! ## Frames -/

theorem cut_append (a b : Bytes) : cut a.length (a ++ b) = some (a, b) := by
  simp [cut]

variable {n : Nat}

theorem cut_append_of {a : Bytes} (h : a.length = n) (b : Bytes) :
    cut n (a ++ b) = some (a, b) := by
  rw [← h]
  exact cut_append a b

theorem cut_length {b front back : Bytes} (h : cut n b = some (front, back)) :
    front.length = n := by
  unfold cut at h
  split at h
  · next hle =>
    cases h
    rw [List.length_take]
    omega
  · cases h

namespace CertRef

/-- The reference as it stands in a datagram. -/
def bytes : CertRef → Bytes
  | .Full cert => CERT_REF_FULL :: toBe 2 cert.length ++ cert
  | .Fp fp => CERT_REF_FP :: fp

def Fits : CertRef → Prop
  | .Full cert => cert.length < 2 ^ 16
  | .Fp fp => fp.length = FP_LEN

end CertRef

variable {cref : CertRef}

theorem parse_cert_ref_bytes (h : cref.Fits) (rest : Bytes) :
    parse_cert_ref (cref.bytes ++ rest) = some (cref, rest) := by
  cases cref with
  | Full cert =>
    have hlen : ofBe (toBe 2 cert.length) = cert.length := ofBe_toBe 2 cert.length h
    have hcut : cut 2 (toBe 2 cert.length ++ (cert ++ rest)) =
        some (toBe 2 cert.length, cert ++ rest) := cut_append_of (length_toBe 2 _) _
    simp [CertRef.bytes, parse_cert_ref, hcut, hlen, cut_append]
  | Fp fp =>
    have hcut : cut FP_LEN (fp ++ rest) = some (fp, rest) := cut_append_of h rest
    simp [CertRef.bytes, parse_cert_ref, CERT_REF_FP, CERT_REF_FULL, hcut]

variable {body : Bytes}

theorem parse_cert_ref_fits {rest : Bytes} (h : parse_cert_ref body = some (cref, rest)) :
    cref.Fits := by
  cases body with
  | nil => cases h
  | cons marker body =>
    simp only [parse_cert_ref] at h
    split at h
    · simp only [Option.bind_eq_bind, Option.bind_eq_some_iff, Prod.exists] at h
      obtain ⟨len, left, hlen, cert, left', hcert, hsome⟩ := h
      cases hsome
      have htwo := cut_length hlen
      have hfit := ofBe_lt len
      rw [htwo, ← cut_length hcert] at hfit
      exact hfit
    · split at h
      · simp only [Option.bind_eq_bind, Option.bind_eq_some_iff, Prod.exists] at h
        obtain ⟨fp, left, hfp, hsome⟩ := h
        cases hsome
        exact cut_length hfp
      · cases h

/-- The body of a sequenced datagram, from its parts. -/
def body_v3 (seq : UInt64) (cref : CertRef) (sig payload : Bytes) : Bytes :=
  toBe 8 seq.toNat ++ (cref.bytes ++ (toBe 2 sig.length ++ (sig ++ payload)))

variable {seq : UInt64} {sig : Bytes}

theorem parse_v3_body (payload : Bytes) (hcref : cref.Fits) (hsig : sig.length < 2 ^ 16) :
    parse_v3 (body_v3 seq cref sig payload) = some (seq, cref, sig, payload) := by
  have hseq : ofBe (toBe 8 seq.toNat) = seq.toNat := ofBe_toBe 8 _ seq.toNat_lt
  have hlen : ofBe (toBe 2 sig.length) = sig.length := ofBe_toBe 2 _ hsig
  have hcut : cut 8 (body_v3 seq cref sig payload) = some (toBe 8 seq.toNat, _) :=
    cut_append_of (length_toBe 8 _) _
  have hcut2 : cut 2 (toBe 2 sig.length ++ (sig ++ payload)) = some (toBe 2 sig.length, _) :=
    cut_append_of (length_toBe 2 _) _
  simp [parse_v3, parse_v2, hcut, parse_cert_ref_bytes hcref, hcut2, hlen, cut_append, hseq]

theorem parse_v3_fits {payload : Bytes} (h : parse_v3 body = some (seq, cref, sig, payload)) :
    cref.Fits ∧ sig.length < 2 ^ 16 := by
  simp only [parse_v3, parse_v2, Option.bind_eq_bind, Option.bind_eq_some_iff, Prod.exists] at h
  obtain ⟨seq', rest, -, cref', sig', payload', ⟨cref'', left, hcref, len, left', hlen, sig'',
    payload'', hsig, hinner⟩, hsome⟩ := h
  cases hsome
  cases hinner
  refine ⟨parse_cert_ref_fits hcref, ?_⟩
  have hfit := ofBe_lt len
  rw [cut_length hlen, ← cut_length hsig] at hfit
  exact hfit

namespace SwimAuth

theorem split_frame (a : SwimAuth) (version : UInt8) (body : Bytes) :
    split_datagram (a.frame version body) = some (version, Sha2.hmac a.key body, body) := by
  have hcut : cut TAG_LEN (Sha2.hmac a.key body ++ body) = some (Sha2.hmac a.key body, body) :=
    cut_append_of (Sha2.length_hmac a.key body) body
  simp [frame, split_datagram, hcut]

/-- The known answer of the source for an unsigned datagram. -/
example : (SwimAuth.mk ((List.range 32).map UInt8.ofNat) [] none none false []).frame VERSION_V1
      (stringBytes "swim wire format v1") =
    [0x01, 0x33, 0x9e, 0x98, 0x92, 0x07, 0xe2, 0xb8, 0xbf, 0x79, 0x83, 0x7d, 0x88, 0xe2, 0x94, 0x90,
      0xed, 0x95, 0xe4, 0xe3, 0xa5, 0xb0, 0x82, 0x19, 0x30, 0x1b, 0x40, 0x33, 0xb9, 0x66, 0xd4, 0x95,
      0x09] ++ stringBytes "swim wire format v1" := by decide +kernel

variable {a : SwimAuth} {seq : UInt64} {cref : CertRef} {sig : Bytes}

theorem open_frame (hseq : a.sequenced = true) (payload : Bytes) (hcref : cref.Fits)
    (hsig : sig.length < 2 ^ 16) :
    a.openDatagram (a.frame VERSION_V3 (body_v3 seq cref sig payload)) =
      a.opened (some seq) cref sig payload := by
  have htag : a.tagged (Sha2.hmac a.key (body_v3 seq cref sig payload))
      (body_v3 seq cref sig payload) = true := by simp [tagged]
  simp [openDatagram, split_frame, htag, VERSION_V1, VERSION_V2, VERSION_V3, hseq,
    parse_v3_body payload hcref hsig]

variable {payload : Bytes}

theorem open_sequenced {datagram : Bytes} {identity domain : Option String}
    (h : (a.openDatagram datagram).1 = .ok ⟨payload, identity, some seq, domain⟩) :
    ∃ version tag body cref sig, split_datagram datagram = some (version, tag, body) ∧
      parse_v3 body = some (seq, cref, sig, payload) ∧
      ∃ cn, identity = some cn ∧ (a.verify_ref cref payload sig).1 = .ok ⟨cn, domain⟩ := by
  have hopened : ∀ {seq' cref sig payload'},
      (a.opened seq' cref sig payload').1 = .ok ⟨payload, identity, some seq, domain⟩ →
      seq' = some seq ∧ payload' = payload ∧
        ∃ cn, identity = some cn ∧ (a.verify_ref cref payload sig).1 = .ok ⟨cn, domain⟩ := by
    intro seq' cref sig payload' hok
    unfold opened at hok
    split at hok
    · cases hok
    · next v a' hv =>
      cases hok
      exact ⟨rfl, rfl, v.cn, rfl, by rw [hv]⟩
  unfold openDatagram at h
  split at h
  · cases h
  · next version tag body hsplit =>
    split at h
    · cases h
    · split at h
      · cases h
      · split at h
        · split at h
          · cases h
          · have hnone := (hopened h).1
            cases hnone
        · split at h
          · split at h
            · cases h
            · next seq' cref sig payload' hparse =>
              obtain ⟨hs, rfl, hcn⟩ := hopened h
              cases hs
              exact ⟨version, tag, body, cref, sig, hsplit, hparse, hcn⟩
          · cases h

theorem verify_ref_ok {v : VerifiedIdentity} (h : (a.verify_ref cref payload sig).1 = .ok v) :
    ∃ verify cert, a.verifier = some verify ∧ verify cert payload sig = .ok v := by
  unfold verify_ref at h
  split at h
  · cases h
  · next verify hverify =>
    split at h
    · next cert =>
      split at h
      · cases h
      · next v' hv =>
        cases h
        exact ⟨verify, cert, hverify, hv⟩
    · split at h
      · cases h
      · next cert _ => exact ⟨verify, cert, hverify, h⟩

end SwimAuth

/-! ## Whose key moves a window -/

namespace Gossip

/-- A payload and the sequence that its sender sealed it under. -/
abbrev Seal := Bytes × UInt64

/-- What a holder of every shared key can put on the wire without the key of a node: any
bytes, except that a signature in them which verifies as that node's is over a payload
that the node has sealed. -/
def CanBuild (g : Gossip) (node : NodeId) (seals : List Seal) (datagram : Bytes) : Prop :=
  ∀ version tag body seq cref sig payload verify cert domain,
    SwimAuth.split_datagram datagram = some (version, tag, body) →
    parse_v3 body = some (seq, cref, sig, payload) →
    g.auth.verifier = some verify → verify cert payload sig = .ok ⟨node, domain⟩ →
    ∃ seq', (payload, seq') ∈ seals

/-- A datagram passes every gate as a payload of a node under a sequence. -/
def TakesFresh (g : Gossip) (datagram : Bytes) (node : NodeId) (payload : Bytes)
    (seq : UInt64) : Prop :=
  (∃ domain, (g.auth.openDatagram datagram).1 = .ok ⟨payload, some node, some seq, domain⟩) ∧
    ∃ msg, (g.receive datagram).1 = .ok msg

/-- A payload passes every gate but the window: under some reference that this node can
resolve it verifies as the sender's, and it is a message from that sender with labels that
its certificate allows. -/
def Admissible (g : Gossip) (node : NodeId) (payload : Bytes) : Prop :=
  ∃ cref sig domain msg msg', CertRef.Fits cref ∧ sig.length < 2 ^ 16 ∧
    (g.auth.verify_ref cref payload sig).1 = .ok ⟨node, domain⟩ ∧
    g.decode payload = some msg ∧ msg.sender = node ∧
    enforce_domain msg (some node) domain = .ok msg'

end Gossip

theorem enforce_domain_sender {msg msg' : Message} {identity attested : Option String}
    (h : enforce_domain msg identity attested = .ok msg') : msg'.sender = msg.sender := by
  unfold enforce_domain at h
  split at h
  · cases h
    rfl
  · obtain ⟨domain, -, hrest⟩ := bind_ok h
    obtain ⟨gossip, -, hdone⟩ := bind_ok hrest
    cases hdone
    rfl

namespace Gossip

/-- A payload that was opened as a node's passes the gates when it names that node, its
labels stand and the window takes its sequence. -/
theorem pass_gates_ok {g : Gossip} {payload : Bytes} {node : NodeId} {seq : UInt64}
    {domain : Option String} :
    (∃ msg, (g.pass_gates ⟨payload, some node, some seq, domain⟩).1 = .ok msg) ↔
      ∃ msg msg', g.decode payload = some msg ∧ msg.sender = node ∧
        enforce_domain msg (some node) domain = .ok msg' ∧
        ((g.window node).check_and_set seq).1 = true := by
  unfold pass_gates
  cases hdecode : g.decode payload with
  | none => simp
  | some msg =>
    by_cases hnode : msg.sender = node
    · subst hnode
      cases hdomain : enforce_domain msg (some msg.sender) domain with
      | error e => simp [hdomain]
      | ok msg' =>
        have hsender := enforce_domain_sender hdomain
        by_cases hfresh : ((g.window msg.sender).check_and_set seq).1 = true
        · simp [hdomain, hsender, hfresh]
        · simp [hdomain, hsender, hfresh]
    · have hother : node ≠ msg.sender := Ne.symm hnode
      simp [hnode, hother]

end Gossip

namespace Gossip

variable {node : NodeId} {seals : List Seal} {seq : UInt64} {cref : CertRef} {sig payload : Bytes}

theorem can_build_frame (g : Gossip) {seq' : UInt64} (hcref : cref.Fits)
    (hsig : sig.length < 2 ^ 16) (hsealed : (payload, seq') ∈ seals) :
    g.CanBuild node seals (g.auth.frame VERSION_V3 (body_v3 seq cref sig payload)) := by
  intro version tag body seq0 cref0 sig0 payload0 verify cert domain hsplit hparse _ _
  rw [SwimAuth.split_frame] at hsplit
  cases hsplit
  rw [parse_v3_body payload hcref hsig] at hparse
  cases hparse
  exact ⟨seq', hsealed⟩

variable {g : Gossip} {datagram : Bytes}

theorem receive_opened {o : Opened} (h : (g.auth.openDatagram datagram).1 = .ok o) :
    (g.receive datagram).1 = (g.pass_gates o).1 := by
  unfold receive
  split
  · next e auth heq =>
    rw [heq] at h
    cases h
  · next o' auth heq =>
    rw [heq] at h
    cases h
    unfold pass_gates
    dsimp only
    repeat' split
    all_goals first
      | rfl
      | simp_all [window]

theorem takes_fresh_frame (hposture : g.auth.sequenced = true) {domain : Option String}
    {msg msg' : Message} (hcref : cref.Fits) (hsig : sig.length < 2 ^ 16)
    (hverify : (g.auth.verify_ref cref payload sig).1 = .ok ⟨node, domain⟩)
    (hdecode : g.decode payload = some msg) (hsender : msg.sender = node)
    (hdomain : enforce_domain msg (some node) domain = .ok msg')
    (hfresh : ((g.window node).check_and_set seq).1 = true) :
    g.TakesFresh (g.auth.frame VERSION_V3 (body_v3 seq cref sig payload)) node payload seq := by
  have hopen : (g.auth.openDatagram (g.auth.frame VERSION_V3 (body_v3 seq cref sig payload))).1 =
      .ok ⟨payload, some node, some seq, domain⟩ := by
    rw [SwimAuth.open_frame hposture payload hcref hsig]
    unfold SwimAuth.opened
    split
    · next e a heq =>
      rw [heq] at hverify
      cases hverify
    · next v a heq =>
      rw [heq] at hverify
      cases hverify
      rfl
  refine ⟨⟨domain, hopen⟩, ?_⟩
  rw [receive_opened hopen]
  exact pass_gates_ok.mpr ⟨msg, msg', hdecode, hsender, hdomain, hfresh⟩

theorem takes_fresh_admissible (hbuild : g.CanBuild node seals datagram)
    (h : g.TakesFresh datagram node payload seq) :
    (∃ seq', (payload, seq') ∈ seals) ∧ g.Admissible node payload ∧
      ((g.window node).check_and_set seq).1 = true := by
  obtain ⟨⟨domain, hopen⟩, htaken⟩ := h
  obtain ⟨version, tag, body, cref, sig, hsplit, hparse, cn, hcn, hverify⟩ :=
    SwimAuth.open_sequenced hopen
  cases hcn
  obtain ⟨verify, cert, hverifier, hcert⟩ := SwimAuth.verify_ref_ok hverify
  obtain ⟨hcref, hsig⟩ := parse_v3_fits hparse
  rw [receive_opened hopen] at htaken
  obtain ⟨msg, msg', hdecode, hsender, hdomain, hfresh⟩ := pass_gates_ok.mp htaken
  refine ⟨?_, ?_, hfresh⟩
  · exact hbuild version tag body seq cref sig payload verify cert domain hsplit hparse hverifier
      hcert
  · exact ⟨cref, sig, domain, msg, msg', hcref, hsig, hverify, hdecode, hsender, hdomain⟩

/-- Whatever can be built without the key of a node is taken from it only under a sequence
that the node sealed it with, just when every payload the node has sealed and this node
would take was sealed under every sequence that the window still takes. -/
theorem window_moved_by_own_key_iff (g : Gossip) (hposture : g.auth.sequenced = true)
    (node : NodeId) (seals : List Seal) :
    (∀ datagram payload seq, g.CanBuild node seals datagram →
      g.TakesFresh datagram node payload seq → (payload, seq) ∈ seals) ↔
    (∀ payload seq' seq, (payload, seq') ∈ seals → g.Admissible node payload →
      ((g.window node).check_and_set seq).1 = true → (payload, seq) ∈ seals) := by
  refine ⟨?_, ?_⟩
  · intro h payload seq' seq hsealed hadmissible hfresh
    obtain ⟨cref, sig, domain, msg, msg', hcref, hsig, hverify, hdecode, hsender, hdomain⟩ :=
      hadmissible
    have htakes := takes_fresh_frame hposture hcref hsig hverify hdecode hsender hdomain hfresh
    exact h _ payload seq (g.can_build_frame hcref hsig hsealed) htakes
  · intro h datagram payload seq hbuild htakes
    obtain ⟨⟨seq', hsealed⟩, hadmissible, hfresh⟩ := takes_fresh_admissible hbuild htakes
    exact h payload seq' seq hsealed hadmissible hfresh

end Gossip

/-! ## A payload under a new sequence -/

section forged

/-- The certificate and signature of the test signer of the source. -/
def certOfX : Bytes := stringBytes "cert-of-x"

def signOfX (payload : Bytes) : Bytes := stringBytes "SIG:" ++ payload

def verifyX : Verifier := fun cert payload sig =>
  if cert = certOfX ∧ sig = signOfX payload then .ok ⟨"x", none⟩ else .error .Auth

/-- A ping of `x`, as the library encodes it. -/
def pingBytes (n : UInt8) : Bytes := [1, 0x78, 0, 0, 0, 1, 0, n, 0, 0]

def decodePing : Bytes → Option Message
  | [1, 0x78, 0, 0, 0, 1, 0, n, 0, 0] =>
    if n < 128 then
      some { sender := "x", from_addr := "", from_generation := 1, kind := .Ping n.toNat,
             gossip := [] }
    else none
  | _ => none

/-- A signed and sequenced node, `x` or another of its cluster. -/
def clusterNode : Gossip where
  auth :=
    { key := List.replicate 32 7, signer := some { cert_der := certOfX, sign := signOfX },
      verifier := some verifyX, sequenced := true }
  decode := decodePing

/-- The node after it took the first datagram of `x`. -/
def primedNode : Gossip :=
  let first : ReplayWindow := { high := 1, bitmap := 1, seeded := true }
  { clusterNode with windows := (∅ : BTreeMap NodeId ReplayWindow).insert "x" first }

/-- What `x` has sealed, and the datagram of the second. -/
def sealsOfX : List Gossip.Seal := [(pingBytes 5, 1), (pingBytes 6, 2)]

def secondOfX : Option Bytes :=
  (clusterNode.auth.seal_sequenced (pingBytes 6) 2 true).map Prod.fst

/-- The first payload of `x` under a sequence of another's choice. -/
def reframed : Bytes :=
  primedNode.auth.frame VERSION_V3
    (body_v3 100 (.Full certOfX) (signOfX (pingBytes 5)) (pingBytes 5))

/-- Bytes that `x` has sealed and this node does not decode. -/
def unreadableSeals : List Gossip.Seal := [(pingBytes 200, 2)]

/-- Nobody moves the window of a node that has sealed only what is not taken here. -/
theorem window_moved_by_own_key_iff_unreadable :
    primedNode.auth.sequenced = true ∧ primedNode.decode (pingBytes 200) = none ∧
      ∀ datagram payload seq, primedNode.CanBuild "x" unreadableSeals datagram →
        primedNode.TakesFresh datagram "x" payload seq → (payload, seq) ∈ unreadableSeals := by
  have hnone : primedNode.decode (pingBytes 200) = none := by decide
  refine ⟨rfl, hnone, ?_⟩
  apply (Gossip.window_moved_by_own_key_iff primedNode rfl "x" unreadableSeals).mpr
  rintro payload seq' seq hsealed ⟨_, _, _, msg, _, _, _, _, hdecode, _⟩ _
  cases List.mem_singleton.mp hsealed
  rw [hnone] at hdecode
  cases hdecode

/-- A payload of `x` framed anew is taken under a sequence that `x` never used, and then the
next datagram of `x` itself is dropped as a replay. -/
theorem payload_taken_under_a_forged_sequence :
    primedNode.CanBuild "x" sealsOfX reframed ∧
      primedNode.TakesFresh reframed "x" (pingBytes 5) 100 ∧
      (pingBytes 5, (100 : UInt64)) ∉ sealsOfX ∧
      secondOfX.map (fun d => (primedNode.receive d).1.isOk) = some true ∧
      secondOfX.map (fun d => ((primedNode.receive reframed).2.receive d).1) =
        some (.error "replay") := by
  have hcert : CertRef.Fits (.Full certOfX) := by
    have hlen : certOfX.length = 9 := by decide +kernel
    simp [CertRef.Fits, hlen]
  have hverify : (primedNode.auth.verify_ref (.Full certOfX) (pingBytes 5)
      (signOfX (pingBytes 5))).1 = .ok ⟨"x", none⟩ := by decide +kernel
  have hfresh : ((primedNode.window "x").check_and_set 100).1 = true := by decide +kernel
  have hsig : (signOfX (pingBytes 5)).length < 2 ^ 16 := by decide +kernel
  have hsealed : (pingBytes 5, (1 : UInt64)) ∈ sealsOfX := by simp [sealsOfX]
  refine ⟨primedNode.can_build_frame hcert hsig hsealed, ?_, by decide, ?_, ?_⟩
  · exact Gossip.takes_fresh_frame rfl hcert hsig hverify rfl rfl rfl hfresh
  · decide +kernel
  · decide +kernel

end forged

end mqtt_cluster.swim_auth
