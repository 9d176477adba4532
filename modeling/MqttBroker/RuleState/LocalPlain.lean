-- What a local namespace is for: a plain map from key to typed value and expiry. A key is
-- absent from the moment its expiry is reached, and the operations read and write values
-- with no shard, order, count or held key in sight.
import MqttBroker.RuleState.LocalSweep

namespace mqttd.rule_state.local_store

open mqtt_rules

/-! ## What a key holds -/

/-- A typed value with its size, when it expires (never, at 0), and whether a call has used it
under `lru`. -/
structure Held where
  data : Data
  bytes : Nat
  expires_ms : Nat
  lru : Bool

def Held.expired (h : Held) (now_ms : Nat) : Bool :=
  decide (h.expires_ms ≠ 0) && decide (h.expires_ms ≤ now_ms)

/-- What a call leaves in its key: a value with its size, and the time to live that it named. -/
structure Wrote where
  data : Data
  bytes : Nat
  ttl : Option Nat

/-- A call that is not refused: its reply and what it leaves, if not an absent key. -/
structure Result (α : Type) where
  reply : α
  left : Option Wrote

/-- What a call comes to. -/
abbrev Verdict (α : Type) := Except (Refusal × String) (Result α)

namespace Verdict

def replies (value : Option Value) (left : Option Wrote) : Verdict StateReply :=
  .ok { reply := { value, read_bytes := 0 }, left }

/-- The key stays as it is, but for a time to live. -/
def keeps (value : Option Value) (h : Held) (ttl : Option Nat) : Verdict StateReply :=
  replies value (some { data := h.data, bytes := h.bytes, ttl })

def sets (value : Option Value) (data : Data) (bytes : Nat) (ttl : Option Nat) :
    Verdict StateReply :=
  replies value (some { data, bytes, ttl })

def wrongType {α : Type} (held : Data) (wanted : String) : Verdict α :=
  .error (.WrongType, wrong_type_message held wanted)

end Verdict

open Verdict

/-! ## The operations -/

/-- What an operation on one key does, given what the key holds at `now_ms`. -/
def verdict (est : Estimate) (op : StateOp) (held : Option Held) (now_ms : Nat) :
    Verdict StateReply :=
  match op, held with
  | .Get _, none => replies none none
  | .Get _, some h =>
    .ok {
      reply := {
        value := some (read est h.data)
        read_bytes := match h.data with
          | .Hll _ => NUMBER_BYTES
          | _ => h.bytes }
      left := some { data := h.data, bytes := h.bytes, ttl := none } }
  | .Set _ value ttl, none => sets none (lww value.value) value.bytes ttl
  | .Set _ value ttl, some h =>
    match h.data with
    | .Lww _ _ => sets none (lww value.value) value.bytes ttl
    | other => wrongType other "lww"
  | .SetOnce _ value ttl, none => sets (some value.value) (first value.value) value.bytes ttl
  | .SetOnce _ _ ttl, some h =>
    match h.data with
    | .First _ held =>
      .ok {
        reply := { value := some held, read_bytes := h.bytes }
        left := some { data := h.data, bytes := h.bytes, ttl } }
    | other => wrongType other "first"
  | .Incr _ by_ ttl, none => sets (some (.Int by_)) (counter by_) NUMBER_BYTES ttl
  | .Incr _ by_ ttl, some h =>
    match h.data with
    | .Sum counts =>
      match counts.add LOCAL_NODE by_ with
      | .ok (sum, counts) => sets (some (.Int (Int64.ofInt sum))) (.Sum counts) h.bytes ttl
      | .error .Overflow => .error (.Other, "the counter would pass 64 bits")
      | .error _ => .error (.Other, "the counter holds counts of as many nodes as it may")
    | other => wrongType other "sum"
  -- Two keys: see `Plain.incr_once`.
  | .IncrOnce _ _ _ _, _ => replies none none
  | .Extreme _ value largest ttl, none =>
    sets (some value.value) (View.extreme largest value.value) value.bytes ttl
  | .Extreme _ value largest ttl, some h =>
    match View.extremeHeld largest h.data with
    | some held =>
      if View.wins largest value.value held then
        sets (some value.value) (View.extreme largest value.value) value.bytes ttl
      else keeps (some held) h ttl
    | none => wrongType h.data (if largest then "max" else "min")
  | .Add _ element identity ttl, none =>
    sets (some (.Int 1)) (set_of identity element.value) (ELEMENT_OVERHEAD + element.bytes) ttl
  | .Add _ element identity ttl, some h =>
    match h.data with
    | .Union elements =>
      match elements.insert identity element.value with
      | some (is_new, elements) =>
        sets (some (int_of elements.items.length)) (.Union elements)
          (if is_new then h.bytes + ELEMENT_OVERHEAD + element.bytes else h.bytes) ttl
      | none => .error (.Other, "the set holds 1024 elements, the most a set may")
    | other => wrongType other "union"
  | .Del _, held => replies (some (.Bool held.isSome)) none
  | .Ttl _, none => replies none none
  | .Ttl _, some h =>
    keeps (if h.expires_ms ≠ 0 then some (int_of ((h.expires_ms - now_ms + 999) / 1000)) else none)
      h none
  | .Held _ holds ttl, none =>
    if holds then sets (some (.Int 0)) (first (int_of now_ms)) 8 ttl else replies none none
  | .Held _ holds ttl, some h =>
    match h.data with
    | .First _ since =>
      if holds then
        match since with
        | .Int since => keeps (some (seconds since.toInt.toNat now_ms)) h ttl
        | _ => .error (.WrongType,
            "the key holds a value kv_set_once stored, not the time kv_held records")
      else replies none none
    | other => wrongType other "first"
  | .Changed _ value ttl, none => sets (some (.Bool true)) (lww value.value) value.bytes ttl
  | .Changed _ value ttl, some h =>
    match h.data with
    | .Lww _ held =>
      if exact_eq held value.value then keeps (some (.Bool false)) h ttl
      else sets (some (.Bool true)) (lww value.value) value.bytes ttl
    | other => wrongType other "lww"
  | .HllAdd _ hash ttl, none =>
    let sketch := ((Hll.mk (.Sparse [])).add hash).2
    sets (some (estimate est sketch)) (.Hll sketch) (SKETCH_OVERHEAD + sketch_bytes sketch) ttl
  | .HllAdd _ hash ttl, some h =>
    match h.data with
    | .Hll sketch =>
      let added := (sketch.add hash).2
      sets (some (estimate est added)) (.Hll added)
        (h.bytes + (sketch_bytes added - sketch_bytes sketch)) ttl
    | other => wrongType other "hll"
  | .HllCount _, none => replies (some (.Int 0)) none
  | .HllCount _, some h =>
    match h.data with
    | .Hll sketch => keeps (some (estimate est sketch)) h none
    | other => wrongType other "hll"

/-- Whether an idempotency key is new, and is remembered from now on. -/
def verdictOnce (settings : NamespaceSettings) (held : Option Held) (now_ms : Nat) :
    Verdict Bool :=
  match held with
  | some h => .ok { reply := false, left := some { data := h.data, bytes := h.bytes, ttl := none } }
  | none => .ok {
      reply := true
      left := some {
        data := first (int_of now_ms), bytes := NUMBER_BYTES
        ttl := some settings.dedupe_window_secs } }

/-- What a counter holds, for a call that adds nothing. -/
def verdictCount (est : Estimate) (held : Option Held) : Verdict StateReply :=
  match held with
  | none => replies (some (.Int 0)) none
  | some h =>
    match h.data with
    | .Sum _ => keeps (some (read est h.data)) h none
    | other => wrongType other "sum"

/-! ## The map -/

abbrev Plain := Key → Option Held

/-- The expiry that a key has after a call: from the time to live that the call named, or the
one that it has; a new key has the default one. -/
def expiryAfter (settings : NamespaceSettings) (held : Option Held) (ttl : Option Nat)
    (now_ms : Nat) : Nat :=
  match ttl, held with
  | some secs, _ => View.expires_at now_ms secs
  | none, some h => h.expires_ms
  | none, none => (settings.default_ttl_secs.map (View.expires_at now_ms)).getD 0

namespace Plain

/-- What a key holds at `now_ms`: nothing from the moment its expiry is reached. -/
def live (m : Plain) (key : Key) (now_ms : Nat) : Option Held :=
  (m key).filter (fun h => !h.expired now_ms)

def put (m : Plain) (settings : NamespaceSettings) (key : Key) (left : Option Wrote)
    (now_ms : Nat) : Plain :=
  let held := m.live key now_ms
  Function.update m key (left.map (fun w =>
    { data := w.data, bytes := w.bytes
      expires_ms := expiryAfter settings held w.ttl now_ms
      lru := held.any (·.lru) || decide (settings.eviction = .Lru) }))

/-- A call that came to the verdict. -/
def settle {α : Type} (m : Plain) (settings : NamespaceSettings) (key : Key) (now_ms : Nat) :
    Verdict α → Except StateError α × Plain
  | .error (refusal, message) => (.error ⟨refusal.reason, message⟩, m)
  | .ok result => (.ok result.reply, m.put settings key result.left now_ms)

def apply (est : Estimate) (m : Plain) (settings : NamespaceSettings) (op : StateOp)
    (now_ms : Nat) : Except StateError StateReply × Plain :=
  m.settle settings (op_key op) now_ms (verdict est op (m.live (op_key op) now_ms) now_ms)

def remember (m : Plain) (settings : NamespaceSettings) (seen : Key) (now_ms : Nat) :
    Except StateError Bool × Plain :=
  m.settle settings seen now_ms (verdictOnce settings (m.live seen now_ms) now_ms)

def count (est : Estimate) (m : Plain) (settings : NamespaceSettings) (key : Key)
    (now_ms : Nat) : Except StateError StateReply × Plain :=
  m.settle settings key now_ms (verdictCount est (m.live key now_ms))

/-- An increment with an idempotency key: it counts at the first call with the key, and is
as if it had not been called where it is refused. -/
def incr_once (est : Estimate) (m : Plain) (settings : NamespaceSettings) (key : Key)
    (by_ : Int64) (ttl : Option Nat) (once : Key) (first_ms then_ms : Nat) :
    Except StateError StateReply × Plain :=
  match m.remember settings (remembered_of once) first_ms with
  | (.error e, m) => (.error e, m)
  | (.ok false, m) => m.count est settings key then_ms
  | (.ok true, m) =>
    match m.apply est settings (.Incr key by_ ttl) then_ms with
    | (.ok reply, m) => (.ok reply, m)
    | (.error e, m) => (.error e, Function.update m (remembered_of once) none)

/-- A call. Only one that counts a message once looks at the clock twice. -/
def call (est : Estimate) (m : Plain) (settings : NamespaceSettings) (op : StateOp)
    (first_ms then_ms : Nat) : Except StateError StateReply × Plain :=
  match op with
  | .IncrOnce key by_ ttl once => m.incr_once est settings key by_ ttl once first_ms then_ms
  | op => m.apply est settings op first_ms

end Plain

end mqttd.rule_state.local_store
