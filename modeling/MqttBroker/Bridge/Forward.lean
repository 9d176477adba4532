-- The forwarding policy of the bridge (`config.rs`, `forward.rs`): for a message that
-- arrived on one side, the forwards that the rules plan for it. A forward at QoS 1 comes
-- from a rule at QoS 1 or 2, and with such a rule every spool refuses when it is full.
import MqttBroker.Codec.Packet

namespace mqtt_bridge

open mqtt_core mqtt_codec ByteCodec

/-! ## The configuration -/

inductive HaMode
  | Partitioned
  | Shared
  deriving DecidableEq, Repr

inductive Direction
  | Out
  | In
  | Both
  deriving DecidableEq, Repr

def Direction.allows_out : Direction → Bool
  | .Out | .Both => true
  | .In => false

def Direction.allows_in : Direction → Bool
  | .In | .Both => true
  | .Out => false

/-- The prefix that a forward loses, and the one that it is given. -/
structure Remap where
  strip : Option String := none
  prepend : Option String := none
  deriving DecidableEq, Repr

structure Rule where
  direction : Direction
  filter : String
  remap : Option Remap := none
  qos : UInt8 := 0
  outgoing_retain : Bool := true
  deriving DecidableEq, Repr

structure Upstream where
  name : String
  rules : List Rule
  deriving DecidableEq, Repr

/-- The section `spool` of the configuration. -/
structure SpoolConfig where
  dir : Option String := none
  max_messages : Nat := 10000
  max_bytes : Nat := 0
  allow_ephemeral_spool : Bool := false
  deriving DecidableEq, Repr

structure BridgeConfig where
  upstreams : List Upstream
  hop_count_limit : Nat := 8
  ha : HaMode := .Partitioned
  «instance» : Nat := 0
  total : Nat := 1
  share_group : String := "fss-bridge"
  spool : SpoolConfig := {}
  deriving DecidableEq, Repr

/-- Whether any rule forwards at QoS 1 or above. -/
def BridgeConfig.requires_durable_spool (cfg : BridgeConfig) : Bool :=
  (cfg.upstreams.flatMap (·.rules)).any (fun r => decide (r.qos ≥ 1))

/-! ## The hop count -/

def HOP_COUNT_KEY : String := "fss-bridge-hop-count"

/-- `str::parse::<u32>`: decimal digits after at most one plus sign, within the type. -/
def parse_u32 (s : String) : Option Nat :=
  let digits := match s.toList with
    | '+' :: rest => rest
    | all => all
  if digits.isEmpty || !digits.all Char.isDigit then none
  else
    let n := digits.foldl (fun n c => n * 10 + (c.toNat - '0'.toNat)) 0
    if n < 2 ^ 32 then some n else none

/-- The first count that parses; none of them is a count of 0. -/
def read_hop_count (props : Properties) : Nat :=
  (props.findSome? (fun p => match p with
    | .UserProperty k v => if k = HOP_COUNT_KEY then parse_u32 v else none
    | _ => none)).getD 0

/-- The user properties with their hop count set to `hop`; the other properties belong to the
connection and go. -/
def set_hop_count (props : Properties) (hop : Nat) : Properties :=
  let kept := props.filter (fun p => match p with
    | .UserProperty k _ => decide (k ≠ HOP_COUNT_KEY)
    | _ => false)
  kept ++ [.UserProperty HOP_COUNT_KEY (toString hop)]

/-! ## The plan -/

inductive Side
  | Local
  | Upstream (i : Nat)
  deriving DecidableEq, Repr

structure Forward where
  dest : Side
  topic : String
  qos : UInt8
  retain_ok : Bool
  deriving DecidableEq, Repr

def delivered_qos (rule_qos : UInt8) : UInt8 := if rule_qos ≥ 2 then 1 else rule_qos

/-- `topic` without `pre` in front of it, where it has that. -/
def stripped (pre topic : String) : String :=
  if pre.toList.isPrefixOf topic.toList then String.ofList (topic.toList.drop pre.length)
  else topic

def apply_remap (remap : Option Remap) (topic : String) : String :=
  match remap with
  | none => topic
  | some remap =>
    let rest := match remap.strip with
      | some pre => stripped pre topic
      | none => topic
    match remap.prepend with
    | some p => p ++ rest
    | none => rest

def fnv1a (bytes : List UInt8) : UInt64 :=
  bytes.foldl (fun hash b => (hash ^^^ b.toUInt64) * 0x00000100000001b3) 0xcbf29ce484222325

/-- Whether the instance forwards the topics of `topic`'s hash; a lone one forwards all. -/
def owns (topic : String) (total inst : Nat) : Bool :=
  if total ≤ 1 then true
  else decide ((fnv1a (stringBytes topic)).toNat % total = inst)

/-- The forward of a rule to `dest`. -/
def Rule.forward (rule : Rule) (dest : Side) (topic : String) : Forward :=
  { dest, topic := apply_remap rule.remap topic, qos := delivered_qos rule.qos,
    retain_ok := rule.outgoing_retain }

/-- Where a message goes: out to upstreams from the local side, and in from an upstream to the
local side, by the rules that are open in this direction. -/
def plan_forwards (cfg : BridgeConfig) (source : Side) (topic : String) (hop_count : Nat) :
    List Forward :=
  if hop_count ≥ cfg.hop_count_limit then []
  else match source with
    | .Local => cfg.upstreams.zipIdx.flatMap (fun (up, i) =>
        (up.rules.filter (fun r => r.direction.allows_out && topic_matches r.filter topic)).map
          (·.forward (.Upstream i) topic))
    | .Upstream i => match cfg.upstreams[i]? with
      | some up =>
        (up.rules.filter (fun r => r.direction.allows_in && topic_matches r.filter topic)).map
          (·.forward .Local topic)
      | none => []

/-- The filters of the local connection, in a shared group where the mode has one. -/
def local_subscriptions (cfg : BridgeConfig) : List (String × UInt8) :=
  let use_share := cfg.ha = .Shared ∧ cfg.share_group ≠ ""
  cfg.upstreams.flatMap (fun up =>
    (up.rules.filter (·.direction.allows_out)).map (fun r =>
      (if use_share then "$share/" ++ cfg.share_group ++ "/" ++ r.filter else r.filter,
        delivered_qos r.qos)))

def upstream_subscriptions (cfg : BridgeConfig) (i : Nat) : List (String × UInt8) :=
  match cfg.upstreams[i]? with
  | some up => (up.rules.filter (·.direction.allows_in)).map
      (fun r => (r.filter, delivered_qos r.qos))
  | none => []

/-! ## What a planned forward is -/

variable {cfg : BridgeConfig} {source : Side} {topic : String} {hop : Nat} {f : Forward}

theorem planned_of_rule (h : f ∈ plan_forwards cfg source topic hop) :
    ∃ up ∈ cfg.upstreams, ∃ r ∈ up.rules, f = r.forward f.dest topic := by
  unfold plan_forwards at h
  split at h
  · simp at h
  · cases source with
    | Local =>
      obtain ⟨⟨up, i⟩, hup, hf⟩ := List.mem_flatMap.mp h
      obtain ⟨r, hr, rfl⟩ := List.mem_map.mp hf
      have hmem : up ∈ cfg.upstreams := by
        simpa using List.fst_mem_of_mem_zipIdx hup
      exact ⟨up, hmem, r, (List.mem_filter.mp hr).1, rfl⟩
    | Upstream i =>
      dsimp only at h
      split at h
      · next up hup =>
        obtain ⟨r, hr, rfl⟩ := List.mem_map.mp h
        exact ⟨up, List.mem_of_getElem? hup, r, (List.mem_filter.mp hr).1, rfl⟩
      · simp at h

theorem rule_of_delivered {q : UInt8} (h : delivered_qos q = 1) : q ≥ 1 := by
  unfold delivered_qos at h
  split at h
  · next hq =>
    have htwo : (1 : UInt8) ≤ 2 := by decide
    exact UInt8.le_trans htwo hq
  · exact h ▸ UInt8.le_refl 1

theorem durable_of_planned (h : f ∈ plan_forwards cfg source topic hop) (hq : f.qos = 1) :
    cfg.requires_durable_spool = true := by
  obtain ⟨up, hup, r, hr, hf⟩ := planned_of_rule h
  have hqos : delivered_qos r.qos = 1 := by
    rw [hf] at hq
    exact hq
  refine List.any_eq_true.mpr ⟨r, List.mem_flatMap.mpr ⟨up, hup, hr⟩, ?_⟩
  simpa using rule_of_delivered hqos

theorem planned_side (h : f ∈ plan_forwards cfg source topic hop) :
    f.dest = .Local ∨ ∃ i < cfg.upstreams.length, f.dest = .Upstream i := by
  unfold plan_forwards at h
  split at h
  · simp at h
  · cases source with
    | Local =>
      obtain ⟨⟨up, i⟩, hup, hf⟩ := List.mem_flatMap.mp h
      obtain ⟨r, _, rfl⟩ := List.mem_map.mp hf
      have hi := List.snd_lt_add_of_mem_zipIdx hup
      exact .inr ⟨i, by simpa using hi, rfl⟩
    | Upstream i =>
      dsimp only at h
      split at h
      · obtain ⟨r, _, rfl⟩ := List.mem_map.mp h
        exact .inl rfl
      · simp at h

theorem set_hop_count_user (props : Properties) (n : Nat) :
    ∀ p ∈ set_hop_count props n, ∃ k v, p = .UserProperty k v := by
  intro p hp
  rcases List.mem_append.mp hp with hp | hp
  · have hkept := (List.mem_filter.mp hp).2
    cases p with
    | UserProperty k v => exact ⟨k, v, rfl⟩
    | _ => simp at hkept
  · exact ⟨_, _, by simpa using hp⟩

end mqtt_bridge
