-- Topic access control (`mqtt-auth/src/acl.rs`): rules in order, a deny that hits
-- wins, an allow has to cover the request, and a placeholder whose value is not
-- safe grants nothing and denies everything.
import MqttBroker.Core.FilterTopics

namespace mqtt_auth.acl

open mqtt_core

/-! ## Rules -/

structure Identity where
  subject : String
  groups : List String
  deriving DecidableEq, Repr

inductive Action
  | Publish
  | Subscribe
  deriving DecidableEq, Repr

inductive Effect
  | Allow
  | Deny
  deriving DecidableEq, Repr

structure Rule where
  identities : List String := []
  groups : List String := []
  publish : Bool := false
  subscribe : Bool := false
  connect : Bool := false
  effect : Effect := .Allow
  topics : List String := []
  clients : List String := []
  deriving DecidableEq, Repr

/-- The loop of `glob_match`, over what is left of the pattern and of the text. The last
star is kept as what follows it and the text from where it stopped. -/
def glob_loop : Nat → List UInt8 → List UInt8 → Option (List UInt8 × List UInt8) → Bool
  | 0, _, _, _ => false
  | _ + 1, p, [], _ => p.all (· == '*'.toUInt8)
  | fuel + 1, p, c :: t, star =>
    if p.head? = some '*'.toUInt8 then glob_loop fuel p.tail (c :: t) (some (p.tail, c :: t))
    else if p.head? = some c then glob_loop fuel p.tail t star
    else
      match star with
      -- the last star swallows one more character
      | some (after, consumed) => glob_loop fuel after consumed.tail (some (after, consumed.tail))
      | none => false

/-- Each star swallows at most the whole text, and the pattern is walked once in between. -/
def glob_match (pattern text : String) : Bool :=
  let p := pattern.toByteArray.data.toList
  let t := text.toByteArray.data.toList
  glob_loop ((p.length + 2) * (t.length + 2)) p t none

namespace Rule

def applies_to (r : Rule) : Action → Bool
  | .Publish => r.publish
  | .Subscribe => r.subscribe

def matches_principal (r : Rule) (identity : Identity) : Bool :=
  if r.identities.isEmpty && r.groups.isEmpty then true
  else r.identities.any (fun glob => glob_match glob identity.subject) ||
    r.groups.any (fun g => identity.groups.contains g)

end Rule

/-! ## Policies -/

structure RawRule where
  identities : List String := []
  groups : List String := []
  actions : List String := []
  effect : Option String := none
  topics : List String := []
  clients : List String := []

def quoted (s : String) : String := "\"" ++ s ++ "\""

def validate_effect (index : Nat) : Option String → Except String Effect
  | none => .ok .Allow
  | some other =>
    if other = "allow" then .ok .Allow
    else if other = "deny" then .ok .Deny
    else .error ("rule " ++ toString index ++ ": unknown effect " ++ quoted other ++
      " (expected \"allow\" or \"deny\")")

def validate_action (index : Nat) (action : String) : Except String Unit :=
  if action = "publish" ∨ action = "subscribe" ∨ action = "connect" then .ok ()
  else .error ("rule " ++ toString index ++ ": unknown action " ++ quoted action ++
    " (expected \"publish\", \"subscribe\", or \"connect\")")

/-- The text names a placeholder. -/
def contains_text (text : List Char) : List Char → Bool
  | [] => text.isEmpty
  | c :: rest => text.isPrefixOf (c :: rest) || contains_text text rest

def validate_lists (index : Nat) (raw : RawRule) (topic connect : Bool) : Except String Unit :=
  let rule := "rule " ++ toString index ++ ": "
  if connect then
    if topic then
      .error (rule ++ "`connect` cannot be combined with publish/subscribe in one rule")
    else if !raw.topics.isEmpty then
      .error (rule ++ "a `connect` rule uses `clients`, not `topics`")
    else if raw.clients.isEmpty then .error (rule ++ "a `connect` rule must list `clients`")
    else if raw.clients.any (fun c => contains_text "%c".toList c.toList) then
      .error (rule ++ "`%c` is meaningless in `clients` (it matches the client id " ++
        "against itself and would allow every id); use a literal glob or `%i`")
    else .ok ()
  else if !raw.clients.isEmpty then .error (rule ++ "`clients` is only valid on a `connect` rule")
  else if raw.topics.isEmpty then .error (rule ++ "`topics` must not be empty")
  else .ok ()

def validate_rule (index : Nat) (raw : RawRule) : Except String Rule := do
  let effect ← validate_effect index raw.effect
  if raw.actions.isEmpty then
    .error ("rule " ++ toString index ++ ": `actions` must not be empty")
  else
    raw.actions.forM (validate_action index)
    let publish := raw.actions.contains "publish"
    let subscribe := raw.actions.contains "subscribe"
    let connect := raw.actions.contains "connect"
    validate_lists index raw (publish || subscribe) connect
    return { identities := raw.identities, groups := raw.groups, publish, subscribe, connect,
             effect, topics := raw.topics, clients := raw.clients }

structure AclPolicy where
  default_allow : Bool
  rules : List Rule
  deriving DecidableEq, Repr

def validate_default : Option String → Except String Bool
  | none => .ok false
  | some other =>
    if other = "deny" then .ok false
    else if other = "allow" then .ok true
    else .error ("unknown default " ++ quoted other ++ " (expected \"allow\" or \"deny\")")

def validate_rules : Nat → List RawRule → Except String (List Rule)
  | _, [] => .ok []
  | index, raw :: rest => do
    let rule ← validate_rule index raw
    let rules ← validate_rules (index + 1) rest
    return rule :: rules

/-- The policy of a document, once it is parsed. -/
def AclPolicy.of_raw (default : Option String) (rules : List RawRule) :
    Except String AclPolicy := do
  let default_allow ← validate_default default
  let rules ← validate_rules 0 rules
  return { default_allow, rules }

/-- A rule is about topics or about connecting, and lists patterns of its own kind only. -/
def Rule.OneKind (r : Rule) : Prop :=
  if r.connect then r.publish = false ∧ r.subscribe = false ∧ r.topics = [] ∧ r.clients ≠ [] ∧
    ∀ c ∈ r.clients, contains_text "%c".toList c.toList = false
  else (r.publish = true ∨ r.subscribe = true) ∧ r.topics ≠ [] ∧ r.clients = []

theorem validate_lists_ok {index : Nat} {raw : RawRule} {topic connect : Bool}
    (h : validate_lists index raw topic connect = .ok ()) :
    if connect then topic = false ∧ raw.topics = [] ∧ raw.clients ≠ [] ∧
      ∀ c ∈ raw.clients, contains_text "%c".toList c.toList = false
    else raw.topics ≠ [] ∧ raw.clients = [] := by
  unfold validate_lists at h
  cases connect <;> grind

theorem validate_actions_ok {index : Nat} {actions : List String}
    (h : actions.forM (validate_action index) = .ok ()) :
    ∀ a ∈ actions, a = "publish" ∨ a = "subscribe" ∨ a = "connect" := by
  induction actions with
  | nil => simp
  | cons a rest ih =>
    change (validate_action index a >>= fun _ => rest.forM (validate_action index)) = _ at h
    rcases ha : validate_action index a with e | _
    · rw [ha] at h
      cases h
    · rw [ha] at h
      unfold validate_action at ha
      split at ha
      · rename_i hthis
        simpa [hthis] using ih h
      · cases ha

theorem validate_rule_ok {index : Nat} {raw : RawRule} {r : Rule}
    (h : validate_rule index raw = .ok r) : r.OneKind := by
  unfold validate_rule at h
  rcases heffect : validate_effect index raw.effect with e | effect
  · rw [heffect] at h
    cases h
  rw [heffect] at h
  change (if raw.actions.isEmpty then _ else _) = _ at h
  split at h
  · cases h
  rename_i hsome
  rcases hactions : raw.actions.forM (validate_action index) with e | _
  · rw [hactions] at h
    cases h
  rw [hactions] at h
  rcases hlists : validate_lists index raw (raw.actions.contains "publish" ||
      raw.actions.contains "subscribe") (raw.actions.contains "connect") with e | _
  · simp only [Except.bind, bind, hlists] at h
    cases h
  simp only [bind, Except.bind, hlists] at h
  cases h
  have hkinds := validate_actions_ok hactions
  have hof := validate_lists_ok hlists
  unfold Rule.OneKind
  dsimp only
  split at hof
  · rename_i hconnect
    obtain ⟨htopic, hrest⟩ := hof
    rw [if_pos hconnect]
    exact ⟨(Bool.or_eq_false_iff.mp htopic).1, (Bool.or_eq_false_iff.mp htopic).2, hrest⟩
  · rename_i hconnect
    rw [if_neg hconnect]
    refine ⟨?_, hof⟩
    -- Some action is listed, and it is none but these two.
    obtain ⟨a, ha⟩ := List.exists_mem_of_ne_nil _ (by simpa using hsome)
    rcases hkinds a ha with rfl | rfl | rfl
    · exact .inl (List.contains_iff_mem.mpr ha)
    · exact .inr (List.contains_iff_mem.mpr ha)
    · exact absurd (List.contains_iff_mem.mpr ha) hconnect

theorem validate_rules_ok {raws : List RawRule} {index : Nat} {rules : List Rule}
    (h : validate_rules index raws = .ok rules) :
    rules.length = raws.length ∧ ∀ r ∈ rules, r.OneKind := by
  induction raws generalizing index rules with
  | nil =>
    cases h
    simp
  | cons raw raws ih =>
    unfold validate_rules at h
    rcases hone : validate_rule index raw with e | r
    · rw [hone] at h
      cases h
    · rcases hrest : validate_rules (index + 1) raws with e | rs
      · rw [hone, hrest] at h
        cases h
      · rw [hone, hrest] at h
        cases h
        simpa [validate_rule_ok hone] using ih hrest

/-- A policy that is loaded has a rule for each rule of its document. Each is about topics or
about connecting, with patterns of its own kind, and none lets clients in by their own ids. -/
theorem loaded_rules_are_of_one_kind (default : Option String) (raws : List RawRule)
    (p : AclPolicy) (h : AclPolicy.of_raw default raws = .ok p) :
    p.rules.length = raws.length ∧ ∀ r ∈ p.rules, r.OneKind := by
  unfold AclPolicy.of_raw at h
  rcases hdefault : validate_default default with e | allow
  · rw [hdefault] at h
    cases h
  rcases hrules : validate_rules 0 raws with e | rules
  · rw [hdefault, hrules] at h
    cases h
  rw [hdefault, hrules] at h
  cases h
  exact validate_rules_ok hrules

/-! ## Placeholders -/

/-- One topic level without a wildcard. -/
def safe_for_substitution (value : String) : Bool :=
  !value.isEmpty && !value.toList.any (fun c => c == '/' || c == '+' || c == '#')

/-- The loop of `substitute`. What was substituted is not looked at again. -/
def substitute_chars (subject client_id : String) : List Char → Option (List Char)
  | '%' :: 'i' :: rest =>
    if safe_for_substitution subject then
      (substitute_chars subject client_id rest).map (subject.toList ++ ·)
    else none
  | '%' :: 'c' :: rest =>
    if safe_for_substitution client_id then
      (substitute_chars subject client_id rest).map (client_id.toList ++ ·)
    else none
  | c :: rest => (substitute_chars subject client_id rest).map (c :: ·)
  | [] => some []

def substitute (pattern subject client_id : String) : Option String :=
  if !pattern.toList.contains '%' then some pattern
  else (substitute_chars subject client_id pattern.toList).map String.ofList

/-- The inner filter of a pattern under `$share`, whose group may be a wildcard. -/
def share_inner_pattern (pattern : String) : Option String := do
  let rest ← strip_share pattern
  let (_, inner) ← split_once rest
  return String.ofList inner

/-! ## Decisions -/

/-- What decided. -/
inductive Decider
  | Hit (rule pattern : Nat)
  | UnsafeDeny (rule pattern : Nat)
  | SharedDeny (rule pattern : Nat)
  | NoConnectRules
  | Default
  deriving DecidableEq, Repr

structure Request where
  identity : Identity
  client_id : String
  action : Action
  target : String

/-- What a shared subscription receives is decided by its inner filter. -/
def Request.shared_inner (q : Request) : Option String :=
  match q.action with
  | .Subscribe => (parse_shared q.target).map Prod.snd
  | .Publish => none

/-- An allow covers the request, and where the inner filter stands under `$` the pattern's
own inner filter covers it. -/
def allow_hits (q : Request) (pattern : String) : Bool :=
  filter_covers pattern q.target &&
    match q.shared_inner.filter (fun f => f.toList.head? == some '$') with
    | none => true
    | some f => (share_inner_pattern pattern).any (fun pf => filter_covers pf f)

def hits (q : Request) (effect : Effect) (pattern : String) : Bool :=
  match q.action, effect with
  | .Publish, _ => topic_matches pattern q.target
  | .Subscribe, .Allow => allow_hits q pattern
  | .Subscribe, .Deny => filters_overlap pattern q.target

/-- One pattern of a rule: the decider of a refusal, or the first allow so far. -/
def decide_pattern (q : Request) (effect : Effect) (ri pi : Nat) (pattern : String)
    (first_allow : Option Decider) : Except Decider (Option Decider) :=
  match substitute pattern q.identity.subject q.client_id with
  | none => if effect = .Deny then .error (.UnsafeDeny ri pi) else .ok first_allow
  | some p =>
    if hits q effect p then
      match effect with
      | .Deny => .error (.Hit ri pi)
      | .Allow => .ok (some (first_allow.getD (.Hit ri pi)))
    else if effect = .Deny ∧ q.shared_inner.any (fun f => filters_overlap p f) then
      .error (.SharedDeny ri pi)
    else .ok first_allow

def decide_patterns (q : Request) (effect : Effect) (ri : Nat) :
    Nat → List String → Option Decider → Except Decider (Option Decider)
  | _, [], first_allow => .ok first_allow
  | pi, pattern :: rest, first_allow =>
    match decide_pattern q effect ri pi pattern first_allow with
    | .error d => .error d
    | .ok first_allow => decide_patterns q effect ri (pi + 1) rest first_allow

def decide_rules (q : Request) :
    Nat → List Rule → Option Decider → Except Decider (Option Decider)
  | _, [], first_allow => .ok first_allow
  | ri, rule :: rest, first_allow =>
    if !rule.applies_to q.action || !rule.matches_principal q.identity then
      decide_rules q (ri + 1) rest first_allow
    else
      match decide_patterns q rule.effect ri 0 rule.topics first_allow with
      | .error d => .error d
      | .ok first_allow => decide_rules q (ri + 1) rest first_allow

namespace AclPolicy

/-- This function is named `decide` in the source. -/
def decision (p : AclPolicy) (q : Request) : Bool × Decider :=
  match decide_rules q 0 p.rules none with
  | .error d => (false, d)
  | .ok (some d) => (true, d)
  | .ok none => (p.default_allow, .Default)

def evaluate (p : AclPolicy) (q : Request) : Bool := (p.decision q).1

def authorize_subscribe (p : AclPolicy) (identity : Identity) (client_id filter : String) : Bool :=
  p.evaluate { identity, client_id, action := .Subscribe, target := filter }

end AclPolicy

/-! ## What an authorised subscription receives -/

/-- The filter whose topics a subscription receives. -/
def received (filter : String) : String :=
  match parse_shared filter with
  | some (_, inner) => inner
  | none => filter

/-- A pattern without its own `$share` and group. What is left of `$share/#`, which stands
for every group and every filter, is `#`. -/
def unshared (pattern : String) : String :=
  match share_inner_pattern pattern with
  | some inner => inner
  | none => ((strip_share pattern).map String.ofList).getD pattern

def Rule.Concerns (r : Rule) (q : Request) : Prop :=
  r.applies_to q.action = true ∧ r.matches_principal q.identity = true

/-- What a pattern of a deny has passed when it did not refuse. -/
def Spares (q : Request) (pattern : String) : Prop :=
  ∃ p, substitute pattern q.identity.subject q.client_id = some p ∧ hits q .Deny p = false ∧
    q.shared_inner.any (fun f => filters_overlap p f) = false

def Grants (q : Request) (pattern : String) : Prop :=
  ∃ p, substitute pattern q.identity.subject q.client_id = some p ∧ hits q .Allow p = true

variable {q : Request} {effect : Effect} {ri pi : Nat} {pattern : String}
  {first_allow done : Option Decider}

theorem decide_pattern_ok (h : decide_pattern q effect ri pi pattern first_allow = .ok done) :
    (effect = .Deny → Spares q pattern ∧ done = first_allow) ∧
      (effect = .Allow → done = first_allow ∨ Grants q pattern) := by
  unfold decide_pattern at h
  cases hsub : substitute pattern q.identity.subject q.client_id with
  | none =>
    cases effect with
    | Deny => simp [hsub] at h
    | Allow =>
      simp only [hsub] at h
      cases h
      exact ⟨by simp, fun _ => .inl rfl⟩
  | some p =>
    cases effect with
    | Deny =>
      simp only [hsub] at h
      split at h
      · cases h
      · next hhit =>
        split at h
        · cases h
        · next hshared =>
          cases h
          refine ⟨fun _ => ⟨⟨p, hsub, by simpa using hhit, ?_⟩, rfl⟩, by simp⟩
          simpa using hshared
    | Allow =>
      simp only [hsub] at h
      split at h
      · next hhit => exact ⟨by simp, fun _ => .inr ⟨p, hsub, hhit⟩⟩
      · simp only [reduceCtorEq, false_and, if_false] at h
        cases h
        exact ⟨by simp, fun _ => .inl rfl⟩

theorem decide_patterns_ok {patterns : List String}
    (h : decide_patterns q effect ri pi patterns first_allow = .ok done) :
    (effect = .Deny → (∀ pattern ∈ patterns, Spares q pattern) ∧ done = first_allow) ∧
      (effect = .Allow → done = first_allow ∨ ∃ pattern ∈ patterns, Grants q pattern) := by
  induction patterns generalizing pi first_allow with
  | nil =>
    cases h
    exact ⟨by simp, fun _ => .inl rfl⟩
  | cons pattern patterns ih =>
    unfold decide_patterns at h
    split at h
    · cases h
    · next next hpattern =>
      obtain ⟨hdeny, hallow⟩ := decide_pattern_ok hpattern
      obtain ⟨hdenies, hallows⟩ := ih h
      refine ⟨?_, ?_⟩
      · intro heffect
        obtain ⟨hspares, hsame⟩ := hdeny heffect
        obtain ⟨hrest, hdone⟩ := hdenies heffect
        exact ⟨by simpa [hspares] using hrest, hdone.trans hsame⟩
      · intro heffect
        rcases hallows heffect with hdone | ⟨p, hp, hgrants⟩
        · rcases hallow heffect with hsame | hgrants
          · exact .inl (hdone.trans hsame)
          · exact .inr ⟨pattern, by simp, hgrants⟩
        · exact .inr ⟨p, by simp [hp], hgrants⟩

/-- When the rules do not refuse, every deny that has a say spares the request, and a
first allow comes from an allow that has a say. -/
theorem decide_rules_ok {rules : List Rule} (h : decide_rules q ri rules first_allow = .ok done) :
    (∀ r ∈ rules, r.Concerns q → r.effect = .Deny → ∀ pattern ∈ r.topics, Spares q pattern) ∧
      (done = first_allow ∨ ∃ r ∈ rules, r.Concerns q ∧ r.effect = .Allow ∧
        ∃ pattern ∈ r.topics, Grants q pattern) := by
  induction rules generalizing ri first_allow with
  | nil =>
    cases h
    exact ⟨by simp, .inl rfl⟩
  | cons rule rules ih =>
    unfold decide_rules at h
    split at h
    · next hskip =>
      obtain ⟨hdenies, hallows⟩ := ih h
      refine ⟨?_, ?_⟩
      · intro r hr hconcerns
        rcases List.mem_cons.mp hr with rfl | hr
        · simp [hconcerns.1, hconcerns.2] at hskip
        · exact hdenies r hr hconcerns
      · rcases hallows with hdone | ⟨r, hr, hrest⟩
        · exact .inl hdone
        · exact .inr ⟨r, by simp [hr], hrest⟩
    · next hconcerns =>
      have hconcerns : rule.Concerns q := by
        simpa [Rule.Concerns] using hconcerns
      split at h
      · cases h
      · next next hpatterns =>
        obtain ⟨hdeny, hallow⟩ := decide_patterns_ok hpatterns
        obtain ⟨hdenies, hallows⟩ := ih h
        refine ⟨?_, ?_⟩
        · intro r hr hcon heffect
          rcases List.mem_cons.mp hr with rfl | hr
          · exact (hdeny heffect).1
          · exact hdenies r hr hcon heffect
        · rcases hallows with hdone | ⟨r, hr, hrest⟩
          · cases heffect : rule.effect with
            | Deny => exact .inl (hdone.trans (hdeny heffect).2)
            | Allow =>
              rcases hallow heffect with hsame | hgrants
              · exact .inl (hdone.trans hsame)
              · exact .inr ⟨rule, by simp, hconcerns, heffect, hgrants⟩
          · exact .inr ⟨r, by simp [hr], hrest⟩

/-! ## The decision, exactly -/

theorem decide_pattern_spared (h : Spares q pattern) :
    decide_pattern q .Deny ri pi pattern first_allow = .ok first_allow := by
  obtain ⟨p, hsub, hhit, hshared⟩ := h
  simp [decide_pattern, hsub, hhit, hshared]

theorem decide_pattern_allow (q : Request) (ri pi : Nat) (pattern : String)
    (first_allow : Option Decider) :
    ∃ done, decide_pattern q .Allow ri pi pattern first_allow = .ok done ∧
      (done.isSome ↔ first_allow.isSome ∨ Grants q pattern) := by
  unfold decide_pattern Grants
  rcases hsub : substitute pattern q.identity.subject q.client_id with _ | p
  · exact ⟨first_allow, rfl, by simp⟩
  · by_cases hhit : hits q .Allow p = true
    · exact ⟨_, if_pos hhit, by simp [hhit]⟩
    · exact ⟨first_allow, by simp [hhit], by simp [hhit]⟩

theorem decide_patterns_spared {patterns : List String}
    (h : ∀ pattern ∈ patterns, Spares q pattern) :
    decide_patterns q .Deny ri pi patterns first_allow = .ok first_allow := by
  induction patterns generalizing pi with
  | nil => rfl
  | cons pattern patterns ih =>
    rw [decide_patterns, decide_pattern_spared (h pattern List.mem_cons_self)]
    exact ih fun p hp => h p (List.mem_cons_of_mem _ hp)

theorem decide_patterns_allow (q : Request) (ri : Nat) (patterns : List String) (pi : Nat)
    (first_allow : Option Decider) :
    ∃ done, decide_patterns q .Allow ri pi patterns first_allow = .ok done ∧
      (done.isSome ↔ first_allow.isSome ∨ ∃ pattern ∈ patterns, Grants q pattern) := by
  induction patterns generalizing pi first_allow with
  | nil => exact ⟨first_allow, rfl, by simp⟩
  | cons pattern patterns ih =>
    obtain ⟨next, hnext, hsome⟩ := decide_pattern_allow q ri pi pattern first_allow
    obtain ⟨done, hdone, hiff⟩ := ih (pi + 1) next
    refine ⟨done, by rw [decide_patterns, hnext]; exact hdone, ?_⟩
    rw [hiff, hsome, List.exists_mem_cons_iff, or_assoc]

def Rule.Passes (r : Rule) (q : Request) : Prop :=
  r.Concerns q → r.effect = .Deny → ∀ pattern ∈ r.topics, Spares q pattern

def Rule.Allows (r : Rule) (q : Request) : Prop :=
  r.Concerns q ∧ r.effect = .Allow ∧ ∃ pattern ∈ r.topics, Grants q pattern

theorem decide_rules_passed (ri : Nat) {rules : List Rule} (first_allow : Option Decider)
    (h : ∀ r ∈ rules, r.Passes q) :
    ∃ done, decide_rules q ri rules first_allow = .ok done ∧
      (done.isSome ↔ first_allow.isSome ∨ ∃ r ∈ rules, r.Allows q) := by
  induction rules generalizing ri first_allow with
  | nil => exact ⟨first_allow, rfl, by simp⟩
  | cons rule rules ih =>
    have hone : ∃ next, decide_rules q ri (rule :: rules) first_allow =
        decide_rules q (ri + 1) rules next ∧ (next.isSome ↔ first_allow.isSome ∨ rule.Allows q) := by
      rw [decide_rules]
      split
      · next hskip =>
        have hno : ¬ rule.Concerns q := fun hcon => by simp [hcon.1, hcon.2] at hskip
        exact ⟨first_allow, rfl, by simp [Rule.Allows, hno]⟩
      · next hcon =>
        have hcon : rule.Concerns q := by simpa [Rule.Concerns] using hcon
        cases heffect : rule.effect with
        | Deny =>
          rw [decide_patterns_spared (h rule List.mem_cons_self hcon heffect)]
          exact ⟨first_allow, rfl, by simp [Rule.Allows, heffect]⟩
        | Allow =>
          obtain ⟨next, hnext, hsome⟩ := decide_patterns_allow q ri rule.topics 0 first_allow
          rw [hnext]
          exact ⟨next, rfl, by simp [hsome, Rule.Allows, heffect, hcon]⟩
    obtain ⟨next, heq, hsome⟩ := hone
    obtain ⟨done, hdone, hiff⟩ := ih (ri + 1) next fun r hr => h r (List.mem_cons_of_mem _ hr)
    refine ⟨done, heq.trans hdone, ?_⟩
    rw [hiff, hsome, List.exists_mem_cons_iff, or_assoc]

/-- A request is granted exactly when every deny that has a say spares it, and an allow grants it
or the default does; so the order of the rules and their repetition change nothing. -/
theorem denies_win_in_any_order (p : AclPolicy) (q : Request) :
    (p.evaluate q = true ↔ (∀ r ∈ p.rules, r.Passes q) ∧
      (p.default_allow = true ∨ ∃ r ∈ p.rules, r.Allows q)) ∧
    ∀ rules, (∀ r, r ∈ rules ↔ r ∈ p.rules) → AclPolicy.evaluate { p with rules } q = p.evaluate q := by
  have hiff : ∀ p : AclPolicy, p.evaluate q = true ↔ (∀ r ∈ p.rules, r.Passes q) ∧
      (p.default_allow = true ∨ ∃ r ∈ p.rules, r.Allows q) := by
    intro p
    unfold AclPolicy.evaluate AclPolicy.decision
    by_cases hpass : ∀ r ∈ p.rules, r.Passes q
    · obtain ⟨done, hdone, hsome⟩ := decide_rules_passed 0 none hpass
      rw [hdone, and_iff_right hpass]
      cases done with
      | none =>
        have hno : ¬ ∃ r ∈ p.rules, r.Allows q := fun h => by simpa using hsome.mpr (.inr h)
        simp [hno]
      | some d =>
        have hallows : ∃ r ∈ p.rules, r.Allows q := by simpa using hsome
        simp [hallows]
    · rcases hrules : decide_rules q 0 p.rules none with d | done
      · simp [hpass]
      · exact absurd (decide_rules_ok hrules).1 hpass
  refine ⟨hiff p, fun rules hsame => Bool.eq_iff_iff.mpr ?_⟩
  rw [hiff, hiff]
  simp only [hsame]

/-! ## Patterns and what they select -/

variable {filter p topic : String}

theorem spared_receives_nothing {identity : Identity} {client_id : String}
    (h : Spares ⟨identity, client_id, .Subscribe, filter⟩ pattern)
    (hp : substitute pattern identity.subject client_id = some p)
    (ht : topic_matches (received filter) topic = true) : topic_matches p topic = false := by
  obtain ⟨p', hp', hhit, hshared⟩ := h
  have heq : p' = p := Option.some.inj (hp'.symm.trans hp)
  subst heq
  by_contra hmatch
  have hmatch : topic_matches p' topic = true := by simpa using hmatch
  have hover := filters_overlap_of_matches hmatch ht
  unfold received at hover
  cases hparse : parse_shared filter with
  | none =>
    simp only [hparse] at hover
    have hnone : filters_overlap p' filter = false := hhit
    rw [hover] at hnone
    cases hnone
  | some parts =>
    simp only [hparse] at hover
    simp [Request.shared_inner, hparse, hover] at hshared

variable {group inner : String}

/-- The levels of a pattern that covers a shared filter: `$share`, then `#` or a group and
levels that cover the inner filter. -/
theorem covers_shared (hvalid : valid_filter p = true)
    (hparse : parse_shared filter = some (group, inner)) (h : filter_covers p filter = true) :
    split p = ["$share", "#"] ∨
      ∃ g levels, split p = "$share" :: g :: levels ∧ levels ≠ [] ∧
        level_covers levels (split inner) = true := by
  obtain ⟨hfilter, -, hgroup⟩ := parse_shared_some hparse
  have hdollar : filter.toList.head? = some '$' := by
    rw [head_of_split filter '$' (by decide)]
    exact ⟨_, _, hfilter, rfl⟩
  unfold filter_covers at h
  split at h
  · cases h
  · next hdis =>
    have hwild : starts_wild p = false := by simpa [dollar_disjoint, hdollar] using hdis
    rw [hfilter] at h
    have hlevels := valid_filter_levels hvalid
    have hstart : wildFirst (split p) = false := by
      rw [← starts_wild_iff hvalid]
      exact hwild
    rcases hp : split p with _ | ⟨p0, _ | ⟨p1, ps⟩⟩
    · rw [hp] at h
      cases h
    · rw [hp] at h hstart
      simp only [wildFirst, Bool.or_eq_false_iff, beq_eq_false_iff_ne, ne_eq] at hstart
      simp [level_covers, hstart.1, hstart.2] at h
    · rw [hp] at h hstart hlevels
      simp only [wildFirst, Bool.or_eq_false_iff, beq_eq_false_iff_ne, ne_eq] at hstart
      have hshare : p0 = "$share" := by
        by_contra hne
        simp [level_covers, hstart.1, hstart.2, hne] at h
      subst hshare
      by_cases hhash : p1 = "#"
      · subst hhash
        have hrest := (valid_levels_cons (valid_levels_cons hlevels).1).2.1 (by simp)
        rw [hrest.2]
        exact .inl rfl
      · right
        simp only [level_covers, hhash, hgroup, String.reduceEq, if_false, or_true, if_true] at h
        split at h
        · refine ⟨p1, ps, rfl, ?_, h⟩
          rintro rfl
          rcases hs : split inner with _ | ⟨l, ls⟩
          · exact split_ne_nil inner hs
          · rw [hs] at h
            cases h
        · cases h

theorem share_inner_of_split {g : String} {levels : List String} (hne : levels ≠ [])
    (h : split p = "$share" :: g :: levels) :
    ∃ inner, share_inner_pattern p = some inner ∧ split inner = levels := by
  obtain ⟨rest, hrest, hlevels⟩ := strip_share_of_split (by simp) h
  cases hcut : split_once rest with
  | none =>
    have hwhole := split_whole hcut
    rw [hlevels] at hwhole
    exact absurd (List.cons.inj hwhole).2 hne
  | some ab =>
    obtain ⟨a, b⟩ := ab
    have hsplit := split_cut hcut
    rw [hlevels] at hsplit
    exact ⟨String.ofList b, by simp [share_inner_pattern, hrest, hcut], (List.cons.inj hsplit).2.symm⟩

theorem share_all_inner (h : split p = ["$share", "#"]) :
    share_inner_pattern p = none ∧ split (unshared p) = ["#"] := by
  obtain ⟨rest, hrest, hlevels⟩ := strip_share_of_split (by simp) h
  have hcut : split_once rest = none := by
    cases hcut : split_once rest with
    | none => rfl
    | some ab =>
      have hsplit := split_cut hcut
      rw [hlevels] at hsplit
      exact absurd (List.cons.inj hsplit).2.symm (split_ne_nil _)
  have hnone : share_inner_pattern p = none := by simp [share_inner_pattern, hrest, hcut]
  refine ⟨hnone, ?_⟩
  simp [unshared, hnone, hrest, hlevels]

/-- A pattern that grants a shared subscription selects, without its own `$share`, every
topic of the inner filter. -/
theorem granted_shared (hq : q.action = .Subscribe) (hvalid : valid_filter p = true)
    (hparse : parse_shared q.target = some (group, inner)) (h : allow_hits q p = true)
    (ht : topic_matches inner topic = true) : topic_matches (unshared p) topic = true := by
  have hinner : q.shared_inner = some inner := by simp [Request.shared_inner, hq, hparse]
  simp only [allow_hits, Bool.and_eq_true] at h
  obtain ⟨hcovers, hdollar⟩ := h
  have hown : inner.toList.head? = some '$' →
      ∃ pf, share_inner_pattern p = some pf ∧ filter_covers pf inner = true := by
    intro hhead
    simp only [hinner, Option.filter, hhead] at hdollar
    simpa [Option.any_eq_true] using hdollar
  by_cases htopic : topic.toList.head? = some '$'
  · obtain ⟨pf, hpf, hcov⟩ := hown ((dollar_iff_of_matches ht).mpr htopic)
    have hunshared : unshared p = pf := by simp [unshared, hpf]
    rw [hunshared]
    exact filter_covers_matches hcov ht
  · have hplain : ∀ f : String, dollar_disjoint f topic = false := by
      intro f
      simp [dollar_disjoint, htopic]
    refine topic_matches_of_levels (hplain _) ?_
    rcases covers_shared hvalid hparse hcovers with hall | ⟨g, levels, hsplit, hne, hlevels⟩
    · rw [(share_all_inner hall).2]
      rcases hs : split topic with _ | ⟨t, ts⟩
      · exact absurd hs (split_ne_nil topic)
      · simp [level_matches]
    · obtain ⟨pf, hpf, hsame⟩ := share_inner_of_split hne hsplit
      have hunshared : unshared p = pf := by simp [unshared, hpf]
      rw [hunshared, hsame]
      exact level_covers_matches hlevels (topic_matches_levels ht).2

theorem allow_hits_covers (h : allow_hits q p = true) : filter_covers p q.target = true := by
  simp only [allow_hits, Bool.and_eq_true] at h
  exact h.1

theorem granted_received (hq : q.action = .Subscribe) (hvalid : valid_filter p = true)
    (h : allow_hits q p = true) (ht : topic_matches (received q.target) topic = true) :
    topic_matches (if (parse_shared q.target).isSome then unshared p else p) topic = true := by
  cases hparse : parse_shared q.target with
  | none =>
    simp only [received, hparse] at ht
    simpa using filter_covers_matches (allow_hits_covers h) ht
  | some parts =>
    simp only [received, hparse] at ht
    simpa using granted_shared hq hvalid hparse h ht

/-- A subscription that a policy authorises receives no topic that a deny which has a say
selects, and no such deny failed to substitute. Where the policy denies by default, one
allow which has a say selects every topic that the subscription receives, without its own
`$share` when the subscription is shared. -/
theorem authorized_subscription_receives_nothing_denied (policy : AclPolicy) (identity : Identity)
    (client_id filter : String)
    (hpatterns : ∀ r ∈ policy.rules, ∀ pattern ∈ r.topics, ∀ p,
      substitute pattern identity.subject client_id = some p → valid_filter p = true)
    (h : policy.authorize_subscribe identity client_id filter = true) :
    (∀ r ∈ policy.rules, r.effect = .Deny → r.subscribe = true →
      r.matches_principal identity = true → ∀ pattern ∈ r.topics,
        ∃ p, substitute pattern identity.subject client_id = some p ∧
          ∀ topic, topic_matches (received filter) topic = true → topic_matches p topic = false) ∧
    (policy.default_allow = false → ∃ r ∈ policy.rules, r.effect = .Allow ∧
      r.subscribe = true ∧ r.matches_principal identity = true ∧ ∃ pattern ∈ r.topics,
        ∃ p, substitute pattern identity.subject client_id = some p ∧
          ∀ topic, topic_matches (received filter) topic = true →
            topic_matches (if (parse_shared filter).isSome then unshared p else p) topic = true) := by
  let q : Request := ⟨identity, client_id, .Subscribe, filter⟩
  have hdecision : (policy.decision q).1 = true := h
  unfold AclPolicy.decision at hdecision
  cases hrules : decide_rules q 0 policy.rules none with
  | error d => simp [hrules] at hdecision
  | ok done =>
    obtain ⟨hdenies, hallows⟩ := decide_rules_ok hrules
    refine ⟨?_, ?_⟩
    · intro r hr heffect hsub hprincipal pattern hpattern
      have hspares := hdenies r hr ⟨hsub, hprincipal⟩ heffect pattern hpattern
      obtain ⟨p, hp, -⟩ := id hspares
      exact ⟨p, hp, fun topic ht => spared_receives_nothing hspares hp ht⟩
    · intro hdefault
      rcases hallows with hnone | ⟨r, hr, hconcerns, heffect, pattern, hpattern, p, hp, hhits⟩
      · simp [hrules, hnone, hdefault] at hdecision
      · refine ⟨r, hr, heffect, hconcerns.1, hconcerns.2, pattern, hpattern, p, hp, ?_⟩
        intro topic ht
        have hhits : allow_hits q p = true := hhits
        exact granted_received (q := q) rfl (hpatterns r hr pattern hpattern p hp) hhits ht

/-- Shared and own topics are granted, and the broker's own tree and a secret are denied. -/
def fleetPolicy : AclPolicy :=
  { default_allow := false
    rules := [{ subscribe := true, topics := ["$share/+/dev/%i/#", "$share/#"] },
      { effect := .Deny, subscribe := true, topics := ["$SYS/#", "secret/%c/#"] }] }

def alice : Identity := { subject := "alice", groups := [] }

theorem shared_subscription_of_alice :
    fleetPolicy.authorize_subscribe alice "c1" "$share/g/dev/alice/x" = true ∧
      (∀ r ∈ fleetPolicy.rules, r.effect = .Deny → r.subscribe = true →
        r.matches_principal alice = true → ∀ pattern ∈ r.topics,
          ∃ p, substitute pattern "alice" "c1" = some p ∧
            ∀ topic, topic_matches "dev/alice/x" topic = true → topic_matches p topic = false) := by
  have hsubs : ∀ r ∈ fleetPolicy.rules, ∀ pattern ∈ r.topics,
      (substitute pattern "alice" "c1").all valid_filter = true := by decide +kernel
  have hauth : fleetPolicy.authorize_subscribe alice "c1" "$share/g/dev/alice/x" = true := by
    decide +kernel
  have hreceived : received "$share/g/dev/alice/x" = "dev/alice/x" := by decide +kernel
  have hresult := authorized_subscription_receives_nothing_denied fleetPolicy alice "c1"
    "$share/g/dev/alice/x" (fun r hr pattern hpattern p hp => by
      have hall := hsubs r hr pattern hpattern
      rw [show substitute pattern "alice" "c1" = some p from hp] at hall
      simpa using hall) hauth
  rw [hreceived] at hresult
  exact ⟨hauth, hresult.1⟩

/-! ## Covering and overlapping patterns -/

/-- A filter that covers another selects every topic of it, and a pattern that grants a
subscription selects every topic that the filter selects. A shared subscription receives the
topics of its inner filter; the pattern selects these without its own `$share`. -/
theorem covering_filter_selects_all (p r : String) :
    (filter_covers p r = true → ∀ topic, topic_matches r topic = true →
      topic_matches p topic = true) ∧
    ∀ q : Request, q.action = .Subscribe → q.target = r → hits q .Allow p = true →
      (∀ topic, topic_matches r topic = true → topic_matches p topic = true) ∧
      (valid_filter p = true → ∀ topic, topic_matches (received r) topic = true →
        topic_matches (if (parse_shared r).isSome then unshared p else p) topic = true) := by
  refine ⟨fun h topic ht => filter_covers_matches h ht, ?_⟩
  rintro q hq rfl hhits
  have hallow : allow_hits q p = true := by simpa [hits, hq] using hhits
  refine ⟨fun topic ht => filter_covers_matches (allow_hits_covers hallow) ht, ?_⟩
  intro hp topic ht
  exact granted_received hq hp hallow ht

theorem fleet_pattern_selects_its_topics :
    filter_covers "fleet/+/#" "fleet/a/+" = true ∧ topic_matches "fleet/a/+" "fleet/a/x" = true ∧
      topic_matches "fleet/+/#" "fleet/a/x" = true := by
  have hcovers : filter_covers "fleet/+/#" "fleet/a/+" = true := by decide
  have hmatches : topic_matches "fleet/a/+" "fleet/a/x" = true := by decide
  exact ⟨hcovers, hmatches,
    (covering_filter_selects_all "fleet/+/#" "fleet/a/+").1 hcovers "fleet/a/x" hmatches⟩

/-- Two filters overlap when some topic name is selected by both, whichever comes first; only
`+` and `/#` overlap without such a name. A pattern of a deny hits a subscription when some
topic name is selected by the pattern and by the filter. -/
theorem overlapping_filters_share_a_topic (a b : String) (ha : valid_filter a = true)
    (hb : valid_filter b = true) :
    (¬ MeetAtEmpty a b → (filters_overlap a b = true ↔ ∃ topic, valid_topic_name topic = true ∧
      topic_matches a topic = true ∧ topic_matches b topic = true)) ∧
    filters_overlap a b = filters_overlap b a ∧
    (MeetAtEmpty a b → filters_overlap a b = true) ∧
    ∀ (q : Request) (pattern : String) (ri pi : Nat) (first : Option Decider),
      q.action = .Subscribe → q.target = b →
      substitute pattern q.identity.subject q.client_id = some a → ¬ MeetAtEmpty a b →
      (decide_pattern q .Deny ri pi pattern first = .error (.Hit ri pi) ↔
        ∃ topic, valid_topic_name topic = true ∧ topic_matches a topic = true ∧
          topic_matches b topic = true) := by
  have hiff : ¬ MeetAtEmpty a b → (filters_overlap a b = true ↔
      ∃ topic, valid_topic_name topic = true ∧ topic_matches a topic = true ∧
        topic_matches b topic = true) := by
    intro hmeet
    constructor
    · intro h
      exact exists_common_topic ha hb h hmeet
    · rintro ⟨topic, -, hma, hmb⟩
      exact filters_overlap_of_matches hma hmb
  refine ⟨hiff, filters_overlap_comm a b, ?_, ?_⟩
  · rintro (⟨rfl, rfl⟩ | ⟨rfl, rfl⟩) <;> decide
  · rintro q pattern ri pi first hq rfl hsub hmeet
    rw [← hiff hmeet]
    have hhits : hits q .Deny a = filters_overlap a q.target := by simp [hits, hq]
    unfold decide_pattern
    simp only [hsub, hhits]
    constructor
    · intro h
      by_contra hover
      rw [if_neg hover] at h
      split at h <;> cases h
    · intro hover
      simp [hover]

theorem plus_overlaps_a_literal :
    filters_overlap "fleet/+" "+/a" = true ∧ ∃ topic, valid_topic_name topic = true ∧
      topic_matches "fleet/+" topic = true ∧ topic_matches "+/a" topic = true := by
  have hover : filters_overlap "fleet/+" "+/a" = true := by decide
  exact ⟨hover, ((overlapping_filters_share_a_topic "fleet/+" "+/a" (by decide) (by decide)).1
    (by simp [MeetAtEmpty])).mp hover⟩

theorem plus_and_slash_hash_share_no_topic :
    valid_filter "+" = true ∧ valid_filter "/#" = true ∧ filters_overlap "+" "/#" = true ∧
      ¬ ∃ topic, valid_topic_name topic = true ∧ topic_matches "+" topic = true ∧
        topic_matches "/#" topic = true := by
  refine ⟨by decide, by decide, by decide, ?_⟩
  rintro ⟨topic, hvalid, hplus, hhash⟩
  rw [not_matches_both hvalid hplus] at hhash
  cases hhash

end mqtt_auth.acl
