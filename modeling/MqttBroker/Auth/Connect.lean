-- Which client ids an identity may connect with (`mqtt-auth/src/acl.rs`): the patterns of
-- connect rules, in which `%i` is replaced by the subject before the glob is matched.
-- The placeholder stands for the subject itself exactly when the subject has no star.
import Mathlib.Tactic.Linarith
import Mathlib.Tactic.Ring
import MqttBroker.Auth.Acl
import MqttBroker.Lib.Glob

namespace mqtt_auth.acl

open Glob

/-! ## The glob matcher -/

/-- The steps that the loop may take: the pattern is walked once for each place where the last
star stops. -/
def potential (p t : List UInt8) : Option (List UInt8 × List UInt8) → Nat
  | none => p.length + 1 + t.length * p.length
  | some (after, consumed) => p.length + 1 + consumed.length * (after.length + 1)

/-- What was walked since the last star are symbols that stand for themselves. -/
def Since (star : UInt8) (p t : List UInt8) : Option (List UInt8 × List UInt8) → Prop
  | none => True
  | some (after, consumed) => ∃ lit, star ∉ lit ∧ after = lit ++ p ∧ consumed = lit ++ t

/-- What the loop is to find: a match of what is left, or of the last star and all after it. -/
def Found (star : UInt8) (p t : List UInt8) : Option (List UInt8 × List UInt8) → Prop
  | none => Matches star p t
  | some (after, consumed) => Matches star (star :: after) consumed

variable {star : UInt8} {p : List UInt8} {last : Option (List UInt8 × List UInt8)}

theorem found_at_end (h : Since star p [] last) : Found star p [] last ↔ ∀ b ∈ p, b = star := by
  rw [← matches_empty]
  cases last with
  | none => exact Iff.rfl
  | some e =>
    obtain ⟨after, consumed⟩ := e
    obtain ⟨lit, hlit, rfl, rfl⟩ := h
    change Matches star (star :: (lit ++ p)) (lit ++ []) ↔ _
    rw [matches_star]
    constructor
    · rintro ⟨run, rest, heq, hrest⟩
      obtain ⟨rest', rfl, hrest'⟩ := (matches_literal hlit).mp hrest
      have hlen := congrArg List.length heq
      simp only [List.length_append, List.length_nil] at hlen
      have hnil : rest' = [] := List.length_eq_zero_iff.mp (by omega)
      rw [← hnil]
      exact hrest'
    · intro hempty
      exact ⟨[], lit ++ [], rfl, (matches_literal hlit).mpr ⟨[], rfl, hempty⟩⟩

variable {t : List UInt8}

theorem found_at_star (h : Since star (star :: p) t last) :
    Found star (star :: p) t last ↔ Matches star (star :: p) t := by
  cases last with
  | none => exact Iff.rfl
  | some e =>
    obtain ⟨after, consumed⟩ := e
    obtain ⟨lit, hlit, rfl, rfl⟩ := h
    change Matches star (star :: (lit ++ star :: p)) (lit ++ t) ↔ _
    rw [matches_star]
    constructor
    · rintro ⟨run, rest, heq, hrest⟩
      obtain ⟨rest', rfl, hrest'⟩ := (matches_literal hlit).mp hrest
      -- what is left of the text ends with what the new star is matched against
      have hsuffix : rest' <:+ t := by
        have hlong : rest'.length ≤ t.length := by
          have hlen := congrArg List.length heq
          simp only [List.length_append] at hlen
          omega
        apply List.suffix_of_suffix_length_le _ (List.suffix_append lit t) hlong
        rw [heq, ← List.append_assoc]
        exact List.suffix_append _ _
      obtain ⟨run', rfl⟩ := hsuffix
      exact matches_star_append hrest' run'
    · intro hmatch
      exact ⟨[], lit ++ t, rfl, (matches_literal hlit).mpr ⟨t, rfl, hmatch⟩⟩

/-- A symbol that stands for itself is walked over. -/
theorem found_at_literal {c : UInt8} (hc : c ≠ star) (h : Since star (c :: p) (c :: t) last) :
    Since star p t last ∧ (Found star (c :: p) (c :: t) last ↔ Found star p t last) := by
  cases last with
  | none =>
    refine ⟨trivial, ?_⟩
    change Matches star (c :: p) (c :: t) ↔ Matches star p t
    rw [matches_cons hc]
    simp
  | some e =>
    obtain ⟨after, consumed⟩ := e
    obtain ⟨lit, hlit, rfl, rfl⟩ := h
    refine ⟨⟨lit ++ [c], ?_, by simp, by simp⟩, Iff.rfl⟩
    simp [hlit, Ne.symm hc]

theorem not_matches_of_head {c : UInt8} (hstar : p.head? ≠ some star) (hc : p.head? ≠ some c) :
    ¬ Matches star p (c :: t) := by
  cases p with
  | nil => simp [Matches]
  | cons b p =>
    have hb : b ≠ star := by simpa using hstar
    have hbc : b ≠ c := by simpa using hc
    rw [matches_cons hb]
    simp [Ne.symm hbc]

/-- Where the pattern does not go on as the text does, the last star takes in one more. -/
theorem found_at_mismatch {c : UInt8} {after consumed : List UInt8} (hstar : p.head? ≠ some star)
    (hc : p.head? ≠ some c) (h : Since star p (c :: t) (some (after, consumed))) :
    Found star p (c :: t) (some (after, consumed)) ↔
      Matches star (star :: after) consumed.tail := by
  obtain ⟨lit, hlit, rfl, rfl⟩ := h
  have hnow : ¬ Matches star (lit ++ p) (lit ++ c :: t) := by
    rw [matches_literal hlit]
    rintro ⟨rest, heq, hrest⟩
    rw [← List.append_cancel_left heq] at hrest
    exact not_matches_of_head hstar hc hrest
  change Matches star (star :: (lit ++ p)) (lit ++ c :: t) ↔ _
  generalize hconsumed : lit ++ c :: t = consumed at hnow
  cases consumed with
  | nil => simp at hconsumed
  | cons d consumed =>
    rw [matches_star_cons]
    simp [hnow]

/-- The loop with its turns counted: no answer when they run out. -/
def glob_turns : Nat → List UInt8 → List UInt8 → Option (List UInt8 × List UInt8) → Option Bool
  | 0, _, _, _ => none
  | _ + 1, p, [], _ => some (p.all (· == '*'.toUInt8))
  | turns + 1, p, c :: t, star =>
    if p.head? = some '*'.toUInt8 then glob_turns turns p.tail (c :: t) (some (p.tail, c :: t))
    else if p.head? = some c then glob_turns turns p.tail t star
    else
      match star with
      | some (after, consumed) => glob_turns turns after consumed.tail (some (after, consumed.tail))
      | none => some false

theorem glob_loop_eq (fuel : Nat) (p t : List UInt8) (last : Option (List UInt8 × List UInt8)) :
    glob_loop fuel p t last = (glob_turns fuel p t last).getD false := by
  induction fuel generalizing p t last with
  | zero => rfl
  | succ fuel ih =>
    cases t with
    | nil => simp [glob_loop, glob_turns]
    | cons c t =>
      rw [glob_loop.eq_def, glob_turns.eq_def]
      dsimp only
      split
      · exact ih _ _ _
      · split
        · exact ih _ _ _
        · cases last with
          | none => rfl
          | some e => exact ih _ _ _

/-- Within its potential the loop ends, and finds a match when there is one. -/
theorem glob_turns_spec (fuel : Nat) (p t : List UInt8) (last : Option (List UInt8 × List UInt8))
    (hsince : Since '*'.toUInt8 p t last) (hfuel : potential p t last ≤ fuel) :
    ∃ found, glob_turns fuel p t last = some found ∧
      (found = true ↔ Found '*'.toUInt8 p t last) := by
  induction fuel generalizing p t last with
  | zero =>
    cases last with
    | none => simp [potential] at hfuel
    | some e => simp [potential] at hfuel
  | succ fuel ih =>
    cases t with
    | nil =>
      rw [found_at_end hsince]
      exact ⟨_, rfl, by simp⟩
    | cons c t =>
      rw [glob_turns.eq_def]
      dsimp only
      by_cases hstar : p.head? = some '*'.toUInt8
      · obtain ⟨q, rfl⟩ : ∃ q, p = '*'.toUInt8 :: q := by
          cases p with
          | nil => simp at hstar
          | cons b q => exact ⟨q, by simpa using hstar⟩
        rw [if_pos hstar, found_at_star hsince]
        apply ih
        · exact ⟨[], by simp, rfl, rfl⟩
        · cases last with
          | none =>
            simp only [potential, List.length_cons, List.tail_cons] at hfuel ⊢
            ring_nf at hfuel ⊢
            omega
          | some e =>
            obtain ⟨after, consumed⟩ := e
            obtain ⟨lit, _, rfl, rfl⟩ := hsince
            simp only [potential, List.length_cons, List.length_append, List.tail_cons] at hfuel ⊢
            nlinarith
      · rw [if_neg hstar]
        by_cases hc : p.head? = some c
        · obtain ⟨q, rfl⟩ : ∃ q, p = c :: q := by
            cases p with
            | nil => simp at hc
            | cons b q => exact ⟨q, by simpa using hc⟩
          have hne : c ≠ '*'.toUInt8 := by simpa using hstar
          obtain ⟨hsince', hfound⟩ := found_at_literal hne hsince
          rw [if_pos hc, hfound]
          apply ih
          · exact hsince'
          · cases last with
            | none =>
              simp only [potential, List.length_cons, List.tail_cons] at hfuel ⊢
              nlinarith
            | some e =>
              simp only [potential, List.length_cons, List.tail_cons] at hfuel ⊢
              omega
        · rw [if_neg hc]
          cases last with
          | none =>
            refine ⟨false, rfl, ?_⟩
            change false = true ↔ Matches _ p (c :: t)
            simpa using not_matches_of_head hstar hc
          | some e =>
            obtain ⟨after, consumed⟩ := e
            rw [found_at_mismatch hstar hc hsince]
            apply ih
            · exact ⟨[], by simp, rfl, rfl⟩
            · obtain ⟨lit, _, rfl, rfl⟩ := hsince
              simp only [potential, List.length_append, List.length_cons, List.length_tail]
                at hfuel ⊢
              have hone : lit.length + (t.length + 1) - 1 = lit.length + t.length := by omega
              rw [hone]
              nlinarith

/-! ## Bytes and characters -/

/-- The matcher works on bytes; what it decides is about characters. -/
theorem bytes_match_iff (pattern text : String) :
    Found '*'.toUInt8 pattern.toByteArray.data.toList text.toByteArray.data.toList none ↔
      Matches '*' pattern.toList text.toList := by
  have hmark : UInt8.IsUTF8FirstByte '*'.toUInt8 := by decide
  have hstar : String.utf8EncodeChar '*' = ['*'.toUInt8] := by decide
  change Matches _ _ _ ↔ _
  rw [bytes_eq_flatMap, bytes_eq_flatMap]
  exact matches_encoded utf8_synchronised hstar hmark _ _

theorem potential_le (p t : List UInt8) : potential p t none ≤ (p.length + 2) * (t.length + 2) := by
  simp only [potential]
  nlinarith

theorem glob_match_iff (pattern text : String) :
    glob_match pattern text = true ↔ Matches '*' pattern.toList text.toList := by
  rw [← bytes_match_iff]
  unfold glob_match
  dsimp only
  obtain ⟨found, hturns, hfound⟩ := glob_turns_spec _ _ _ none trivial (potential_le _ _)
  rw [glob_loop_eq, hturns]
  exact hfound

/-- The loop of `glob_match` comes to its end, and its answer is whether the text can be cut
into pieces for the characters of the pattern: any piece for a star, the character itself for
any other. -/
theorem glob_match_is_exact (pattern text : String) :
    (∃ turns, ∀ fuel ≥ turns, glob_turns fuel pattern.toByteArray.data.toList
      text.toByteArray.data.toList none = some (glob_match pattern text)) ∧
    (glob_match pattern text = true ↔ ∃ pieces, text.toList = pieces.flatten ∧
      List.Forall₂ (fun c piece => c = '*' ∨ piece = [c]) pattern.toList pieces) := by
  refine ⟨⟨potential pattern.toByteArray.data.toList text.toByteArray.data.toList none, ?_⟩, ?_⟩
  · intro fuel hfuel
    obtain ⟨found, hturns, hfound⟩ := glob_turns_spec fuel _ _ none trivial hfuel
    rw [hturns, Option.some.injEq, Bool.eq_iff_iff, glob_match_iff, hfound]
    exact bytes_match_iff pattern text
  · rw [glob_match_iff, matches_iff_pieces]

/-! ## Connect rules -/

/-- The pattern with each `%i` replaced. What was put in is not looked at again. -/
def replace_identity (subject : List Char) : List Char → List Char
  | '%' :: 'i' :: rest => subject ++ replace_identity subject rest
  | c :: rest => c :: replace_identity subject rest
  | [] => []

/-- The pattern to match for a subject. A subject that is not safe has none. -/
def connect_pattern (pattern subject : String) : Option String :=
  if contains_text "%i".toList pattern.toList then
    if safe_for_substitution subject then
      some (String.ofList (replace_identity subject.toList pattern.toList))
    else none
  else some pattern

/-- One pattern of a connect rule: the decider of a refusal, or the first allow so far. -/
def decide_connect_pattern (identity : Identity) (client_id : String) (effect : Effect)
    (ri pi : Nat) (pattern : String) (first_allow : Option Decider) :
    Except Decider (Option Decider) :=
  match connect_pattern pattern identity.subject with
  | none => if effect = .Deny then .error (.UnsafeDeny ri pi) else .ok first_allow
  | some p =>
    if glob_match p client_id then
      match effect with
      | .Deny => .error (.Hit ri pi)
      | .Allow => .ok (some (first_allow.getD (.Hit ri pi)))
    else .ok first_allow

def decide_connect_patterns (identity : Identity) (client_id : String) (effect : Effect)
    (ri : Nat) : Nat → List String → Option Decider → Except Decider (Option Decider)
  | _, [], first_allow => .ok first_allow
  | pi, pattern :: rest, first_allow =>
    match decide_connect_pattern identity client_id effect ri pi pattern first_allow with
    | .error d => .error d
    | .ok first_allow => decide_connect_patterns identity client_id effect ri (pi + 1) rest first_allow

def decide_connect_rules (identity : Identity) (client_id : String) :
    Nat → List Rule → Option Decider → Except Decider (Option Decider)
  | _, [], first_allow => .ok first_allow
  | ri, rule :: rest, first_allow =>
    if !rule.connect || !rule.matches_principal identity then
      decide_connect_rules identity client_id (ri + 1) rest first_allow
    else
      match decide_connect_patterns identity client_id rule.effect ri 0 rule.clients first_allow with
      | .error d => .error d
      | .ok first_allow => decide_connect_rules identity client_id (ri + 1) rest first_allow

namespace AclPolicy

/-- Without any connect rule every client id may connect. -/
def decide_connect (p : AclPolicy) (identity : Identity) (client_id : String) : Bool × Decider :=
  match decide_connect_rules identity client_id 0 p.rules none with
  | .error d => (false, d)
  | .ok (some d) => (true, d)
  | .ok none =>
    if !p.rules.any (·.connect) then (true, .NoConnectRules) else (false, .Default)

def evaluate_connect (p : AclPolicy) (identity : Identity) (client_id : String) : Bool :=
  (p.decide_connect identity client_id).1

end AclPolicy

/-! ## What a pattern spells out -/

/-- The client id is the pattern's text, with the subject's own characters for each `%i` and
any run of characters for each star. -/
def Spells (subject : List Char) : List Char → List Char → Prop
  | '%' :: 'i' :: rest, id => ∃ after, id = subject ++ after ∧ Spells subject rest after
  | c :: rest, id =>
    if c = '*' then ∃ run after, id = run ++ after ∧ Spells subject rest after
    else ∃ after, id = c :: after ∧ Spells subject rest after
  | [], id => id = []

variable {subject : List Char}

theorem matches_replaced_iff (h : '*' ∉ subject) (pattern id : List Char) :
    Matches '*' (replace_identity subject pattern) id ↔ Spells subject pattern id := by
  induction pattern using replace_identity.induct generalizing id with
  | case1 rest ih =>
    rw [replace_identity, Spells, matches_literal h]
    simp only [ih]
  | case2 c rest hnot ih =>
    rw [replace_identity, Spells]
    · by_cases hc : c = '*'
      · subst hc
        rw [matches_star, if_pos rfl]
        simp only [ih]
      · rw [matches_cons hc, if_neg hc]
        simp only [ih]
    · exact hnot
    · exact hnot
  | case3 =>
    rw [replace_identity, Spells, matches_nil]

variable {pattern : List Char}

theorem replace_identity_of_not_contains (h : contains_text "%i".toList pattern = false) :
    replace_identity subject pattern = pattern := by
  induction pattern using replace_identity.induct with
  | case1 rest ih => simp [contains_text] at h
  | case2 c rest hnot ih =>
    rw [replace_identity]
    · simp only [contains_text, Bool.or_eq_false_iff] at h
      rw [ih h.2]
    · exact hnot
  | case3 => rfl

theorem mem_of_spells {id : List Char} (hcontains : contains_text "%i".toList pattern = true)
    (h : Spells subject pattern id) {c : Char} (hc : c ∈ subject) : c ∈ id := by
  induction pattern using replace_identity.induct generalizing id with
  | case1 rest ih =>
    rw [Spells] at h
    obtain ⟨after, rfl, _⟩ := h
    simp [hc]
  | case2 b rest hnot ih =>
    have hrest : contains_text "%i".toList rest = true := by
      rw [contains_text, Bool.or_eq_true] at hcontains
      rcases hcontains with hhere | hrest
      · exfalso
        have hhere : ['%', 'i'] <+: b :: rest := List.isPrefixOf_iff_prefix.mp hhere
        obtain ⟨after, hafter⟩ := hhere
        cases hafter
        exact hnot after rfl rfl
      · exact hrest
    rw [Spells] at h
    · split at h
      · obtain ⟨run, after, rfl, hafter⟩ := h
        exact List.mem_append_right run (ih hrest hafter)
      · obtain ⟨after, rfl, hafter⟩ := h
        exact List.mem_cons_of_mem b (ih hrest hafter)
    · exact hnot
  | case3 => simp [contains_text] at hcontains

variable {client_id : String}

theorem spells_of_hit {pattern subject p : String} (hstar : '*' ∉ subject.toList)
    (hp : connect_pattern pattern subject = some p) (hhit : glob_match p client_id = true) :
    Spells subject.toList pattern.toList client_id.toList := by
  rw [← matches_replaced_iff hstar]
  rw [glob_match_iff] at hhit
  unfold connect_pattern at hp
  split at hp
  · split at hp
    · cases hp
      simpa using hhit
    · cases hp
  · next hnot =>
    cases hp
    rw [replace_identity_of_not_contains (by simpa using hnot)]
    exact hhit

def ConnectHit (identity : Identity) (client_id pattern : String) : Prop :=
  ∃ p, connect_pattern pattern identity.subject = some p ∧ glob_match p client_id = true

variable {identity : Identity} {first_allow done : Option Decider}

theorem decide_connect_patterns_ok {effect : Effect} {ri pi : Nat} {patterns : List String}
    (h : decide_connect_patterns identity client_id effect ri pi patterns first_allow = .ok done) :
    done = first_allow ∨
      effect = .Allow ∧ ∃ pattern ∈ patterns, ConnectHit identity client_id pattern := by
  induction patterns generalizing pi first_allow with
  | nil =>
    cases h
    exact .inl rfl
  | cons pattern patterns ih =>
    unfold decide_connect_patterns at h
    split at h
    · cases h
    · next next hpattern =>
      have hmore : done = next ∨
          effect = .Allow ∧ ∃ p ∈ pattern :: patterns, ConnectHit identity client_id p := by
        rcases ih h with hdone | ⟨heffect, p, hp, hhit⟩
        · exact .inl hdone
        · exact .inr ⟨heffect, p, List.mem_cons_of_mem pattern hp, hhit⟩
      unfold decide_connect_pattern at hpattern
      split at hpattern
      · split at hpattern
        · cases hpattern
        · cases hpattern
          exact hmore
      · next p hp =>
        split at hpattern
        · next hhit =>
          cases effect with
          | Deny => cases hpattern
          | Allow => exact .inr ⟨rfl, pattern, by simp, p, hp, hhit⟩
        · cases hpattern
          exact hmore

theorem decide_connect_rules_ok {ri : Nat} {rules : List Rule}
    (h : decide_connect_rules identity client_id ri rules first_allow = .ok done) :
    done = first_allow ∨ ∃ r ∈ rules, r.connect = true ∧ r.matches_principal identity = true ∧
      r.effect = .Allow ∧ ∃ pattern ∈ r.clients, ConnectHit identity client_id pattern := by
  induction rules generalizing ri first_allow with
  | nil =>
    cases h
    exact .inl rfl
  | cons rule rules ih =>
    unfold decide_connect_rules at h
    split at h
    · rcases ih h with hdone | ⟨r, hr, hrest⟩
      · exact .inl hdone
      · exact .inr ⟨r, List.mem_cons_of_mem rule hr, hrest⟩
    · next hsay =>
      have hsay : rule.connect = true ∧ rule.matches_principal identity = true := by
        simpa using hsay
      split at h
      · cases h
      · next next hpatterns =>
        rcases ih h with hdone | ⟨r, hr, hrest⟩
        · rcases decide_connect_patterns_ok hpatterns with hsame | ⟨heffect, hhit⟩
          · exact .inl (hdone.trans hsame)
          · exact .inr ⟨rule, by simp, hsay.1, hsay.2, heffect, hhit⟩
        · exact .inr ⟨r, List.mem_cons_of_mem rule hr, hrest⟩

theorem spelled_of_evaluate_connect {policy : AclPolicy} {identity : Identity} {client_id : String}
    (hstar : '*' ∉ identity.subject.toList)
    (h : policy.evaluate_connect identity client_id = true) :
    (∀ r ∈ policy.rules, r.connect = false) ∨
    ∃ r ∈ policy.rules, r.connect = true ∧ r.matches_principal identity = true ∧
      r.effect = .Allow ∧ ∃ pattern ∈ r.clients,
        Spells identity.subject.toList pattern.toList client_id.toList := by
  unfold AclPolicy.evaluate_connect AclPolicy.decide_connect at h
  split at h
  · cases h
  · next d hrules =>
    rcases decide_connect_rules_ok hrules with hnone | ⟨r, hr, hconnect, hsay, heffect, hhit⟩
    · cases hnone
    · obtain ⟨pattern, hpattern, p, hp, hglob⟩ := hhit
      exact .inr ⟨r, hr, hconnect, hsay, heffect, pattern, hpattern, spells_of_hit hstar hp hglob⟩
  · split at h
    · next hnone =>
      left
      simpa using hnone
    · cases h

/-- The placeholder of a connect pattern stands for the subject's own characters, for every
client id, exactly when the subject has no star. Then whatever client id is let in is one that
an allow spells out for the identity. -/
theorem identity_placeholder_is_literal_iff (pattern subject : String)
    (hcontains : contains_text "%i".toList pattern.toList = true)
    (hsafe : safe_for_substitution subject = true) :
    ((∀ client_id : String, (connect_pattern pattern subject).any
        (fun p => glob_match p client_id) = true ↔
          Spells subject.toList pattern.toList client_id.toList) ↔
      '*' ∉ subject.toList) ∧
    (∀ (policy : AclPolicy) (groups : List String) (client_id : String),
      '*' ∉ subject.toList → policy.evaluate_connect ⟨subject, groups⟩ client_id = true →
      (∀ r ∈ policy.rules, r.connect = false) ∨
      ∃ r ∈ policy.rules, r.connect = true ∧ r.matches_principal ⟨subject, groups⟩ = true ∧
        r.effect = .Allow ∧ ∃ pattern ∈ r.clients,
          Spells subject.toList pattern.toList client_id.toList) := by
  refine ⟨?_, fun policy groups client_id =>
    @spelled_of_evaluate_connect policy ⟨subject, groups⟩ client_id⟩
  have hpattern : connect_pattern pattern subject =
      some (String.ofList (replace_identity subject.toList pattern.toList)) := by
    rw [connect_pattern, if_pos hcontains, if_pos hsafe]
  simp only [hpattern, Option.any_some, glob_match_iff, String.toList_ofList]
  constructor
  · intro hall hstar
    -- the pattern without its stars is matched, but has no star in it
    have hhit := (hall (String.ofList ((replace_identity subject.toList pattern.toList).filter
      (· ≠ '*')))).mp (by rw [String.toList_ofList]; exact matches_dropped _)
    have hmem := mem_of_spells hcontains hhit hstar
    simp at hmem
  · intro hstar client_id
    exact matches_replaced_iff hstar _ _

/-- Identities of a tenant may use their own client ids. -/
def tenantPolicy : AclPolicy :=
  { default_allow := false
    rules := [{ identities := ["tenant-a-*", "*.a"], connect := true,
                clients := ["tenant-a/%i/*"] }] }

theorem alice_has_her_own_ids :
    tenantPolicy.evaluate_connect ⟨"tenant-a-alice", []⟩ "tenant-a/tenant-a-alice/s1" = true ∧
      ((connect_pattern "tenant-a/%i/*" "tenant-a-alice").any
        (fun p => glob_match p "tenant-a/someone-else/x") = true ↔
          Spells "tenant-a-alice".toList "tenant-a/%i/*".toList
            "tenant-a/someone-else/x".toList) ∧
      ∃ r ∈ tenantPolicy.rules, ∃ pattern ∈ r.clients,
        Spells "tenant-a-alice".toList pattern.toList "tenant-a/tenant-a-alice/s1".toList := by
  have hlet : tenantPolicy.evaluate_connect ⟨"tenant-a-alice", []⟩
      "tenant-a/tenant-a-alice/s1" = true := by decide +kernel
  refine ⟨hlet, ?_, ?_⟩
  · apply (identity_placeholder_is_literal_iff "tenant-a/%i/*" "tenant-a-alice"
      (by decide +kernel) (by decide +kernel)).1.mpr
    decide +kernel
  · rcases (identity_placeholder_is_literal_iff "tenant-a/%i/*" "tenant-a-alice"
      (by decide +kernel) (by decide +kernel)).2 tenantPolicy [] _ (by decide +kernel) hlet with
      hnone | ⟨r, hr, _, _, _, pattern, hpattern, hspells⟩
    · have hfirst := hnone _ (List.mem_singleton.mpr rfl)
      cases hfirst
    · exact ⟨r, hr, pattern, hpattern, hspells⟩

/-- The subject `*.a` is let in with the client id of another identity, which is not spelled
out for it. -/
theorem a_star_in_the_subject_matches_another_identity :
    safe_for_substitution "*.a" = true ∧
      tenantPolicy.evaluate_connect ⟨"*.a", []⟩ "tenant-a/bob.a/x" = true ∧
      ¬ Spells "*.a".toList "tenant-a/%i/*".toList "tenant-a/bob.a/x".toList := by
  refine ⟨by decide +kernel, by decide +kernel, ?_⟩
  intro hspells
  have hmem : '*' ∈ "tenant-a/bob.a/x".toList :=
    mem_of_spells (by decide +kernel) hspells (by decide +kernel)
  revert hmem
  decide +kernel

end mqtt_auth.acl
