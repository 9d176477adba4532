-- When the fence of a clear is dropped (`reap_discharged_tombstones`): after every other
-- member of the roster was seen to agree, and a full period later. The clock of a topic
-- is not restarted by a clear that follows a clear.
import MqttBroker.Hub.Retained

namespace mqttd.hub

/-! ## Turns -/

/-- One turn of work: a committed update, one entry of a peer's snapshot, one topic of the
authority read back, a peer's digest, or the reap of a tick. -/
inductive Turn
  | Update (topic : String) (payload : Bytes) (qos : UInt8) (app : AppProperties)
      (token : Token) (expires_at : Option Nat) (authority : Option RetainedEntry)
      (stored : Bool) (now : Nat)
  | Entry (held : BTreeMap String Message) (entry : RetainedWireEntry) (answers : Answers)
  | Warm (topic : String) (answers : Answers)
  | Digest (node : NodeId) (matched : Bool) (now : Nat)
  | Reap (roster : Option (List NodeId × Nat)) (now : Nat) (owned reaped : String → Bool)

/-- What the clock says in a turn. -/
def Turn.now : Turn → Nat
  | .Update _ _ _ _ _ _ _ _ now => now
  | .Entry _ _ answers => answers.now
  | .Warm _ answers => answers.now
  | .Digest _ _ now => now
  | .Reap _ now _ _ => now

namespace Hub

def turn (hub : Hub) : Turn → Hub
  | .Update topic payload qos app token expires_at authority stored now =>
    hub.apply_committed_retained topic payload qos app token expires_at authority stored now
  | .Entry held entry answers => apply_snapshot_entry held hub entry answers
  | .Warm topic answers => hub.warm_topic topic answers
  | .Digest node matched now => hub.handle_retained_digest node matched now
  | .Reap roster now owned reaped => hub.reap_discharged_tombstones roster now owned reaped

def turns (hub : Hub) (ts : List Turn) : Hub := ts.foldl turn hub

theorem turns_concat (hub : Hub) (ts : List Turn) (t : Turn) :
    hub.turns (ts ++ [t]) = (hub.turns ts).turn t := by
  simp [turns]

theorem call_is_turns (hub : Hub) (call : Call) : ∃ ts, hub.call call = hub.turns ts := by
  cases call with
  | Update topic payload qos app token expires_at authority stored now =>
    exact ⟨[.Update topic payload qos app token expires_at authority stored now], rfl⟩
  | Snapshot readable messages =>
    cases readable with
    | false => exact ⟨[], rfl⟩
    | true =>
      refine ⟨messages.map (fun p => .Entry hub.retained p.1 p.2), ?_⟩
      simp only [call, apply_retained_snapshot, if_true, turns, List.foldl_map, turn]
  | Warm topics =>
    by_cases hdurable : hub.durable = true
    · refine ⟨(topics.getD []).map (fun p => .Warm p.1 p.2), ?_⟩
      simp only [call, warm_retained_tokens_from_authority, hdurable, if_true, turns,
        List.foldl_map, turn]
    · refine ⟨[], ?_⟩
      simp [call, warm_retained_tokens_from_authority, hdurable, turns]
  | Digest node matched now => exact ⟨[.Digest node matched now], rfl⟩
  | Reap roster now owned reaped => exact ⟨[.Reap roster now owned reaped], rfl⟩

theorem calls_are_turns (hub : Hub) (calls : List Call) : ∃ ts, hub.calls calls = hub.turns ts := by
  induction calls generalizing hub with
  | nil => exact ⟨[], rfl⟩
  | cons call calls ih =>
    obtain ⟨first, hfirst⟩ := call_is_turns hub call
    obtain ⟨rest, hrest⟩ := ih (hub.call call)
    refine ⟨first ++ rest, ?_⟩
    rw [Hub.calls, List.foldl_cons, ← Hub.calls, hrest, hfirst]
    simp [turns]

/-! ## What a turn can do -/

/-- Nothing that a fence is made of changed. -/
structure Quiet (hub later : Hub) : Prop where
  node : later.node_id = hub.node_id
  tokens : later.retained_tokens = hub.retained_tokens
  clocks : later.retained_tombstone_observed_at = hub.retained_tombstone_observed_at
  matched : later.retained_digest_matched_at = hub.retained_digest_matched_at
  history : later.history = hub.history

theorem Quiet.refl (hub : Hub) : Quiet hub hub := ⟨rfl, rfl, rfl, rfl, rfl⟩

/-- A message took its topic: its token is recorded, and the clock of the topic runs on, is
started or goes. -/
structure Took (hub later : Hub) (k : Token) (m : Message) (now : Nat) : Prop where
  node : later.node_id = hub.node_id
  tokens : later.retained_tokens = hub.retained_tokens.insert m.topic k
  clocks : ∀ topic : String, later.retained_tombstone_observed_at[topic]? =
    if m.topic = topic then
      if m.Clears then some ((hub.retained_tombstone_observed_at[topic]?).getD now) else none
    else hub.retained_tombstone_observed_at[topic]?
  matched : later.retained_digest_matched_at = hub.retained_digest_matched_at
  history : later.history = .Applied k m :: hub.history

theorem took_applied (hub : Hub) (flag : Bool) (k : Token) (m : Message) (now : Nat) :
    Took hub ({ hub with retained_may_expire := flag }.applied m k now) k m now := by
  refine ⟨rfl, rfl, ?_, rfl, rfl⟩
  intro topic
  unfold applied
  dsimp only
  by_cases hclear : m.Clears
  · rw [if_pos hclear, BTreeMap.get_alter]
    by_cases heq : m.topic = topic
    · subst heq
      simp [hclear]
    · simp [heq]
  · rw [if_neg hclear, BTreeMap.get_erase]
    simp [hclear]

theorem update_cases (hub : Hub) (topic : String) (payload : Bytes) (qos : UInt8)
    (app : AppProperties) (k : Token) (expires_at : Option Nat) (authority : Option RetainedEntry)
    (stored : Bool) (now : Nat) :
    (∃ m, Took hub (hub.apply_committed_retained topic payload qos app k expires_at authority
        stored now) k m now) ∨
      Quiet hub (hub.apply_committed_retained topic payload qos app k expires_at authority
        stored now) := by
  unfold apply_committed_retained
  split
  · right
    exact ⟨rfl, rfl, rfl, rfl, rfl⟩
  · dsimp only
    split
    · left
      exact ⟨_, took_applied hub _ k _ now⟩
    · right
      exact ⟨rfl, rfl, rfl, rfl, rfl⟩

theorem entry_cases (held : BTreeMap String Message) (hub : Hub) (entry : RetainedWireEntry)
    (answers : Answers) :
    (∃ k m, Took hub (apply_snapshot_entry held hub entry answers) k m answers.now) ∨
      Quiet hub (apply_snapshot_entry held hub entry answers) := by
  have hdone : ∀ m : Message, (∃ k m', Took hub
        (if answers.stored = true then
          { hub with retained_may_expire := hub.retained_may_expire || entry.expires_at.isSome
            }.applied m entry.token answers.now
        else { hub with
          retained_may_expire := hub.retained_may_expire || entry.expires_at.isSome })
        k m' answers.now) ∨
      Quiet hub (if answers.stored = true then
          { hub with retained_may_expire := hub.retained_may_expire || entry.expires_at.isSome
            }.applied m entry.token answers.now
        else { hub with
          retained_may_expire := hub.retained_may_expire || entry.expires_at.isSome }) := by
    intro m
    split
    · left
      exact ⟨_, _, took_applied hub _ _ m answers.now⟩
    · right
      exact ⟨rfl, rfl, rfl, rfl, rfl⟩
  unfold apply_snapshot_entry
  dsimp only
  split
  · unfold snapshot_entry_applies
    split
    · dsimp only
      split
      · exact hdone _
      · exact .inr (Quiet.refl hub)
    · split
      · dsimp only
        split
        · exact hdone _
        · exact .inr (Quiet.refl hub)
      · split
        · dsimp only
          rw [if_pos rfl]
          exact hdone _
        · split
          · dsimp only
            rw [if_neg (by simp)]
            rcases update_cases hub entry.topic _ _ _ _ _ _ _ answers.now with ⟨m, hm⟩ | hq
            · exact .inl ⟨_, m, hm⟩
            · exact .inr hq
          · dsimp only
            rw [if_pos rfl]
            exact hdone _
  · split
    · exact .inr (Quiet.refl hub)
    · split
      · right
        exact ⟨rfl, rfl, rfl, rfl, rfl⟩
      · right
        exact ⟨rfl, rfl, rfl, rfl, rfl⟩

theorem warm_cases (hub : Hub) (topic : String) (answers : Answers) :
    (∃ k m, Took hub (hub.warm_topic topic answers) k m answers.now) ∨
      Quiet hub (hub.warm_topic topic answers) := by
  unfold warm_topic
  split
  · exact .inr (Quiet.refl hub)
  · split
    · exact .inr (Quiet.refl hub)
    · rcases update_cases hub topic _ _ _ _ _ _ _ answers.now with ⟨m, hm⟩ | hq
      · exact .inl ⟨_, m, hm⟩
      · exact .inr hq

end Hub

def Mark.topic : Mark → String
  | .Applied _ m => m.topic
  | .Reaped topic => topic

namespace Hub

/-- The topics of a reap lose their fence, but for those that are skipped. -/
structure Reaped (hub later : Hub) (gone : String → Prop) : Prop where
  node : later.node_id = hub.node_id
  matched : later.retained_digest_matched_at = hub.retained_digest_matched_at
  dropped : ∀ topic : String, gone topic → later.retained_tokens[topic]? = none ∧
    later.retained_tombstone_observed_at[topic]? = none
  kept : ∀ topic : String, ¬ gone topic →
    later.retained_tokens[topic]? = hub.retained_tokens[topic]? ∧
    later.retained_tombstone_observed_at[topic]? = hub.retained_tombstone_observed_at[topic]?
  history : ∃ marks, later.history = marks ++ hub.history ∧ ∀ mark ∈ marks, gone mark.topic

theorem reaped_discharges (hub : Hub) (topics : List String) (skip : String → Bool) :
    Reaped hub (topics.foldl (fun h topic => if skip topic then h else h.discharge topic) hub)
      (fun topic => topic ∈ topics ∧ skip topic = false) := by
  induction topics generalizing hub with
  | nil =>
    refine ⟨rfl, rfl, ?_, ?_, [], rfl, by simp⟩
    · simp
    · simp
  | cons first topics ih =>
    rw [List.foldl_cons]
    cases hskip : skip first with
    | true =>
      rw [if_pos rfl]
      obtain ⟨hnode, hmatched, hdropped, hkept, marks, hmarks, hall⟩ := ih hub
      refine ⟨hnode, hmatched, ?_, ?_, marks, hmarks, ?_⟩
      · rintro topic ⟨hmem, hnot⟩
        rcases List.mem_cons.mp hmem with rfl | hmem
        · rw [hskip] at hnot
          cases hnot
        · exact hdropped topic ⟨hmem, hnot⟩
      · intro topic hgone
        apply hkept
        rintro ⟨hmem, hnot⟩
        exact hgone ⟨List.mem_cons_of_mem first hmem, hnot⟩
      · intro mark hmark
        obtain ⟨hmem, hnot⟩ := hall mark hmark
        exact ⟨List.mem_cons_of_mem first hmem, hnot⟩
    | false =>
      rw [if_neg (by simp)]
      obtain ⟨hnode, hmatched, hdropped, hkept, marks, hmarks, hall⟩ := ih (hub.discharge first)
      have hfirst : ∀ topic : String,
          (hub.discharge first).retained_tokens[topic]? =
            (if first = topic then none else hub.retained_tokens[topic]?) ∧
          (hub.discharge first).retained_tombstone_observed_at[topic]? =
            (if first = topic then none else hub.retained_tombstone_observed_at[topic]?) := by
        intro topic
        exact ⟨BTreeMap.get_erase .., BTreeMap.get_erase ..⟩
      refine ⟨hnode, hmatched, ?_, ?_, marks ++ [.Reaped first], ?_, ?_⟩
      · rintro topic ⟨hmem, hnot⟩
        by_cases hin : topic ∈ topics
        · exact hdropped topic ⟨hin, hnot⟩
        · have heq : topic = first := by
            rcases List.mem_cons.mp hmem with heq | hmem
            · exact heq
            · exact absurd hmem hin
          subst heq
          obtain ⟨htokens, hclocks⟩ := hkept topic (fun h => hin h.1)
          rw [htokens, hclocks]
          simp [(hfirst topic).1, (hfirst topic).2]
      · intro topic hgone
        have hne : first ≠ topic := by
          rintro rfl
          exact hgone ⟨List.mem_cons_self, hskip⟩
        obtain ⟨htokens, hclocks⟩ := hkept topic
          (fun h => hgone ⟨List.mem_cons_of_mem first h.1, h.2⟩)
        rw [htokens, hclocks, (hfirst topic).1, (hfirst topic).2, if_neg hne, if_neg hne]
        exact ⟨rfl, rfl⟩
      · rw [hmarks]
        simp [discharge]
      · intro mark hmark
        rcases List.mem_append.mp hmark with hmark | hmark
        · obtain ⟨hmem, hnot⟩ := hall mark hmark
          exact ⟨List.mem_cons_of_mem first hmem, hnot⟩
        · rw [List.mem_singleton.mp hmark]
          exact ⟨List.mem_cons_self, hskip⟩

/-- A reap drops the fences of clocks that ran for a period and that every other member of the
roster has agreed since. -/
theorem reap_cases (hub : Hub) (roster : Option (List NodeId × Nat)) (now : Nat)
    (owned reaped : String → Bool) :
    ∃ gone : String → Prop, Reaped hub (hub.reap_discharged_tombstones roster now owned reaped) gone ∧
      ∀ topic, gone topic → ∃ members at_, roster = some (members, 0) ∧
        hub.retained_tombstone_observed_at[topic]? = some at_ ∧
        RETAINED_ANTIENTROPY_EVERY ≤ now - at_ ∧
        ∀ n ∈ members, n ≠ hub.node_id →
          ∃ seen, hub.retained_digest_matched_at[n]? = some seen ∧ at_ < seen := by
  have hnothing : Reaped hub hub (fun _ => False) :=
    ⟨rfl, rfl, by simp, by simp, [], rfl, by simp⟩
  unfold reap_discharged_tombstones
  split
  · split
    · exact ⟨_, hnothing, by simp⟩
    · next members unknown =>
      split
      · exact ⟨_, hnothing, by simp⟩
      · next hknown =>
        refine ⟨_, reaped_discharges hub _ _, ?_⟩
        rintro topic ⟨hmem, _⟩
        obtain ⟨⟨topic', at_⟩, hin, rfl⟩ := List.mem_map.mp hmem
        obtain ⟨hlist, hpass⟩ := List.mem_filter.mp hin
        rw [Bool.and_eq_true, decide_eq_true_eq, List.all_eq_true] at hpass
        obtain ⟨hperiod, hall⟩ := hpass
        have hunknown : unknown = 0 := by omega
        subst hunknown
        refine ⟨members, at_, rfl, (BTreeMap.mem_toList _ _ _).mp hlist, hperiod, ?_⟩
        intro n hn hne
        have hpass := hall n (List.mem_filter.mpr ⟨hn, by simpa using hne⟩)
        split at hpass
        · next seen hseen => exact ⟨seen, hseen, by simpa using hpass⟩
        · cases hpass
  · exact ⟨_, hnothing, by simp⟩

theorem turn_cases (hub : Hub) (t : Turn) :
    (∃ k m, Took hub (hub.turn t) k m t.now) ∨ Quiet hub (hub.turn t) ∨
    (∃ node now, t = .Digest node true now ∧
      hub.turn t = { hub with
        retained_digest_matched_at := hub.retained_digest_matched_at.insert node now }) ∨
    (∃ gone, Reaped hub (hub.turn t) gone) := by
  cases t with
  | Update topic payload qos app k expires_at authority stored now =>
    rcases update_cases hub topic payload qos app k expires_at authority stored now with
      ⟨m, hm⟩ | hq
    · exact .inl ⟨k, m, hm⟩
    · exact .inr (.inl hq)
  | Entry held entry answers =>
    rcases entry_cases held hub entry answers with hm | hq
    · exact .inl hm
    · exact .inr (.inl hq)
  | Warm topic answers =>
    rcases warm_cases hub topic answers with hm | hq
    · exact .inl hm
    · exact .inr (.inl hq)
  | Digest node matched now =>
    cases matched with
    | true => exact .inr (.inr (.inl ⟨node, now, rfl, rfl⟩))
    | false => exact .inr (.inl ⟨rfl, rfl, rfl, rfl, rfl⟩)
  | Reap roster now owned reaped =>
    obtain ⟨gone, hreaped, _⟩ := reap_cases hub roster now owned reaped
    exact .inr (.inr (.inr ⟨gone, hreaped⟩))

/-! ## The clear that holds a topic -/

/-- A process that has just started knows no token, no clock and no digest. -/
structure Started (hub : Hub) : Prop where
  tokens : hub.retained_tokens = ∅
  clocks : hub.retained_tombstone_observed_at = ∅
  matched : hub.retained_digest_matched_at = ∅

/-- The turn `t` applied the clear of token `k` that still holds the topic: nothing was done
about the topic in the turns after it. -/
def HeldBy (start : Hub) (before : List Turn) (t : Turn) (after : List Turn) (topic : String)
    (k : Token) : Prop :=
  ∃ m marks, m.topic = topic ∧ m.Clears ∧
    (start.turns (before ++ [t])).history = .Applied k m :: (start.turns before).history ∧
    (start.turns (before ++ t :: after)).history =
      marks ++ (start.turns (before ++ [t])).history ∧
    ∀ mark ∈ marks, mark.topic ≠ topic

/-- The clear of token `k` was applied; then every other member of the roster was seen to
agree; and it was at least a period before `now`. -/
def Converged (start : Hub) (ts : List Turn) (members : List NodeId) (now : Nat)
    (topic : String) (k : Token) : Prop :=
  ∃ before t after, ts = before ++ t :: after ∧ HeldBy start before t after topic k ∧
    (∀ n ∈ members, n ≠ start.node_id → ∃ seen, .Digest n true seen ∈ after) ∧
    t.now + RETAINED_ANTIENTROPY_EVERY ≤ now

/-- A clear is applied only where no clock runs for its topic. -/
def Fine (hub : Hub) (t : Turn) : Prop :=
  ∀ k m, (hub.turn t).history = .Applied k m :: hub.history → m.Clears →
    hub.retained_tombstone_observed_at[m.topic]? = none

/-- Every turn of a run is fine where it is taken, and the clock does not go back. -/
structure AllFine (start : Hub) (ts : List Turn) : Prop where
  fine : ∀ before t after, ts = before ++ t :: after → Fine (start.turns before) t
  clock : ts.Pairwise (fun t t' => t.now ≤ t'.now)

/-- What the maps of a node tell about its run. -/
structure Told (start : Hub) (ts : List Turn) : Prop where
  node : (start.turns ts).node_id = start.node_id
  matched : ∀ (n : NodeId) seen, (start.turns ts).retained_digest_matched_at[n]? = some seen →
    .Digest n true seen ∈ ts
  clocks : ∀ (topic : String) at_,
    (start.turns ts).retained_tombstone_observed_at[topic]? = some at_ →
    ∃ before t after k, ts = before ++ t :: after ∧ t.now = at_ ∧
      HeldBy start before t after topic k ∧ (start.turns ts).retained_tokens[topic]? = some k

theorem told_start {start : Hub} (h : Started start) : Told start [] := by
  refine ⟨rfl, ?_, ?_⟩
  · intro n seen hseen
    simp [turns, h.matched] at hseen
  · intro topic at_ hat
    simp [turns, h.clocks] at hat

theorem HeldBy.concat {start : Hub} {before after : List Turn} {t u : Turn} {topic : String}
    {k : Token} (h : HeldBy start before t after topic k) {marks : List Mark}
    (hmarks : (start.turns (before ++ t :: after ++ [u])).history =
      marks ++ (start.turns (before ++ t :: after)).history)
    (hother : ∀ mark ∈ marks, mark.topic ≠ topic) :
    HeldBy start before t (after ++ [u]) topic k := by
  obtain ⟨m, marks', hm, hclear, happlied, hlater, hothers⟩ := h
  refine ⟨m, marks ++ marks', hm, hclear, happlied, ?_, ?_⟩
  · rw [hlater, List.append_assoc, List.cons_append] at hmarks
    rw [hmarks, List.append_assoc]
  · intro mark hmark
    rcases List.mem_append.mp hmark with hmark | hmark
    · exact hother mark hmark
    · exact hothers mark hmark

theorem Told.keep {start : Hub} {ts : List Turn} (h : Told start ts) {u : Turn} {topic : String}
    {at_ : Nat} (hat : (start.turns ts).retained_tombstone_observed_at[topic]? = some at_)
    (marks : List Mark)
    (htoken : (start.turns (ts ++ [u])).retained_tokens[topic]? =
      (start.turns ts).retained_tokens[topic]?)
    (hmarks : (start.turns (ts ++ [u])).history = marks ++ (start.turns ts).history)
    (hother : ∀ mark ∈ marks, mark.topic ≠ topic) :
    ∃ before t after k, ts ++ [u] = before ++ t :: after ∧ t.now = at_ ∧
      HeldBy start before t after topic k ∧
      (start.turns (ts ++ [u])).retained_tokens[topic]? = some k := by
  obtain ⟨before, t, after, k, rfl, hnow, hheld, hk⟩ := h.clocks topic at_ hat
  refine ⟨before, t, after ++ [u], k, by simp, hnow, hheld.concat hmarks hother, ?_⟩
  rw [htoken]
  exact hk

theorem Told.concat {start : Hub} {ts : List Turn} (h : Told start ts) {u : Turn}
    (hfine : Fine (start.turns ts) u) : Told start (ts ++ [u]) := by
  have hgoes : ∀ n seen, (start.turns ts).retained_digest_matched_at[n]? = some seen →
      .Digest n true seen ∈ ts ++ [u] := by
    intro n seen hseen
    exact List.mem_append_left [u] (h.matched n seen hseen)
  have hturn := turns_concat start ts u
  rcases turn_cases (start.turns ts) u with ⟨k, m, htook⟩ | hquiet | ⟨node, now, rfl, heq⟩ |
    ⟨gone, hreaped⟩
  · rw [← hturn] at htook
    refine ⟨htook.node.trans h.node, ?_, ?_⟩
    · rw [htook.matched]
      exact hgoes
    · intro topic at_ hat
      rw [htook.clocks topic] at hat
      split at hat
      · next htopic =>
        split at hat
        · next hclear =>
          -- no clock ran, so this turn started it
          have hnone := hfine k m (by rw [← hturn]; exact htook.history) hclear
          rw [← htopic, hnone, Option.getD_none, Option.some.injEq] at hat
          refine ⟨ts, u, [], k, rfl, hat, ⟨m, [], htopic, hclear, ?_, by simp, by simp⟩, ?_⟩
          · exact htook.history
          · rw [htook.tokens, BTreeMap.get_insert, if_pos htopic]
        · cases hat
      · next htopic =>
        apply h.keep hat [.Applied k m]
        · rw [htook.tokens, BTreeMap.get_insert, if_neg htopic]
        · exact htook.history
        · simpa [Mark.topic] using htopic
  · rw [← hturn] at hquiet
    refine ⟨hquiet.node.trans h.node, ?_, ?_⟩
    · rw [hquiet.matched]
      exact hgoes
    · intro topic at_ hat
      rw [hquiet.clocks] at hat
      apply h.keep hat []
      · rw [hquiet.tokens]
      · exact hquiet.history
      · simp
  · rw [← hturn] at heq
    refine ⟨?_, ?_, ?_⟩
    · rw [heq]
      exact h.node
    · intro n seen hseen
      rw [heq] at hseen
      dsimp only at hseen
      rw [BTreeMap.get_insert] at hseen
      split at hseen
      · next hnode =>
        subst hnode
        cases hseen
        simp
      · exact hgoes n seen hseen
    · intro topic at_ hat
      rw [heq] at hat
      apply h.keep hat []
      · rw [heq]
      · rw [heq]
        rfl
      · simp
  · rw [← hturn] at hreaped
    refine ⟨hreaped.node.trans h.node, ?_, ?_⟩
    · rw [hreaped.matched]
      exact hgoes
    · intro topic at_ hat
      by_cases hgone : gone topic
      · rw [(hreaped.dropped topic hgone).2] at hat
        cases hat
      · obtain ⟨htokens, hclocks⟩ := hreaped.kept topic hgone
        obtain ⟨marks, hmarks, hall⟩ := hreaped.history
        rw [hclocks] at hat
        apply h.keep hat marks htokens hmarks
        rintro mark hmark rfl
        exact hgone (hall mark hmark)

theorem told_turns {start : Hub} (h : Started start) (ts : List Turn)
    (hfine : ∀ before t after, ts = before ++ t :: after → Fine (start.turns before) t) :
    Told start ts := by
  induction ts using List.reverseRecOn with
  | nil => exact told_start h
  | append_singleton ts u ih =>
    have hbefore : Told start ts := by
      apply ih
      rintro before t after rfl
      exact hfine before t (after ++ [u]) (by simp)
    exact hbefore.concat (hfine ts u [] (by simp))

/-- In a run where no clear is applied over a running clock and time does not go back, a reap
drops the fence of a topic only after every other member of the roster was seen to agree since
the clear whose token is dropped was applied, and a period after it. -/
theorem a_fence_is_dropped_after_everyone_agreed {start : Hub} (hstart : Started start)
    {ts : List Turn} (hfine : AllFine start ts) (roster : Option (List NodeId × Nat)) (now : Nat)
    (owned reaped : String → Bool) {topic : String} {k : Token}
    (hk : (start.turns ts).retained_tokens[topic]? = some k)
    (hdrop : ((start.turns ts).reap_discharged_tombstones roster now owned
      reaped).retained_tokens[topic]? = none) :
    ∃ members, roster = some (members, 0) ∧ Converged start ts members now topic k := by
  have htold := told_turns hstart ts hfine.fine
  obtain ⟨gone, hreaped, hgone⟩ := reap_cases (start.turns ts) roster now owned reaped
  have hin : gone topic := by
    by_contra hnot
    rw [(hreaped.kept topic hnot).1, hk] at hdrop
    cases hdrop
  obtain ⟨members, at_, hroster, hat, hperiod, hall⟩ := hgone topic hin
  obtain ⟨before, t, after, k', hts, hnow, hheld, hk'⟩ := htold.clocks topic at_ hat
  cases hk.symm.trans hk'
  refine ⟨members, hroster, before, t, after, hts, hheld, ?_, ?_⟩
  · intro n hn hne
    rw [← htold.node] at hne
    obtain ⟨seen, hseen, hlater⟩ := hall n hn hne
    refine ⟨seen, ?_⟩
    have hmem := htold.matched n seen hseen
    have hclock := hfine.clock
    rw [hts] at hmem hclock
    rcases List.mem_append.mp hmem with hbefore | hmem
    · -- what was seen before the clear was seen no later than it
      have hle := (List.pairwise_append.mp hclock).2.2 _ hbefore t (by simp)
      simp only [Turn.now] at hle
      simp only [Turn.now] at hnow
      omega
    · rcases List.mem_cons.mp hmem with heq | hafter
      · rw [← heq] at hnow
        simp only [Turn.now] at hnow
        omega
      · exact hafter
  · simp only [RETAINED_ANTIENTROPY_EVERY] at hperiod ⊢
    omega

/-! ## Runs -/

def clear (token : Token) (now : Nat) : Turn :=
  .Update "t" [] 0 {} token none none true now

def alone : Hub := { node_id := "a", durable := true }

theorem started_alone : Started alone := ⟨rfl, rfl, rfl⟩

/-- A clear, and a digest of the other member ten seconds later. -/
theorem a_fence_is_dropped_after_one_digest :
    (((alone.turns [clear (token 1 1) 0, .Digest "b" true 10]).reap_discharged_tombstones
      (some (["a", "b"], 0)) 40 (fun _ => true) (fun _ => true)).retained_tokens["t"]?).isNone ∧
    Converged alone [clear (token 1 1) 0, .Digest "b" true 10] ["a", "b"] 40 "t" (token 1 1) := by
  have hfine : AllFine alone [clear (token 1 1) 0, .Digest "b" true 10] := by
    constructor
    · intro before t after heq k m hhistory _
      cases before with
      | nil => simp [turns, alone]
      | cons first before =>
        rw [List.cons_append, List.cons.injEq] at heq
        obtain ⟨_, heq⟩ := heq
        cases before with
        | nil =>
          rw [List.nil_append, List.cons.injEq] at heq
          obtain ⟨rfl, _⟩ := heq
          have hlen := congrArg List.length hhistory
          simp [turn, handle_retained_digest] at hlen
        | cons second before => simp at heq
    · simp [clear, Turn.now]
  have hk : (alone.turns [clear (token 1 1) 0, .Digest "b" true 10]).retained_tokens["t"]? =
      some (token 1 1) := by decide +kernel
  have hdrop : ((alone.turns [clear (token 1 1) 0, .Digest "b" true 10]).reap_discharged_tombstones
      (some (["a", "b"], 0)) 40 (fun _ => true) (fun _ => true)).retained_tokens["t"]? = none := by
    decide +kernel
  obtain ⟨members, hmembers, hconverged⟩ := a_fence_is_dropped_after_everyone_agreed started_alone
    hfine (some (["a", "b"], 0)) 40 (fun _ => true) (fun _ => true) hk hdrop
  cases hmembers
  refine ⟨?_, hconverged⟩
  rw [hdrop]
  rfl

/-- A clear, a digest of the other member, and a second clear of the topic. -/
def clearedTwice : List Turn :=
  [clear (token 1 1) 0, .Digest "b" true 10, clear (token 1 5) 100]

/-- The fence of the second clear is dropped at once: the clock of the first one is still
running, and the other member was last seen before the second. -/
theorem the_fence_of_a_second_clear_is_dropped_at_once :
    (alone.turns clearedTwice).retained_tokens["t"]? = some (token 1 5) ∧
    ((alone.turns clearedTwice).reap_discharged_tombstones (some (["a", "b"], 0)) 100
      (fun _ => true) (fun _ => true)).retained_tokens["t"]? = none ∧
    ¬ Converged alone clearedTwice ["a", "b"] 100 "t" (token 1 5) := by
  refine ⟨by decide +kernel, by decide +kernel, ?_⟩
  rintro ⟨before, t, after, heq, ⟨m, marks, _, _, happlied, _⟩, hseen, _⟩
  obtain ⟨seen, hmem⟩ := hseen "b" (by simp) (by decide)
  unfold clearedTwice at heq
  -- the turn that applied the clear is the last one, so nothing was seen after it
  match before with
  | [] =>
    rw [List.nil_append, List.cons.injEq] at heq
    obtain ⟨rfl, _⟩ := heq
    have hfirst : (alone.turns [clear (token 1 1) 0]).history.head?.map
        (fun mark => match mark with
          | .Applied k _ => k
          | .Reaped _ => untokened) = some (token 1 1) := by decide +kernel
    rw [List.nil_append] at happlied
    rw [happlied] at hfirst
    simp [token] at hfirst
  | [first] =>
    simp only [List.cons_append, List.nil_append, List.cons.injEq] at heq
    obtain ⟨_, rfl, _⟩ := heq
    have hlen := congrArg List.length happlied
    rw [turns_concat] at hlen
    simp [turn, handle_retained_digest] at hlen
  | [first, second] =>
    simp only [List.cons_append, List.nil_append, List.cons.injEq] at heq
    obtain ⟨_, _, _, hafter⟩ := heq
    rw [← hafter] at hmem
    simp at hmem
  | first :: second :: third :: before => simp at heq

end Hub

end mqttd.hub
