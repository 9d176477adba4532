-- The fence of the retained cache over the life of a process: while a token is
-- held the cache is what was applied with it, and the token only grows, as long
-- as no value without a token meets a topic that a token fences.
import MqttBroker.Hub.Retained

namespace mqttd.hub

/-! ## What a history tells -/

/-- What holds a topic after the marks, newest first. -/
def held_by (topic : String) : List Mark → Option (Token × Message)
  | [] => none
  | .Applied k m :: marks => if m.topic = topic then some (k, m) else held_by topic marks
  | .Reaped t :: marks => if t = topic then none else held_by topic marks

/-- An update may take a topic over: its token is greater, or it is another value of the
same token. So nothing but a greater token takes a topic from a clear. -/
def TakesOver (k : Token) (m : Message) (k' : Token) (m' : Message) : Prop :=
  k < k' ∨ k = k' ∧ ¬ m.Clears ∧ ¬ m'.Clears

theorem TakesOver.le {k k' : Token} {m m' : Message} (h : TakesOver k m k' m') : k ≤ k' := by
  rcases h with h | ⟨h, -, -⟩
  · exact h.le
  · exact h.le

/-- Every mark of a history took its topic over from what held it, and only the tokens of
clears were reaped. -/
def Ordered : List Mark → Prop
  | [] => True
  | .Applied k' m' :: marks =>
    (∀ k m, held_by m'.topic marks = some (k, m) → TakesOver k m k' m') ∧ Ordered marks
  | .Reaped t :: marks => (∃ k m, held_by t marks = some (k, m) ∧ m.Clears) ∧ Ordered marks

/-- What marks without a reap of a topic do to it: who holds it at the end has a token at
least as great, and a strictly greater one where a value came after a clear. -/
theorem held_later {topic : String} {new marks : List Mark} {k : Token} {m : Message}
    (ho : Ordered (new ++ marks)) (hn : Mark.Reaped topic ∉ new)
    (h : held_by topic marks = some (k, m)) :
    ∃ k' m', held_by topic (new ++ marks) = some (k', m') ∧ k ≤ k' ∧
      (m.Clears → k < k' ∨ m'.Clears) := by
  induction new with
  | nil => exact ⟨k, m, h, le_refl k, Or.inr⟩
  | cons mark new ih =>
    have hnew : Mark.Reaped topic ∉ new := fun hmem => hn (List.mem_cons_of_mem _ hmem)
    cases mark with
    | Reaped t =>
      obtain ⟨k', m', hheld, hle, hclear⟩ := ih ho.2 hnew
      have ht : t ≠ topic := by
        rintro rfl
        exact hn (by simp)
      exact ⟨k', m', by simp [held_by, ht, hheld], hle, hclear⟩
    | Applied k1 m1 =>
      obtain ⟨k', m', hheld, hle, hclear⟩ := ih ho.2 hnew
      by_cases ht : m1.topic = topic
      · subst ht
        have htake := ho.1 k' m' hheld
        refine ⟨k1, m1, by simp [held_by], hle.trans htake.le, fun hm => ?_⟩
        rcases htake with hlt | ⟨heq, hvalue, -⟩
        · exact .inl (hle.trans_lt hlt)
        · rcases hclear hm with hlt | hm'
          · exact .inl (heq ▸ hlt)
          · exact absurd hm' hvalue
      · exact ⟨k', m', by simp [held_by, ht, hheld], hle, hclear⟩

namespace Hub

/-! ## The invariant -/

/-- The token map and the cache are what the history tells, and a discharge clock runs
for the topics that a clear holds. -/
structure Fenced (hub : Hub) : Prop where
  durable : hub.durable = true
  tokens : ∀ topic : String,
    hub.retained_tokens[topic]? = (held_by topic hub.history).map Prod.fst
  cached : ∀ (topic : String) k m, held_by topic hub.history = some (k, m) →
    hub.retained[topic]? = m.cached
  clocks : ∀ (topic : String) at_, hub.retained_tombstone_observed_at[topic]? = some at_ →
    ∃ k m, held_by topic hub.history = some (k, m) ∧ m.Clears
  ordered : Ordered hub.history

variable {hub : Hub}

theorem Fresh.fenced (h : hub.Fresh) : hub.Fenced := by
  refine ⟨h.durable, ?_, ?_, ?_, ?_⟩
  · intro topic
    simp [h.tokens, h.history, held_by]
  · intro topic k m hheld
    simp [h.history, held_by] at hheld
  · intro topic at_ hat
    simp [h.clocks] at hat
  · rw [h.history]
    trivial

variable {topic : String} {k : Token}

theorem Fenced.held (h : hub.Fenced) (hk : hub.retained_tokens[topic]? = some k) :
    ∃ m, held_by topic hub.history = some (k, m) := by
  rw [h.tokens, Option.map_eq_some_iff] at hk
  obtain ⟨⟨k', m⟩, hheld, rfl⟩ := hk
  exact ⟨m, hheld⟩

theorem Fenced.token_of (h : hub.Fenced) {m : Message}
    (hheld : held_by topic hub.history = some (k, m)) : hub.retained_tokens[topic]? = some k := by
  rw [h.tokens, hheld]
  rfl

/-- Whether a deadline is known is no part of the fence. -/
theorem Fenced.may_expire (h : hub.Fenced) (flag : Bool) :
    Fenced { hub with retained_may_expire := flag } :=
  ⟨h.durable, h.tokens, h.cached, h.clocks, h.ordered⟩

variable {k' : Token}

theorem fenced_applied (h : hub.Fenced) {m' : Message} {now : Nat}
    (htake : ∀ k m, held_by m'.topic hub.history = some (k, m) → TakesOver k m k' m') :
    (hub.applied m' k' now).Fenced := by
  refine ⟨h.durable, ?_, ?_, ?_, htake, h.ordered⟩
  · intro topic
    simp only [applied, held_by, BTreeMap.get_insert]
    split
    · rfl
    · exact h.tokens topic
  · intro topic k m hheld
    simp only [applied, held_by] at hheld ⊢
    rw [get_set]
    split at hheld
    · cases hheld
      rw [if_pos ‹_›]
    · rw [if_neg ‹_›]
      exact h.cached topic k m hheld
  · intro topic at_ hat
    simp only [applied, held_by] at hat ⊢
    by_cases hc : m'.Clears
    · rw [if_pos hc, BTreeMap.get_alter] at hat
      split at hat
      · exact ⟨k', m', if_pos ‹_›, hc⟩
      · rw [if_neg ‹_›]
        exact h.clocks topic at_ hat
    · rw [if_neg hc, BTreeMap.get_erase] at hat
      split at hat
      · cases hat
      · rw [if_neg ‹_›]
        exact h.clocks topic at_ hat

/-! ## The updates -/

theorem takes_over_of_not_stale (h : hub.Fenced) {answer : Option RetainedEntry}
    (hstale : ¬ hub.retained_is_stale topic k' answer = true) (m' : Message) (k : Token)
    (m : Message) (hheld : held_by topic hub.history = some (k, m)) : TakesOver k m k' m' := by
  rw [retained_is_stale, h.token_of hheld] at hstale
  exact .inl (by simpa using hstale)

theorem fenced_update (h : hub.Fenced) (topic : String) (payload : Bytes) (qos : UInt8)
    (app : AppProperties) (k : Token) (expires_at : Option Nat) (answer : Option RetainedEntry)
    (stored : Bool) (now : Nat) :
    (hub.apply_committed_retained topic payload qos app k expires_at answer stored now).Fenced := by
  unfold apply_committed_retained
  split
  · exact h
  · rename_i hstale
    dsimp only
    split
    · exact fenced_applied (h.may_expire _) (fun k m => takes_over_of_not_stale h hstale _ k m)
    · exact h.may_expire _

/-! ## A snapshot -/

/-- A value without a token does not meet a fence: where it would be taken in, no token is
held for its topic, or that of an earlier value without one. -/
def EntryClean (held : BTreeMap String Message) (hub : Hub) (entry : RetainedWireEntry)
    (answers : Answers) : Prop :=
  entry.token = untokened → held[entry.topic]? = none → entry.payload ≠ [] →
    answers.authority = none → answers.stored = true →
      ∀ k, hub.retained_tokens[entry.topic]? = some k →
        k = untokened ∧ (hub.retained[entry.topic]?).isSome

instance (held : BTreeMap String Message) (hub : Hub) (entry : RetainedWireEntry)
    (answers : Answers) : Decidable (EntryClean held hub entry answers) :=
  match hk : hub.retained_tokens[entry.topic]? with
  | none => .isTrue (by intro _ _ _ _ _ k hk'; rw [hk] at hk'; cases hk')
  | some k => decidable_of_iff (entry.token = untokened → held[entry.topic]? = none →
      entry.payload ≠ [] → answers.authority = none → answers.stored = true →
        k = untokened ∧ (hub.retained[entry.topic]?).isSome) (by
    unfold EntryClean
    rw [hk]
    simp)

variable {held : BTreeMap String Message} {entry : RetainedWireEntry} {answers : Answers}

/-- What the rule of a snapshot entry leaves: the fence holds, and where it lets the entry
in, the entry may take its topic over. -/
theorem fenced_entry_applies (h : hub.Fenced) (hstored : answers.stored = true)
    (hclean : EntryClean held hub entry answers) (m' : Message) (hm' : m'.payload = entry.payload)
    (happlies : (hub.snapshot_entry_applies entry.topic entry.token
      (held[entry.topic]?).isSome entry.payload.isEmpty answers).2 = true) (k : Token)
    (m : Message) (hheld : held_by entry.topic hub.history = some (k, m)) :
    TakesOver k m entry.token m' := by
  unfold snapshot_entry_applies at happlies
  split at happlies
  · rename_i htoken
    simp only [durable_retained_authority, h.durable, if_true, Bool.and_eq_true,
      Bool.not_eq_true', Option.isSome_eq_false_iff, Option.isNone_iff_eq_none,
      List.isEmpty_eq_false_iff] at happlies
    obtain ⟨⟨hvalue, hpayload⟩, hauthority⟩ := happlies
    obtain ⟨hk, hsome⟩ := hclean htoken hvalue hpayload hauthority hstored k (h.token_of hheld)
    rw [h.cached _ _ _ hheld] at hsome
    refine .inr ⟨hk.trans htoken.symm, fun hm => ?_, fun hm => hpayload (hm' ▸ hm)⟩
    simp [Message.cached, hm] at hsome
  · rw [h.token_of hheld] at happlies
    exact .inl (by simpa using happlies)

theorem entry_applies_hub {value_held empty : Bool}
    (happlies : (hub.snapshot_entry_applies topic k value_held empty answers).2 = true) :
    (hub.snapshot_entry_applies topic k value_held empty answers).1 = hub := by
  unfold snapshot_entry_applies at happlies ⊢
  split
  · rfl
  · split
    · rfl
    · split
      · rfl
      · split
        · simp_all
        · rfl

theorem fenced_entry_refused (h : hub.Fenced) (topic : String) (k : Token)
    (value_held empty : Bool) (answers : Answers) :
    (hub.snapshot_entry_applies topic k value_held empty answers).1.Fenced := by
  unfold snapshot_entry_applies
  split
  · exact h
  · split
    · exact h
    · split
      · exact h
      · split
        · exact fenced_update h ..
        · exact h

theorem fenced_snapshot_entry (h : hub.Fenced) (hclean : EntryClean held hub entry answers) :
    (apply_snapshot_entry held hub entry answers).Fenced := by
  unfold apply_snapshot_entry
  dsimp only
  rw [if_pos h.durable]
  split
  · rename_i happlies
    rw [entry_applies_hub happlies]
    split
    · rename_i hstored
      exact fenced_applied (h.may_expire _)
        (fenced_entry_applies h hstored hclean _ rfl happlies)
    · exact h.may_expire _
  · exact fenced_entry_refused h ..

/-- The entries of a snapshot are clean, each at the state that it meets. -/
def EntriesClean (held : BTreeMap String Message) (hub : Hub) :
    List (RetainedWireEntry × Answers) → Prop
  | [] => True
  | (entry, answers) :: rest =>
    EntryClean held hub entry answers ∧
      EntriesClean held (apply_snapshot_entry held hub entry answers) rest

instance instDecidableEntriesClean (held : BTreeMap String Message) (hub : Hub) :
    (messages : List (RetainedWireEntry × Answers)) → Decidable (EntriesClean held hub messages)
  | [] => .isTrue trivial
  | (entry, answers) :: rest =>
    have := instDecidableEntriesClean held (apply_snapshot_entry held hub entry answers) rest
    inferInstanceAs (Decidable (_ ∧ _))

theorem fenced_entries (h : hub.Fenced) {messages : List (RetainedWireEntry × Answers)}
    (hclean : EntriesClean held hub messages) :
    (messages.foldl (fun s p => apply_snapshot_entry held s p.1 p.2) hub).Fenced := by
  induction messages generalizing hub with
  | nil => exact h
  | cons p rest ih => exact ih (fenced_snapshot_entry h hclean.1) hclean.2

/-! ## The warm-up and the reap -/

theorem fenced_warm_topic (h : hub.Fenced) (topic : String) (answers : Answers) :
    (hub.warm_topic topic answers).Fenced := by
  unfold warm_topic
  split
  · exact h
  · split
    · exact h
    · exact fenced_update h ..

theorem fenced_warm (h : hub.Fenced) (topics : Option (List (String × Answers))) :
    (hub.warm_retained_tokens_from_authority topics).Fenced := by
  unfold warm_retained_tokens_from_authority
  rw [if_pos h.durable]
  induction topics.getD [] generalizing hub with
  | nil => exact h
  | cons p rest ih => exact ih (fenced_warm_topic h ..)

theorem fenced_discharge (h : hub.Fenced)
    (hclear : ∃ k m, held_by topic hub.history = some (k, m) ∧ m.Clears) :
    (hub.discharge topic).Fenced := by
  refine ⟨h.durable, ?_, ?_, ?_, hclear, h.ordered⟩
  · intro t
    simp only [discharge, held_by, BTreeMap.get_erase]
    split
    · rfl
    · exact h.tokens t
  · intro t k m hheld
    simp only [discharge, held_by] at hheld ⊢
    split at hheld
    · cases hheld
    · exact h.cached t k m hheld
  · intro t at_ hat
    simp only [discharge, held_by, BTreeMap.get_erase] at hat ⊢
    split at hat
    · cases hat
    · rw [if_neg ‹_›]
      exact h.clocks t at_ hat

/-- A list of different topics with a running clock: each is still held by its clear when
its turn comes. -/
theorem fenced_discharges (h : hub.Fenced) {topics : List String} (hd : topics.Nodup)
    (hclear : ∀ t ∈ topics, ∃ k m, held_by t hub.history = some (k, m) ∧ m.Clears)
    (skip : String → Bool) :
    (topics.foldl (fun s t => if skip t then s else s.discharge t) hub).Fenced := by
  induction topics generalizing hub with
  | nil => exact h
  | cons t rest ih =>
    rw [List.nodup_cons] at hd
    have hrest : ∀ t' ∈ rest, ∃ k m, held_by t' hub.history = some (k, m) ∧ m.Clears :=
      fun t' ht' => hclear t' (List.mem_cons_of_mem _ ht')
    rw [List.foldl_cons]
    split
    · exact ih h hd.2 hrest
    · refine ih (fenced_discharge h (hclear t (by simp))) hd.2 (fun t' ht' => ?_)
      have hne : t ≠ t' := by
        rintro rfl
        exact hd.1 ht'
      simpa [discharge, held_by, hne] using hrest t' ht'

theorem discharged_nodup (hub : Hub) (roster : List NodeId) (now : Nat) :
    (hub.discharged roster now).Nodup := by
  have hsorted := hub.retained_tombstone_observed_at.toList_sorted
  exact List.pairwise_map.mpr ((hsorted.imp (fun h => ne_of_lt h)).filter _)

theorem fenced_reap (h : hub.Fenced) (roster : Option (List NodeId × Nat)) (now : Nat)
    (owned reaped : String → Bool) :
    (hub.reap_discharged_tombstones roster now owned reaped).Fenced := by
  unfold reap_discharged_tombstones
  rw [if_pos h.durable]
  split
  · exact h
  · split
    · exact h
    · refine fenced_discharges h (discharged_nodup ..) (fun t ht => ?_) _
      obtain ⟨⟨t', at_⟩, hmem, rfl⟩ := List.mem_map.mp ht
      rw [List.mem_filter, BTreeMap.mem_toList] at hmem
      exact h.clocks _ _ hmem.1

/-! ## Runs -/

/-- No entry of the call meets a fence without a token of its own. -/
def CallClean (hub : Hub) : Call → Prop
  | .Snapshot true messages => EntriesClean hub.retained hub messages
  | _ => True

instance (hub : Hub) : (call : Call) → Decidable (hub.CallClean call)
  | .Snapshot true messages => inferInstanceAs (Decidable (EntriesClean hub.retained hub messages))
  | .Snapshot false _ => .isTrue trivial
  | .Update .. => .isTrue trivial
  | .Warm _ => .isTrue trivial
  | .Digest .. => .isTrue trivial
  | .Reap .. => .isTrue trivial

theorem fenced_call (h : hub.Fenced) {call : Call} (hclean : hub.CallClean call) :
    (hub.call call).Fenced := by
  cases call with
  | Update topic payload qos app k expires_at authority stored now => exact fenced_update h ..
  | Snapshot readable messages =>
    simp only [Hub.call, apply_retained_snapshot]
    cases readable with
    | false => exact h
    | true => exact fenced_entries h hclean
  | Warm topics => exact fenced_warm h topics
  | Digest node matched now =>
    simp only [Hub.call, handle_retained_digest]
    split
    · exact ⟨h.durable, h.tokens, h.cached, h.clocks, h.ordered⟩
    · exact h
  | Reap roster now owned reaped => exact fenced_reap h ..

def Clean (hub : Hub) : List Call → Prop
  | [] => True
  | call :: rest => hub.CallClean call ∧ (hub.call call).Clean rest

instance instDecidableClean (hub : Hub) : (calls : List Call) → Decidable (hub.Clean calls)
  | [] => .isTrue trivial
  | call :: rest =>
    have := instDecidableClean (hub.call call) rest
    inferInstanceAs (Decidable (_ ∧ _))

theorem fenced_calls (h : hub.Fenced) {calls : List Call} (hclean : hub.Clean calls) :
    (hub.calls calls).Fenced := by
  induction calls generalizing hub with
  | nil => exact h
  | cons call rest ih => exact ih (fenced_call h hclean.1) hclean.2

theorem Clean.append {before later : List Call} (h : hub.Clean (before ++ later)) :
    hub.Clean before ∧ (hub.calls before).Clean later := by
  induction before generalizing hub with
  | nil => exact ⟨trivial, h⟩
  | cons call rest ih =>
    obtain ⟨hrest, hlater⟩ := ih h.2
    exact ⟨⟨h.1, hrest⟩, hlater⟩

/-! ## The history only grows -/

/-- A later hub has more marks, and reaps among them only where `reaps` allows it. -/
def Grew (hub later : Hub) (reaps : Prop) : Prop :=
  ∃ new, later.history = new ++ hub.history ∧ ∀ topic, Mark.Reaped topic ∈ new → reaps

theorem Grew.refl (hub : Hub) (reaps : Prop) : Grew hub hub reaps := ⟨[], rfl, by simp⟩

variable {later : Hub} {reaps : Prop}

theorem Grew.trans {mid : Hub} (h : Grew hub mid reaps) (h' : Grew mid later reaps) :
    Grew hub later reaps := by
  obtain ⟨new, hnew, hreaps⟩ := h
  obtain ⟨new', hnew', hreaps'⟩ := h'
  refine ⟨new' ++ new, by rw [hnew', hnew, List.append_assoc], fun topic hmem => ?_⟩
  rcases List.mem_append.mp hmem with hmem | hmem
  · exact hreaps' topic hmem
  · exact hreaps topic hmem

theorem Grew.mono {reaps' : Prop} (h : Grew hub later reaps) (himp : reaps → reaps') :
    Grew hub later reaps' := by
  obtain ⟨new, hnew, hreaps⟩ := h
  exact ⟨new, hnew, fun topic hmem => himp (hreaps topic hmem)⟩

theorem Grew.foldl {α : Type} (f : Hub → α → Hub) (hf : ∀ hub a, Grew hub (f hub a) reaps)
    (hub : Hub) (l : List α) : Grew hub (l.foldl f hub) reaps := by
  induction l generalizing hub with
  | nil => exact .refl hub reaps
  | cons a l ih => exact (hf hub a).trans (ih (f hub a))

theorem grew_applied (hub : Hub) (flag : Bool) (m : Message) (k : Token) (now : Nat) :
    Grew hub (applied { hub with retained_may_expire := flag } m k now) False :=
  ⟨[.Applied k m], rfl, by simp⟩

theorem grew_same (h : later.history = hub.history) : Grew hub later False :=
  ⟨[], h, by simp⟩

theorem grew_update (hub : Hub) (topic : String) (payload : Bytes) (qos : UInt8)
    (app : AppProperties) (k : Token) (expires_at : Option Nat)
    (answer : Option RetainedEntry) (stored : Bool) (now : Nat) :
    Grew hub (hub.apply_committed_retained topic payload qos app k expires_at answer stored now)
      False := by
  unfold apply_committed_retained
  split
  · exact .refl hub _
  · dsimp only
    split
    · exact grew_applied ..
    · exact grew_same rfl

theorem grew_entry_applies (hub : Hub) (topic : String) (k : Token) (value_held empty : Bool)
    (answers : Answers) :
    Grew hub (hub.snapshot_entry_applies topic k value_held empty answers).1 False := by
  unfold snapshot_entry_applies
  split
  · exact .refl hub _
  · split
    · exact .refl hub _
    · split
      · exact .refl hub _
      · split
        · exact grew_update ..
        · exact .refl hub _

theorem grew_snapshot_entry (held : BTreeMap String Message) (hub : Hub)
    (entry : RetainedWireEntry) (answers : Answers) :
    Grew hub (apply_snapshot_entry held hub entry answers) False := by
  unfold apply_snapshot_entry
  dsimp only
  split
  · refine (grew_entry_applies hub entry.topic entry.token (held[entry.topic]?).isSome
      entry.payload.isEmpty answers).trans ?_
    split
    · split
      · exact grew_applied ..
      · exact grew_same rfl
    · exact .refl _ _
  · split
    · exact .refl hub _
    · split
      · exact grew_same rfl
      · exact grew_same rfl

theorem grew_warm_topic (hub : Hub) (topic : String) (answers : Answers) :
    Grew hub (hub.warm_topic topic answers) False := by
  unfold warm_topic
  split
  · exact .refl hub _
  · split
    · exact .refl hub _
    · exact grew_update ..

theorem grew_call (hub : Hub) (call : Call) :
    Grew hub (hub.call call) (∃ roster now owned reaped, call = .Reap roster now owned reaped) := by
  cases call with
  | Update topic payload qos app k expires_at authority stored now =>
    exact (grew_update hub topic payload qos app k expires_at authority stored now).mono False.elim
  | Snapshot readable messages =>
    simp only [Hub.call, apply_retained_snapshot]
    split
    · exact (Grew.foldl _ (fun s p => grew_snapshot_entry hub.retained s p.1 p.2) hub
        messages).mono False.elim
    · exact .refl hub _
  | Warm topics =>
    simp only [Hub.call, warm_retained_tokens_from_authority]
    split
    · exact (Grew.foldl (fun s (p : String × Answers) => s.warm_topic p.1 p.2)
        (fun s p => grew_warm_topic s p.1 p.2) hub _).mono False.elim
    · exact .refl hub _
  | Digest node matched now =>
    simp only [Hub.call, handle_retained_digest]
    split
    · exact (grew_same rfl).mono False.elim
    · exact .refl hub _
  | Reap roster now owned reaped =>
    simp only [Hub.call, reap_discharged_tombstones]
    have hturn : ∀ (s : Hub) topic, Grew s
        (if (owned topic && !reaped topic) = true then s else s.discharge topic)
        (∃ r n o e, Call.Reap roster now owned reaped = .Reap r n o e) := by
      intro s topic
      split
      · exact .refl s _
      · exact ⟨[.Reaped topic], rfl, fun _ _ => ⟨roster, now, owned, reaped, rfl⟩⟩
    split
    · split
      · exact .refl hub _
      · split
        · exact .refl hub _
        · exact Grew.foldl _ hturn hub _
    · exact .refl hub _

theorem grew_calls (hub : Hub) (calls : List Call) :
    Grew hub (hub.calls calls) (∃ roster now owned reaped,
      Call.Reap roster now owned reaped ∈ calls) := by
  induction calls generalizing hub with
  | nil => exact .refl hub _
  | cons call rest ih =>
    refine ((grew_call hub call).mono ?_).trans ((ih (hub.call call)).mono ?_)
    · rintro ⟨roster, now, owned, reaped, rfl⟩
      exact ⟨roster, now, owned, reaped, by simp⟩
    · rintro ⟨roster, now, owned, reaped, hmem⟩
      exact ⟨roster, now, owned, reaped, List.mem_cons_of_mem _ hmem⟩

end Hub

/-! ## The fence over a run -/

/-- The fence of a topic between two moments of a process life. `new` is what happened to
the fences in between: the token does not decrease and is gone only by a reap, the cache
is what was applied with the token, and after a clear a value comes back only with a
greater token. -/
structure NeverGoesBack (hub : Hub) (before later : List Call) (topic : String)
    (new : List Mark) : Prop where
  since : ((hub.calls before).calls later).history = new ++ (hub.calls before).history
  grows : ∀ k, (hub.calls before).retained_tokens[topic]? = some k →
    Mark.Reaped topic ∉ new →
      ∃ k', ((hub.calls before).calls later).retained_tokens[topic]? = some k' ∧ k ≤ k'
  reaps : Mark.Reaped topic ∈ new →
    ∃ roster now owned reaped, Call.Reap roster now owned reaped ∈ later
  exact_ : ∀ k, (hub.calls before).retained_tokens[topic]? = some k →
    ∃ m, held_by topic (hub.calls before).history = some (k, m) ∧
      (hub.calls before).retained[topic]? = m.cached
  cleared : ∀ k m v, held_by topic (hub.calls before).history = some (k, m) → m.Clears →
    Mark.Reaped topic ∉ new → ((hub.calls before).calls later).retained[topic]? = some v →
      ∃ k', k < k' ∧ held_by topic ((hub.calls before).calls later).history = some (k', v)
  ordered : Ordered ((hub.calls before).calls later).history

/-- In every process life in which no value without a token meets a fence, no fence goes
back. -/
theorem a_fence_never_goes_back {hub : Hub} (hfresh : hub.Fresh) {before later : List Call}
    (hclean : hub.Clean (before ++ later)) (topic : String) :
    ∃ new, NeverGoesBack hub before later topic new := by
  obtain ⟨hbefore, hlater⟩ := hclean.append
  have hmid := Hub.fenced_calls hfresh.fenced hbefore
  have hend := Hub.fenced_calls hmid hlater
  obtain ⟨new, hnew, hreaps⟩ := Hub.grew_calls (hub.calls before) later
  have hordered : Ordered (new ++ (hub.calls before).history) := hnew ▸ hend.ordered
  refine ⟨new, hnew, ?_, hreaps topic, ?_, ?_, hend.ordered⟩
  · intro k hk hnot
    obtain ⟨m, hheld⟩ := hmid.held hk
    obtain ⟨k', m', hheld', hle, -⟩ := held_later hordered hnot hheld
    exact ⟨k', hend.token_of (hnew ▸ hheld'), hle⟩
  · intro k hk
    obtain ⟨m, hheld⟩ := hmid.held hk
    exact ⟨m, hheld, hmid.cached topic k m hheld⟩
  · intro k m v hheld hm hnot hv
    obtain ⟨k', m', hheld', -, hclear⟩ := held_later hordered hnot hheld
    rw [← hnew] at hheld'
    rw [hend.cached topic k' m' hheld', Message.cached] at hv
    split at hv
    · cases hv
    · cases hv
      rcases hclear hm with hlt | hm'
      · exact ⟨k', hlt, hheld'⟩
      · exact absurd hm' ‹_›

/-- A life with a value that no commit backs, a value and its clear, the reap of the
clear, and a new value: the fence of "t" holds over its first and its second half. -/
theorem a_fence_holds_over_a_clear_and_a_reap :
    let hub : Hub := { node_id := "b", durable := true }
    let entry (topic : String) (payload : Bytes) (epoch offset : Nat) :
        RetainedWireEntry × Answers :=
      ({ topic, payload, qos := 1, epoch, offset, props := {}, expires_at := none }, {})
    let before : List Call :=
      [.Snapshot true [entry "g" [7] 0 0, entry "g" [8] 0 0, entry "t" [1] 1 1],
        .Update "t" [] 0 {} (token 1 2) none none true 10]
    let later : List Call :=
      [.Snapshot true [entry "t" [1] 1 1, entry "g" [9] 0 0], .Digest "c" true 20,
        .Reap (some (["b", "c"], 0)) 40 (fun _ => false) (fun _ => false),
        .Update "t" [2] 1 {} (token 2 1) none none true 50]
    (∃ new, NeverGoesBack hub before later "t" new) ∧
      ((hub.calls before).retained_tokens["t"]? = some (token 1 2) ∧
        (hub.calls before).retained["t"]? = none) ∧
      ((hub.calls before).calls later).retained_tokens["t"]? = some (token 2 1) := by
  intro hub entry before later
  refine ⟨a_fence_never_goes_back ⟨rfl, rfl, rfl, rfl⟩ (by decide +kernel) "t", ?_, ?_⟩
  · decide +kernel
  · decide +kernel

/-- On a node that cannot read the authority, a peer's value without a token takes the
topic back from a clear, and with it the token of the clear is gone. -/
theorem a_value_without_a_token_undoes_a_clear :
    let hub : Hub := { node_id := "b", durable := true }
    let before : List Call := [.Update "t" [] 0 {} (token 1 5) none none true 10]
    let entry : RetainedWireEntry :=
      { topic := "t", payload := [1], qos := 1, epoch := 0, offset := 0, props := {},
        expires_at := none }
    let later : List Call := [.Snapshot true [(entry, {})]]
    hub.Fresh ∧ (hub.calls before).retained["t"]? = none ∧
      (((hub.calls before).calls later).retained["t"]?).isSome ∧
      ¬ ∃ new, NeverGoesBack hub before later "t" new := by
  intro hub before entry later
  refine ⟨⟨rfl, rfl, rfl, rfl⟩, by decide +kernel, by decide +kernel, ?_⟩
  rintro ⟨new, h⟩
  have hnot : Mark.Reaped "t" ∉ new := by
    intro hmem
    obtain ⟨roster, now, owned, reaped, hcall⟩ := h.reaps hmem
    simp [later] at hcall
  have hheld : (hub.calls before).retained_tokens["t"]? = some (token 1 5) := by decide +kernel
  have hafter : ((hub.calls before).calls later).retained_tokens["t"]? = some untokened := by
    decide +kernel
  obtain ⟨k', hk', hle⟩ := h.grows _ hheld hnot
  rw [hafter] at hk'
  cases hk'
  exact absurd hle (by decide +kernel)

end mqttd.hub
