-- The registry of subscriptions (`subscriptions.rs`): the clients of each filter,
-- and the index over the filters that a publish is matched with.
import MqttBroker.Lib.OrderedMap
import MqttBroker.Core.FilterIndex

namespace mqtt_core.subscriptions

open filter_index

structure SubscriptionTable where
  by_filter : BTreeMap FilterKey (BTreeSet ClientId) := ∅
  index : FilterIndex := {}

namespace SubscriptionTable

def new : SubscriptionTable := {}

def subscribe (t : SubscriptionTable) (client : ClientId) (filter : FilterKey) :
    SubscriptionTable :=
  match t.by_filter[filter]? with
  | none =>
    { by_filter := t.by_filter.insert filter ((∅ : BTreeSet ClientId).insert client)
      index := t.index.insert filter }
  | some clients => { t with by_filter := t.by_filter.insert filter (clients.insert client) }

def unsubscribe (t : SubscriptionTable) (client : ClientId) (filter : FilterKey) :
    SubscriptionTable :=
  match t.by_filter[filter]? with
  | none => t
  | some clients =>
    let clients := clients.erase client
    if clients.isEmpty then
      { by_filter := t.by_filter.erase filter, index := t.index.remove filter }
    else { t with by_filter := t.by_filter.insert filter clients }

/-- What `retain` leaves of a filter's clients without one of them. -/
def retained (client : ClientId) (clients : BTreeSet ClientId) : Option (BTreeSet ClientId) :=
  if (clients.erase client).isEmpty then none else some (clients.erase client)

def empties (t : SubscriptionTable) (client : ClientId) (filter : FilterKey) : Bool :=
  t.by_filter[filter]?.any (fun clients => (retained client clients).isNone)

/-- Removes all the subscriptions of a client. `order` is the order in which the hash map
gives its filters. -/
def remove_client (t : SubscriptionTable) (client : ClientId) (order : List FilterKey) :
    SubscriptionTable :=
  let emptied := order.filter (t.empties client)
  { by_filter := t.by_filter.filterMap (fun _ clients => retained client clients)
    index := emptied.foldl (fun index filter => index.remove filter) t.index }

def for_each_matching_filter (t : SubscriptionTable) (topic : String) : List FilterKey :=
  t.index.for_each_matching topic

/-- The clients of the matching filters, each with the filter that it is visited for. -/
def visits (t : SubscriptionTable) (topic : String) : List (ClientId × FilterKey) :=
  (t.for_each_matching_filter topic).flatMap (fun filter =>
    match t.by_filter[filter]? with
    | none => []
    | some clients => clients.toList.map (fun client => (client, filter)))

def for_each_matching_client (t : SubscriptionTable) (topic : String) : List ClientId :=
  (t.visits topic).map (fun v => v.1)

def matching_clients (t : SubscriptionTable) (topic : String) : BTreeSet ClientId :=
  (t.for_each_matching_client topic).foldl (fun out client => out.insert client) ∅

/-- The filters with a client, as they are gossiped to the peers. -/
def filters (t : SubscriptionTable) : List FilterKey := t.by_filter.keys

end SubscriptionTable

/-! ## Histories of the table -/

inductive TableOp
  | Subscribe (client : ClientId) (filter : FilterKey)
  | Unsubscribe (client : ClientId) (filter : FilterKey)
  | RemoveClient (client : ClientId) (order : List FilterKey)

namespace SubscriptionTable

def step (t : SubscriptionTable) : TableOp → SubscriptionTable
  | .Subscribe client filter => t.subscribe client filter
  | .Unsubscribe client filter => t.unsubscribe client filter
  | .RemoveClient client order => t.remove_client client order

/-- A call that the table can get: the filters are valid, and a walk over the map gives each of
its keys once. -/
def Calls (t : SubscriptionTable) : TableOp → Prop
  | .Subscribe _ filter => valid_filter filter = true
  | .Unsubscribe _ filter => valid_filter filter = true
  | .RemoveClient _ order => order.Perm t.by_filter.keys

/-- A sequence of such calls. -/
def Runs (t : SubscriptionTable) : List TableOp → Prop
  | [] => True
  | op :: ops => t.Calls op ∧ Runs (t.step op) ops

instance (t : SubscriptionTable) (op : TableOp) : Decidable (t.Calls op) :=
  match op with
  | .Subscribe _ _ => inferInstanceAs (Decidable (_ = _))
  | .Unsubscribe _ _ => inferInstanceAs (Decidable (_ = _))
  | .RemoveClient _ _ => inferInstanceAs (Decidable (List.Perm _ _))

instance decidableRuns (t : SubscriptionTable) (ops : List TableOp) : Decidable (t.Runs ops) :=
  match ops with
  | [] => inferInstanceAs (Decidable True)
  | op :: ops =>
    have := decidableRuns (t.step op) ops
    inferInstanceAs (Decidable (_ ∧ _))

def run (t : SubscriptionTable) (ops : List TableOp) : SubscriptionTable := ops.foldl step t

end SubscriptionTable

/-- The pairs that are subscribed after a call. -/
def registers (pairs : ClientId → FilterKey → Prop) : TableOp → ClientId → FilterKey → Prop
  | .Subscribe client filter => fun c f => (c = client ∧ f = filter) ∨ pairs c f
  | .Unsubscribe client filter => fun c f => ¬ (c = client ∧ f = filter) ∧ pairs c f
  | .RemoveClient client _ => fun c f => c ≠ client ∧ pairs c f

/-- The pairs that are subscribed after a history. -/
def registered (ops : List TableOp) : ClientId → FilterKey → Prop :=
  ops.foldl registers (fun _ _ => False)

namespace SubscriptionTable

/-! ## The map of filters after a call -/

theorem get_subscribe (t : SubscriptionTable) (client : ClientId) (filter f : FilterKey) :
    (t.subscribe client filter).by_filter[f]? =
      if filter = f then some ((t.by_filter[filter]?.getD ∅).insert client)
      else t.by_filter[f]? := by
  unfold subscribe
  rcases hf : t.by_filter[filter]? with _ | clients
  · exact BTreeMap.get_insert ..
  · exact BTreeMap.get_insert ..

theorem get_unsubscribe (t : SubscriptionTable) (client : ClientId) (filter f : FilterKey) :
    (t.unsubscribe client filter).by_filter[f]? =
      if filter = f then t.by_filter[filter]?.bind (retained client) else t.by_filter[f]? := by
  unfold unsubscribe retained
  rcases hf : t.by_filter[filter]? with _ | clients
  · by_cases hfe : filter = f
    · subst hfe
      simp [hf]
    · simp [hfe]
  · rw [Option.bind_some]
    dsimp only
    split
    · exact BTreeMap.get_erase ..
    · exact BTreeMap.get_insert ..

theorem get_remove_client (t : SubscriptionTable) (client : ClientId) (order : List FilterKey)
    (f : FilterKey) :
    (t.remove_client client order).by_filter[f]? = t.by_filter[f]?.bind (retained client) :=
  BTreeMap.get_filterMap ..

theorem mem_retained (client c : ClientId) (clients : BTreeSet ClientId) :
    (∃ cs, retained client clients = some cs ∧ c ∈ cs) ↔ c ≠ client ∧ c ∈ clients := by
  unfold retained
  rw [← BTreeSet.mem_erase]
  split
  · rename_i hempty
    rw [BTreeSet.isEmpty_iff] at hempty
    simp [hempty c]
  · simp

theorem retained_nonempty {client : ClientId} {clients cs : BTreeSet ClientId}
    (h : retained client clients = some cs) : cs.isEmpty = false := by
  unfold retained at h
  split at h
  · cases h
  · rename_i hempty
    cases h
    simpa using hempty

/-! ## What every history keeps -/

/-- The table holds the subscribed pairs, and its index their filters. -/
structure Kept (t : SubscriptionTable) (pairs : ClientId → FilterKey → Prop) : Prop where
  clients : ∀ (c : ClientId) (f : FilterKey),
    pairs c f ↔ ∃ cs : BTreeSet ClientId, t.by_filter[f]? = some cs ∧ c ∈ cs
  nonempty : ∀ (f : FilterKey) (cs : BTreeSet ClientId),
    t.by_filter[f]? = some cs → cs.isEmpty = false
  valid : ∀ f : FilterKey, t.by_filter[f]?.isSome = true → valid_filter f = true
  index : t.index.Holds (fun f => t.by_filter[f]?.isSome = true)

theorem kept_new : Kept new (fun _ _ => False) := by
  refine ⟨fun c f => ?_, fun f cs hcs => ?_, fun f hf => ?_, ?_⟩
  · simp [new]
  · simp [new] at hcs
  · simp [new] at hf
  · exact FilterIndex.holds_empty.congr (fun f => by simp [new])

variable {t : SubscriptionTable} {pairs : ClientId → FilterKey → Prop}

theorem kept_subscribe (h : Kept t pairs) (client : ClientId) {filter : FilterKey}
    (hv : valid_filter filter = true) :
    Kept (t.subscribe client filter) (registers pairs (.Subscribe client filter)) := by
  refine ⟨fun c f => ?_, fun f cs hcs => ?_, fun f hf => ?_, ?_⟩
  · rw [registers]
    dsimp only
    rw [h.clients, get_subscribe]
    by_cases hfe : filter = f
    · subst hfe
      rcases hf : t.by_filter[filter]? with _ | clients
      · simp [@eq_comm _ client c]
      · simp [@eq_comm _ client c]
    · simp [hfe, Ne.symm hfe]
  · rw [get_subscribe] at hcs
    split at hcs
    · cases hcs
      simp
    · exact h.nonempty f cs hcs
  · rw [get_subscribe] at hf
    split at hf
    · rename_i hfe
      rw [← hfe]
      exact hv
    · exact h.valid f hf
  · -- The filter enters the index with its first client.
    have hsome : ∀ f, (f = filter ∨ t.by_filter[f]?.isSome = true) ↔
        (t.subscribe client filter).by_filter[f]?.isSome = true := by
      intro f
      rw [get_subscribe]
      by_cases hfe : filter = f
      · simp [hfe]
      · simp [hfe, Ne.symm hfe]
    unfold subscribe at hsome ⊢
    rcases hf : t.by_filter[filter]? with _ | clients
    · rw [hf] at hsome
      exact (FilterIndex.holds_insert h.index filter).congr hsome
    · rw [hf] at hsome
      refine h.index.congr (fun f => ?_)
      rw [← hsome f]
      constructor
      · exact Or.inr
      · rintro (rfl | hold)
        · rw [hf]
          rfl
        · exact hold

/-- A call that takes a client out of some of the filters, and each filter that it leaves
without one out of the index. -/
theorem kept_retain {t' : SubscriptionTable} (h : Kept t pairs) (client : ClientId)
    (hit : FilterKey → Prop) [DecidablePred hit]
    (hget : ∀ f : FilterKey, t'.by_filter[f]? =
      if hit f then t.by_filter[f]?.bind (retained client) else t.by_filter[f]?)
    (hindex : t'.index.Holds (fun f =>
      ¬ (hit f ∧ t.empties client f = true) ∧ t.by_filter[f]?.isSome = true)) :
    Kept t' (fun c f => ¬ (c = client ∧ hit f) ∧ pairs c f) := by
  refine ⟨fun c f => ?_, fun f cs hcs => ?_, fun f hf => ?_, hindex.congr (fun f => ?_)⟩
  · rw [h.clients, hget]
    by_cases hhit : hit f
    · rcases hf : t.by_filter[f]? with _ | clients
      · simp
      · simp [hhit, mem_retained]
    · simp [hhit]
  · rw [hget] at hcs
    split at hcs
    · obtain ⟨clients, -, hret⟩ := Option.bind_eq_some_iff.mp hcs
      exact retained_nonempty hret
    · exact h.nonempty f cs hcs
  · apply h.valid f
    rw [hget] at hf
    split at hf
    · obtain ⟨cs, hcs⟩ := Option.isSome_iff_exists.mp hf
      obtain ⟨clients, hold, -⟩ := Option.bind_eq_some_iff.mp hcs
      rw [hold]
      rfl
    · exact hf
  · rw [hget]
    unfold empties
    by_cases hhit : hit f
    · rcases hf : t.by_filter[f]? with _ | clients
      · simp
      · rcases hret : retained client clients with _ | cs
        · simp [hhit, hret]
        · simp [hhit, hret]
    · simp [hhit]

theorem kept_unsubscribe (h : Kept t pairs) (client : ClientId) (filter : FilterKey) :
    Kept (t.unsubscribe client filter) (registers pairs (.Unsubscribe client filter)) := by
  apply kept_retain h client (fun f => f = filter)
  · intro f
    rw [get_unsubscribe]
    by_cases hfe : filter = f
    · simp [hfe]
    · simp [hfe, Ne.symm hfe]
  · unfold unsubscribe
    rcases hf : t.by_filter[filter]? with _ | clients
    · refine h.index.congr (fun f => ?_)
      constructor
      · intro hsome
        refine ⟨?_, hsome⟩
        rintro ⟨rfl, -⟩
        rw [hf] at hsome
        cases hsome
      · exact fun hboth => hboth.2
    · have hempties : t.empties client filter = (clients.erase client).isEmpty := by
        unfold empties retained
        rw [hf, Option.any_some]
        split
        · rename_i hempty
          rw [hempty]
          rfl
        · rename_i hempty
          rw [Bool.not_eq_true] at hempty
          rw [hempty]
          rfl
      dsimp only
      split
      · rename_i hempty
        refine (FilterIndex.holds_remove h.index filter).congr (fun f => ?_)
        constructor
        · rintro ⟨hne, hsome⟩
          exact ⟨fun hboth => hne hboth.1, hsome⟩
        · rintro ⟨hnot, hsome⟩
          refine ⟨?_, hsome⟩
          rintro rfl
          exact hnot ⟨rfl, by rw [hempties, hempty]⟩
      · rename_i hempty
        refine h.index.congr (fun f => ?_)
        constructor
        · intro hsome
          refine ⟨?_, hsome⟩
          rintro ⟨rfl, hem⟩
          rw [hempties] at hem
          exact hempty hem
        · exact fun hboth => hboth.2

theorem holds_remove_all {index : FilterIndex} {filters : FilterKey → Prop}
    (h : index.Holds filters) (out : List FilterKey) :
    (out.foldl (fun index filter => index.remove filter) index).Holds
      (fun f => f ∉ out ∧ filters f) := by
  induction out generalizing index filters with
  | nil => exact h.congr (fun f => by simp)
  | cons filter out ih =>
    refine (ih (FilterIndex.holds_remove h filter)).congr (fun f => ?_)
    simp only [List.mem_cons, not_or]
    tauto

theorem kept_remove_client (h : Kept t pairs) (client : ClientId) {order : List FilterKey}
    (horder : order.Perm t.by_filter.keys) :
    Kept (t.remove_client client order) (registers pairs (.RemoveClient client order)) := by
  have hkept : Kept (t.remove_client client order)
      (fun c f => ¬ (c = client ∧ True) ∧ pairs c f) := by
    apply kept_retain h client (fun _ => True)
    · intro f
      rw [get_remove_client, if_pos trivial]
    · refine (holds_remove_all h.index _).congr (fun f => ?_)
      rw [List.mem_filter, horder.mem_iff, BTreeMap.mem_keys, ← Option.isSome_iff_exists]
      tauto
  refine ⟨fun c f => ?_, hkept.nonempty, hkept.valid, hkept.index⟩
  rw [← hkept.clients]
  simp [registers]

theorem kept_step (h : Kept t pairs) {op : TableOp} (hop : t.Calls op) :
    Kept (t.step op) (registers pairs op) := by
  cases op with
  | Subscribe client filter => exact kept_subscribe h client hop
  | Unsubscribe client filter => exact kept_unsubscribe h client filter
  | RemoveClient client order => exact kept_remove_client h client hop

theorem kept_run (h : Kept t pairs) {ops : List TableOp} (hops : t.Runs ops) :
    Kept (t.run ops) (ops.foldl registers pairs) := by
  induction ops generalizing t pairs with
  | nil => exact h
  | cons op ops ih => exact ih (kept_step h hops.1) hops.2

/-! ## The index against linear matching -/

theorem Kept.mem_visits (h : Kept t pairs) {topic : String} (ht : valid_topic_name topic = true)
    (c : ClientId) (f : FilterKey) :
    (c, f) ∈ t.visits topic ↔ pairs c f ∧ topic_matches f topic = true := by
  unfold visits for_each_matching_filter
  rw [List.mem_flatMap, h.clients]
  have hmatch := (h.index.matching h.valid ht).2
  constructor
  · rintro ⟨filter, hfilter, hmem⟩
    rcases hcs : t.by_filter[filter]? with _ | cs
    · rw [hcs] at hmem
      cases hmem
    · rw [hcs] at hmem
      obtain ⟨client, hclient, heq⟩ := List.mem_map.mp hmem
      cases heq
      exact ⟨⟨cs, hcs, Std.ExtTreeSet.mem_toList.mp hclient⟩, ((hmatch f).mp hfilter).2⟩
  · rintro ⟨⟨cs, hcs, hc⟩, htopic⟩
    refine ⟨f, (hmatch f).mpr ⟨by rw [hcs]; rfl, htopic⟩, ?_⟩
    rw [hcs]
    exact List.mem_map.mpr ⟨c, Std.ExtTreeSet.mem_toList.mpr hc, rfl⟩

theorem Kept.subscribed (h : Kept t pairs) (f : FilterKey) :
    t.by_filter[f]?.isSome = true ↔ ∃ c, pairs c f := by
  constructor
  · intro hf
    obtain ⟨cs, hcs⟩ := Option.isSome_iff_exists.mp hf
    have hne := h.nonempty f cs hcs
    by_contra hnone
    have hall : ∀ c, c ∉ cs := fun c hc => hnone ⟨c, (h.clients c f).mpr ⟨cs, hcs, hc⟩⟩
    rw [(BTreeSet.isEmpty_iff cs).mpr hall] at hne
    cases hne
  · rintro ⟨c, hc⟩
    obtain ⟨cs, hcs, -⟩ := (h.clients c f).mp hc
    rw [hcs]
    rfl

theorem Kept.pruned (h : Kept t pairs) {path : List String} {n : TrieNode}
    (hn : t.index.root.descend path = some n) (hroot : path = [] → ∃ c f, pairs c f) :
    ∃ rest f c, n.ends rest = some f ∧ split f = path ++ rest ∧ pairs c f := by
  have hends : ∃ rest f, n.ends rest = some f := by
    by_cases hp : path = []
    · obtain ⟨c, f, hc⟩ := hroot hp
      subst hp
      cases hn
      exact ⟨split f, f, (h.index.ends_iff _ f).mpr ⟨(h.subscribed f).mpr ⟨c, hc⟩, rfl⟩⟩
    · obtain ⟨hproper, halive⟩ := h.index.tidy path n hn
      exact (h.index.tidy.descend hn).ends_below (halive hp)
  obtain ⟨rest, f, hf⟩ := hends
  have hpath : t.index.root.ends (path ++ rest) = some f := by
    rw [TrieNode.ends_append, hn]
    exact hf
  obtain ⟨hsome, hsplit⟩ := (h.index.ends_iff _ f).mp hpath
  obtain ⟨c, hc⟩ := (h.subscribed f).mp hsome
  exact ⟨rest, f, c, hf, hsplit, hc⟩

/-- After any history the walk over a topic visits the subscribed pairs whose filter matches it,
each matching filter once, and the trie has no node that leads to no subscribed filter. -/
theorem the_index_is_linear_matching (ops : List TableOp) (hops : new.Runs ops) :
    (∀ topic, valid_topic_name topic = true →
      (∀ c f, (c, f) ∈ (new.run ops).visits topic ↔
        registered ops c f ∧ topic_matches f topic = true) ∧
      ∀ c f, registered ops c f → topic_matches f topic = true →
        ((new.run ops).for_each_matching_filter topic).count f = 1) ∧
    ∀ path n, (new.run ops).index.root.descend path = some n →
      (path = [] → ∃ c f, registered ops c f) →
      ∃ rest f c, n.ends rest = some f ∧ split f = path ++ rest ∧ registered ops c f := by
  have h : Kept (new.run ops) (registered ops) := kept_run kept_new hops
  refine ⟨fun topic ht => ⟨h.mem_visits ht, fun c f hc hmatch => ?_⟩,
    fun path n hn hroot => h.pruned hn hroot⟩
  obtain ⟨hnodup, hmem⟩ := h.index.matching h.valid ht
  apply List.count_eq_one_of_mem hnodup
  exact (hmem f).mpr ⟨(h.subscribed f).mpr ⟨c, hc⟩, hmatch⟩

/-- Two clients with wildcards; one filter goes, and then one client. -/
theorem the_index_is_linear_matching_after_a_removal :
    ((new.run [.Subscribe "a" "x/+", .Subscribe "b" "x/#", .Subscribe "a" "x/y/z",
      .Unsubscribe "a" "x/+", .RemoveClient "a" ["x/y/z", "x/#"]]).visits "x") = [("b", "x/#")] ∧
    ∀ c f, (c, f) ∈ (new.run [.Subscribe "a" "x/+", .Subscribe "b" "x/#", .Subscribe "a" "x/y/z",
      .Unsubscribe "a" "x/+", .RemoveClient "a" ["x/y/z", "x/#"]]).visits "x" ↔
        registered [.Subscribe "a" "x/+", .Subscribe "b" "x/#", .Subscribe "a" "x/y/z",
          .Unsubscribe "a" "x/+", .RemoveClient "a" ["x/y/z", "x/#"]] c f ∧
        topic_matches f "x" = true :=
  ⟨by decide +kernel, ((the_index_is_linear_matching _ (by decide +kernel)).1 "x"
    (by decide +kernel)).1⟩

/-! ## The clients of a topic -/

theorem Kept.nodup_visits (h : Kept t pairs) {topic : String}
    (ht : valid_topic_name topic = true) : (t.visits topic).Nodup := by
  refine List.nodup_flatMap.mpr ⟨fun f _ => ?_, ?_⟩
  · split
    · exact List.nodup_nil
    · exact (BTreeSet.toList_nodup _).map fun _ _ heq => congrArg Prod.fst heq
  · refine (h.index.matching h.valid ht).1.imp fun {f f'} hne => ?_
    have hfilter (g : FilterKey) {x : ClientId × FilterKey} (hx : x ∈ match t.by_filter[g]? with
        | none => []
        | some clients => clients.toList.map (fun client => (client, g))) : x.2 = g := by
      split at hx
      · cases hx
      · obtain ⟨c, -, rfl⟩ := List.mem_map.mp hx
        rfl
    intro x hx hx'
    exact hne ((hfilter f hx).symm.trans (hfilter f' hx'))

/-- After any history a topic's clients are those with a subscribed filter that matches it. The
walk meets a client once for each of these filters and the set has it once, and the filters that
are gossiped are the subscribed ones. -/
theorem every_matching_client_is_found (ops : List TableOp) (hops : new.Runs ops) :
    ((new.run ops).filters.Nodup ∧ ∀ f, f ∈ (new.run ops).filters ↔ ∃ c, registered ops c f) ∧
    ∀ topic, valid_topic_name topic = true → ((new.run ops).visits topic).Nodup ∧
      ∀ c, (c ∈ (new.run ops).for_each_matching_client topic ↔
          ∃ f, registered ops c f ∧ topic_matches f topic = true) ∧
        (c ∈ (new.run ops).matching_clients topic ↔
          c ∈ (new.run ops).for_each_matching_client topic) := by
  have h : Kept (new.run ops) (registered ops) := kept_run kept_new hops
  refine ⟨⟨(BTreeMap.keys_sorted _).imp ne_of_lt, fun f => ?_⟩,
    fun topic ht => ⟨h.nodup_visits ht, fun c => ⟨?_, ?_⟩⟩⟩
  · rw [← h.subscribed, Option.isSome_iff_exists]
    exact BTreeMap.mem_keys _ _
  · unfold for_each_matching_client
    rw [List.mem_map]
    constructor
    · rintro ⟨⟨c, f⟩, hv, rfl⟩
      exact ⟨f, (h.mem_visits ht c f).mp hv⟩
    · rintro ⟨f, hf⟩
      exact ⟨(c, f), (h.mem_visits ht c f).mpr hf, rfl⟩
  · unfold matching_clients
    rw [BTreeSet.mem_foldl_insert]
    simp

theorem a_client_of_two_filters_is_found_once :
    (new.run [.Subscribe "a" "x/+", .Subscribe "a" "x/#"]).for_each_matching_client "x/y" =
        ["a", "a"] ∧
      "a" ∈ (new.run [.Subscribe "a" "x/+", .Subscribe "a" "x/#"]).matching_clients "x/y" := by
  have hwalk : (new.run [.Subscribe "a" "x/+", .Subscribe "a" "x/#"]).for_each_matching_client
      "x/y" = ["a", "a"] := by decide +kernel
  refine ⟨hwalk, ?_⟩
  rw [(((every_matching_client_is_found _ (by decide +kernel)).2 "x/y" (by decide +kernel)).2 "a").2,
    hwalk]
  exact List.mem_cons_self

end SubscriptionTable

end mqtt_core.subscriptions
