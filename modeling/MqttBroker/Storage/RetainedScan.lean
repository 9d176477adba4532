-- The retained index against a scan of the retained messages: the walk over a
-- filter selects the topics that linear matching does, after any changes to
-- the set.
import MqttBroker.Storage.RetainedIndex

namespace mqtt_storage

open mqtt_core RetainedNode
open Trie (ends descend Tidy)

/-! ## The walk against a scan -/

theorem dollar_topic (topic : String) :
    topic.toList.head? = some '$' ↔ dollarFirst (split topic) = true := by
  rw [head_of_split topic '$' (by decide)]
  rcases hs : split topic with _ | ⟨level, rest⟩
  · exact absurd hs (split_ne_nil topic)
  · simp [dollarFirst, starts_with_dollar]

theorem first_of_match {level : String} {rest path : List String}
    (hwild : wildFirst (level :: rest) = false) (hmatch : level_matches (level :: rest) path = true) :
    ∃ after, path = level :: after := by
  obtain ⟨hplus, hhash⟩ : level ≠ "+" ∧ level ≠ "#" := by simpa [wildFirst] using hwild
  cases path with
  | nil => simp [level_matches, hhash] at hmatch
  | cons first after =>
    have hfirst : level = first ∧ level_matches rest after = true := by
      simpa [level_matches, hhash, hplus] using hmatch
    exact ⟨after, by rw [hfirst.1]⟩

/-- Matching by the levels, for any filter: a first level that starts with a wildcard character
without being one selects no `$` topic. -/
theorem topic_matches_levels (filter topic : String) :
    topic_matches filter topic = true ↔
      level_matches (split filter) (split topic) = true ∧
        ¬ ((filter.toList.head? == some '+' || filter.toList.head? == some '#') = true ∧
          wildFirst (split filter) = true ∧ dollarFirst (split topic) = true) := by
  unfold topic_matches
  have hdollar := dollar_topic topic
  by_cases hd : topic.toList.head? = some '$'
  · by_cases hopens : (filter.toList.head? == some '+' || filter.toList.head? == some '#') = true
    · rw [if_pos (by simp [hd, hopens])]
      simp only [Bool.false_eq_true, hopens, hdollar.mp hd, and_true, true_and, false_iff, not_and,
        not_not]
      intro hmatch
      by_contra hwild
      rw [Bool.not_eq_true] at hwild
      -- The topic starts with the first level of the filter, and so with its wildcard character.
      rcases hs : split filter with _ | ⟨level, rest⟩
      · exact split_ne_nil filter hs
      · rw [hs] at hwild hmatch
        obtain ⟨after, htopic⟩ := first_of_match hwild hmatch
        have hlevel : level.toList.head? = some '$' := by
          have := hdollar.mp hd
          rw [htopic] at this
          simpa [dollarFirst, starts_with_dollar] using this
        have hfilter : filter.toList.head? = some '$' :=
          (head_of_split filter '$' (by decide)).mpr ⟨level, rest, hs, hlevel⟩
        rw [hfilter] at hopens
        revert hopens
        decide
    · rw [if_neg (by simp [hopens])]
      simp [hopens]
  · have hnot : ¬ dollarFirst (split topic) = true := fun h => hd (hdollar.mpr h)
    rw [if_neg (by simp [hd])]
    simp [hnot]

theorem topic_matches_plain {filter : String} (hplus : '+' ∉ filter.toList)
    (hhash : '#' ∉ filter.toList) (topic : String) :
    topic_matches filter topic = true ↔ topic = filter := by
  have hplain : ∀ level ∈ split filter, level ≠ "#" ∧ level ≠ "+" := by
    intro level hlevel
    unfold split at hlevel
    obtain ⟨piece, hpiece, rfl⟩ := List.mem_map.mp hlevel
    constructor
    · intro heq
      have : piece = ['#'] := by simpa using congrArg String.toList heq
      exact hhash (mem_of_mem_splitOn hpiece (by simp [this]))
    · intro heq
      have : piece = ['+'] := by simpa using congrArg String.toList heq
      exact hplus (mem_of_mem_splitOn hpiece (by simp [this]))
  have hlevels : ∀ fs ts : List String, (∀ level ∈ fs, level ≠ "#" ∧ level ≠ "+") →
      (level_matches fs ts = true ↔ ts = fs) := by
    intro fs
    induction fs with
    | nil =>
      intro ts _
      cases ts <;> simp [level_matches]
    | cons f fs ih =>
      intro ts h
      obtain ⟨hf, hf'⟩ := h f List.mem_cons_self
      cases ts with
      | nil => simp [level_matches, hf]
      | cons t ts =>
        have hrest := ih ts (fun level hl => h level (List.mem_cons_of_mem _ hl))
        simp [level_matches, hf, hf', hrest, eq_comm (a := t)]
  have hopens : ¬ (filter.toList.head? == some '+' || filter.toList.head? == some '#') = true := by
    rw [Bool.or_eq_true, beq_iff_eq, beq_iff_eq]
    rintro (h | h)
    · exact hplus (List.mem_of_head? h)
    · exact hhash (List.mem_of_head? h)
  rw [topic_matches_levels, hlevels _ _ hplain]
  constructor
  · rintro ⟨h, -⟩
    exact split_inj h
  · rintro rfl
    exact ⟨rfl, fun h => hopens h.1⟩

/-- The index holds the topics of a set, each at its own path. -/
abbrev RetainedIndex.Holds (index : RetainedIndex) (topics : TopicKey → Prop) : Prop :=
  Trie.Holds index.root split topics

theorem RetainedIndex.matches_of_holds {index : RetainedIndex} {topics : TopicKey → Prop}
    (h : index.Holds topics) (filter : String) :
    (index.for_each_match filter).Nodup ∧
      ∀ t, t ∈ index.for_each_match filter ↔ topics t ∧ topic_matches filter t = true := by
  have hsound : Sound index.root := ⟨h.tidy, h.once⟩
  unfold for_each_match
  generalize hskip : (filter.toList.head? == some '+' || filter.toList.head? == some '#') = skip
  have hturns : ([(index.root, 0, skip)].map (fun f : Frame => f.1.node_count)).sum ≤
      index.root.node_count := by simp
  have hgood : ∀ f ∈ [(index.root, 0, skip)], Sound f.1 := by simpa using hsound
  have hvisits := visits_filter (split filter)
  refine ⟨StackWalk.nodup_walk hvisits _ _ hturns hgood (by simp), fun t => ?_⟩
  rw [StackWalk.mem_walk hvisits _ _ hturns hgood, topic_matches_levels, hskip]
  simp only [List.mem_singleton, exists_eq_left, Selected, List.drop_zero]
  constructor
  · rintro ⟨path, hpath, hmatch⟩
    obtain ⟨ht, rfl⟩ := (h.ends_iff path t).mp hpath
    exact ⟨ht, hmatch⟩
  · rintro ⟨ht, hmatch⟩
    exact ⟨split t, (h.ends_iff _ t).mpr ⟨ht, rfl⟩, hmatch⟩

/-! ## Every run -/

/-- The index holds the topics that are stored, and each message is under its own. -/
structure RetainedState.Indexed (s : RetainedState) : Prop where
  holds : s.index.Holds (fun t => s.contains t = true)
  topic : ∀ (t : TopicKey) m, s.by_topic[t]? = some m → m.topic = t

theorem RetainedState.indexed_empty : RetainedState.Indexed {} := by
  refine ⟨Trie.holds_empty.congr (fun t => ?_), fun t m hm => ?_⟩
  · simp [RetainedState.contains]
  · simp at hm

theorem RetainedState.contains_insert (by_topic : BTreeMap TopicKey Message) (topic t : TopicKey)
    (m : Message) : ((by_topic.insert topic m)[t]?).isSome = true ↔
      t = topic ∨ by_topic[t]?.isSome = true := by
  rw [BTreeMap.get_insert]
  by_cases ht : topic = t
  · simp [ht]
  · simp [ht, Ne.symm ht]

theorem RetainedState.Indexed.insert {s : RetainedState} (h : s.Indexed) (m : Message) :
    (s.insert m.topic m).Indexed := by
  have htopic : ∀ (t : TopicKey) m', (s.by_topic.insert m.topic m)[t]? = some m' →
      m'.topic = t := by
    intro t m' hm'
    rw [BTreeMap.get_insert] at hm'
    split at hm'
    · rename_i heq
      cases hm'
      exact heq
    · exact h.topic t m' hm'
  unfold RetainedState.insert
  rcases hslot : s.by_topic[m.topic]? with _ | old
  · refine ⟨(h.holds.insert split_injective m.topic).congr (fun t => ?_), htopic⟩
    unfold contains
    rw [contains_insert]
  · refine ⟨h.holds.congr (fun t => ?_), htopic⟩
    unfold contains
    rw [contains_insert]
    constructor
    · exact Or.inr
    · rintro (rfl | ht)
      · simp [hslot]
      · exact ht

theorem RetainedState.Indexed.remove {s : RetainedState} (h : s.Indexed) (topic : String) :
    (s.remove topic).Indexed := by
  unfold RetainedState.remove
  rcases hslot : s.by_topic[topic]? with _ | old
  · exact h
  · refine ⟨(h.holds.remove split_injective (split_ne_nil topic)).congr (fun t => ?_), fun t m hm => ?_⟩
    · unfold contains
      rw [BTreeMap.get_erase]
      by_cases ht : topic = t
      · simp [ht]
      · simp [ht, Ne.symm ht]
    · rw [BTreeMap.get_erase] at hm
      split at hm
      · cases hm
      · exact h.topic t m hm

theorem RetainedState.Indexed.call {s : RetainedState} (h : s.Indexed) (call : RetainedCall) :
    (s.call call).Indexed := by
  cases call with
  | set message =>
    rw [RetainedState.call, RetainedState.set]
    split
    · exact h.remove message.topic
    · exact h.insert message
  | remove topic => exact h.remove topic

theorem RetainedState.indexed_after (calls : List RetainedCall) :
    (RetainedState.after calls).Indexed := by
  have hrun : ∀ (s : RetainedState), s.Indexed →
      (calls.foldl RetainedState.call s).Indexed := by
    induction calls with
    | nil =>
      intro s hs
      exact hs
    | cons call calls ih =>
      intro s hs
      exact ih _ (hs.call call)
  exact hrun {} RetainedState.indexed_empty

namespace RetainedState

theorem mem_all (s : RetainedState) (m : Message) :
    m ∈ s.all ↔ ∃ t : TopicKey, s.by_topic[t]? = some m := by
  unfold all
  rw [List.mem_map]
  constructor
  · rintro ⟨⟨t, m'⟩, hmem, rfl⟩
    exact ⟨t, (BTreeMap.mem_toList _ _ _).mp hmem⟩
  · rintro ⟨t, hm⟩
    exact ⟨(t, m), (BTreeMap.mem_toList _ _ _).mpr hm, rfl⟩

theorem Indexed.nodup_topics {s : RetainedState} (h : s.Indexed) :
    (s.all.map Message.topic).Nodup := by
  have hkeys : s.all.map Message.topic = s.by_topic.toList.map Prod.fst := by
    unfold all
    rw [List.map_map]
    apply List.map_congr_left
    rintro ⟨t, m⟩ hmem
    exact h.topic t m ((BTreeMap.mem_toList _ _ _).mp hmem)
  rw [hkeys, List.Nodup, List.pairwise_map]
  exact (BTreeMap.toList_sorted s.by_topic).imp (fun hlt => ne_of_lt hlt)

theorem Indexed.mem_all_iff {s : RetainedState} (h : s.Indexed) (m : Message) :
    m ∈ s.all ↔ s.by_topic[m.topic]? = some m := by
  rw [mem_all]
  constructor
  · rintro ⟨t, hm⟩
    rwa [h.topic t m hm]
  · intro hm
    exact ⟨m.topic, hm⟩

theorem Indexed.mem_matching {s : RetainedState} (h : s.Indexed) (filter : String) (m : Message) :
    m ∈ s.matching filter ↔ m ∈ s.all ∧ topic_matches filter m.topic = true := by
  rw [h.mem_all_iff]
  unfold RetainedState.matching
  split
  · rename_i hplain
    simp only [Bool.and_eq_true, Bool.not_eq_true', List.contains_eq_mem,
      decide_eq_false_iff_not] at hplain
    rw [topic_matches_plain hplain.1 hplain.2, Option.mem_toList]
    constructor
    · intro hm
      have htopic := h.topic filter m hm
      exact ⟨by rw [htopic, hm], htopic⟩
    · rintro ⟨hm, rfl⟩
      exact hm
  · rw [List.mem_filterMap]
    constructor
    · rintro ⟨t, ht, hm⟩
      obtain ⟨-, hmatch⟩ := ((RetainedIndex.matches_of_holds h.holds filter).2 t).mp ht
      rw [h.topic t m hm]
      exact ⟨hm, hmatch⟩
    · rintro ⟨hm, hmatch⟩
      refine ⟨m.topic, ((RetainedIndex.matches_of_holds h.holds filter).2 _).mpr ⟨?_, hmatch⟩, hm⟩
      simp [contains, hm]

theorem Indexed.nodup_matching {s : RetainedState} (h : s.Indexed) (filter : String) :
    (s.matching filter).Nodup := by
  unfold RetainedState.matching
  split
  · cases s.by_topic[filter]? <;> simp
  · apply (RetainedIndex.matches_of_holds h.holds filter).1.filterMap
    intro t t' m hm hm'
    rw [← h.topic t m hm, ← h.topic t' m hm']

/-- What one more call leaves under a topic. -/
def leaves (topic : String) (held : Option Message) : RetainedCall → Option Message
  | .set m => if m.topic = topic then (if m.payload.isEmpty then none else some m) else held
  | .remove t => if t = topic then none else held

theorem get_insert (s : RetainedState) (topic t : String) (m : Message) :
    (s.insert topic m).by_topic[t]? = if topic = t then some m else s.by_topic[t]? := by
  unfold insert
  split
  · exact BTreeMap.get_insert ..
  · exact BTreeMap.get_insert ..

theorem get_remove (s : RetainedState) (topic t : String) :
    (s.remove topic).by_topic[t]? = if topic = t then none else s.by_topic[t]? := by
  unfold remove
  split
  · exact BTreeMap.get_erase ..
  · next hnone =>
    split
    · next heq => rw [← heq, hnone]
    · rfl

theorem get_call (s : RetainedState) (call : RetainedCall) (t : String) :
    (s.call call).by_topic[t]? = leaves t s.by_topic[t]? call := by
  cases call with
  | set m =>
    rw [RetainedState.call, RetainedState.set, leaves]
    split
    · exact get_remove s m.topic t
    · exact get_insert s m.topic t m
  | remove topic => exact get_remove s topic t

theorem get_after (calls : List RetainedCall) (t : String) :
    (after calls).by_topic[t]? = calls.foldl (leaves t) none := by
  have hrun : ∀ (s : RetainedState),
      (calls.foldl RetainedState.call s).by_topic[t]? = calls.foldl (leaves t) s.by_topic[t]? := by
    induction calls with
    | nil =>
      intro s
      rfl
    | cons call calls ih =>
      intro s
      rw [List.foldl_cons, ih, get_call, List.foldl_cons]
  rw [after, hrun, BTreeMap.get_empty]

/-- After any calls, what is stored is what the last call on each topic set, and a filter is
given the stored messages that a scan of the store selects, each once. The index has an end for
each stored topic and for no other, and below its root no node without one; the root is without
one when nothing is stored. -/
theorem the_retained_index_equals_a_scan (calls : List RetainedCall) (filter : String) :
    (∀ m, m ∈ (after calls).all ↔ calls.foldl (leaves m.topic) none = some m) ∧
      ((after calls).matching filter).Perm
        ((after calls).all.filter (fun m => topic_matches filter m.topic)) ∧
      ((after calls).all.map Message.topic).Nodup ∧
      (∀ path t, ends (after calls).index.root path = some t ↔
        (after calls).contains t = true ∧ split t = path) ∧
      ∀ path n, descend (after calls).index.root path = some n →
        (∃ rest t, ends n rest = some t) ∨ path = [] ∧ (after calls).all = [] := by
  have h := indexed_after calls
  have hall : (after calls).all.Nodup := h.nodup_topics.of_map _
  refine ⟨?_, ?_, h.nodup_topics, h.holds.ends_iff, fun path n hn => ?_⟩
  · intro m
    rw [h.mem_all_iff, get_after]
  · rw [List.perm_ext_iff_of_nodup (h.nodup_matching filter) (hall.filter _)]
    intro m
    rw [h.mem_matching, List.mem_filter]
  · cases path with
    | cons level rest =>
      have halive := (h.holds.tidy (level :: rest) n hn).2 (by simp)
      exact Or.inl ((h.holds.tidy.descend hn).ends_below halive)
    | nil =>
      cases hn
      rcases hs : (after calls).all with _ | ⟨m, rest⟩
      · exact Or.inr ⟨rfl, rfl⟩
      · have hm := (h.mem_all_iff m).mp (by simp [hs])
        exact Or.inl ⟨split m.topic, m.topic,
          (h.holds.ends_iff _ _).mpr ⟨by simp [contains, hm], rfl⟩⟩

end RetainedState

end mqtt_storage
