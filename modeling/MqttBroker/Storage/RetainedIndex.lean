-- The retained messages and the index over their topics (`mqtt-storage/src/lib.rs`):
-- a trie with one node for each level of a topic. The walk over a filter meets
-- the topics that it selects, and a removal cuts the chain that it leaves empty.
import Mathlib.Algebra.Order.BigOperators.Group.List
import MqttBroker.Lib.AssocList
import MqttBroker.Lib.StackWalk
import MqttBroker.Lib.Trie
import MqttBroker.Storage.Records

namespace mqtt_storage

open mqtt_core

abbrev TopicKey := String

/-! ## The trie -/

/-- One level of the index. A level of a topic that reads `+` or `#` is a key like any other. -/
inductive RetainedNode where
  | mk (children : List (String × RetainedNode)) (terminal : Option TopicKey)

namespace RetainedNode

def children : RetainedNode → List (String × RetainedNode)
  | mk c _ => c

def terminal : RetainedNode → Option TopicKey
  | mk _ t => t

/-- A node with nothing below it, as `default`. -/
def empty : RetainedNode := mk [] none

def child (n : RetainedNode) (level : String) : Option RetainedNode := n.children.lookup level

-- The nodes of a subtree, counted along its children.
mutual

def node_count : RetainedNode → Nat
  | mk children _ => countAll children + 1

def countAll : List (String × RetainedNode) → Nat
  | [] => 0
  | c :: rest => countOne c + countAll rest

def countOne : String × RetainedNode → Nat
  | (_, c) => node_count c

end

end RetainedNode

open RetainedNode

instance : Trie.Node RetainedNode String TopicKey where
  empty := empty
  child := child
  setChild n level c := mk (AssocList.put level c n.children) n.terminal
  removeChild n level := mk (AssocList.drop level n.children) n.terminal
  terminal := terminal
  setTerminal n t := mk n.children t
  childCount n := n.children.length
  Proper n := AssocList.Distinct n.children

structure RetainedIndex where
  root : RetainedNode := empty

def starts_with_dollar (level : String) : Bool := level.toList.head? == some '$'

namespace RetainedNode

/-- The children that a loop over them goes on with: below the root of a filter that opens with a
wildcard, the ones of a `$` topic are skipped. -/
def open_children (n : RetainedNode) (at_root : Bool) : List (String × RetainedNode) :=
  n.children.filter (fun c => !(at_root && starts_with_dollar c.1))

end RetainedNode

namespace RetainedIndex

def insert (index : RetainedIndex) (topic : TopicKey) : RetainedIndex :=
  { root := Trie.insertAt index.root topic (split topic) }

def remove (index : RetainedIndex) (topic : String) : RetainedIndex :=
  { root := Trie.remove index.root (split topic) }

/-- One turn of the loop below a `#`: a node of the subtree, and whether it is the root. -/
def visit_subtree (f : RetainedNode × Bool) : List TopicKey × List (RetainedNode × Bool) :=
  (f.1.terminal.toList, (f.1.open_children f.2).map (fun c => (c.2, false)))

/-- A node on the stack of the walk: how many levels of the filter lead to it, and whether it is
the root of a filter that opens with a wildcard. -/
abbrev Frame := RetainedNode × Nat × Bool

/-- One turn of the walk: the topics that it calls back with, and the nodes that it pushes. -/
def visit (levels : List String) (f : Frame) : List TopicKey × List Frame :=
  let (node, depth, at_root) := f
  match levels[depth]? with
  | none => (node.terminal.toList, [])
  | some level =>
    if level = "#" then
      (StackWalk.walk visit_subtree node.node_count [(node, at_root)], [])
    else if level = "+" then
      ([], (node.open_children at_root).map (fun c => (c.2, depth + 1, false)))
    else ([], (node.child level).toList.map (fun c => (c, depth + 1, false)))

/-- Every indexed topic that a filter selects, in the order of the callbacks. A walk meets each
node once at most, so its loops end within the turns they are given. -/
def for_each_match (index : RetainedIndex) (filter : String) : List TopicKey :=
  let levels := split filter
  let skip_dollar := filter.toList.head? == some '+' || filter.toList.head? == some '#'
  StackWalk.walk (visit levels) index.root.node_count [(index.root, 0, skip_dollar)]

end RetainedIndex

/-! ## The retained set -/

/-- The messages by topic, and the index over the same topics. -/
structure RetainedState where
  by_topic : BTreeMap TopicKey Message := ∅
  index : RetainedIndex := {}

namespace RetainedState

def insert (s : RetainedState) (topic : String) (message : Message) : RetainedState :=
  match s.by_topic[topic]? with
  | some _ => { s with by_topic := s.by_topic.insert topic message }
  | none => { by_topic := s.by_topic.insert topic message, index := s.index.insert topic }

def remove (s : RetainedState) (topic : String) : RetainedState :=
  match s.by_topic[topic]? with
  | some _ => { by_topic := s.by_topic.erase topic, index := s.index.remove topic }
  | none => s

/-- A message without a payload clears its topic. -/
def set (s : RetainedState) (message : Message) : RetainedState :=
  if message.payload.isEmpty then s.remove message.topic else s.insert message.topic message

/-- Every message whose topic a filter selects. A filter without a wildcard character is looked
up, any other is walked through the index. -/
def matching (s : RetainedState) (filter : String) : List Message :=
  if !filter.toList.contains '+' && !filter.toList.contains '#' then s.by_topic[filter]?.toList
  else (s.index.for_each_match filter).filterMap (fun topic => s.by_topic[topic]?)

def contains (s : RetainedState) (topic : String) : Bool := s.by_topic[topic]?.isSome

def all (s : RetainedState) : List Message := s.by_topic.toList.map Prod.snd

end RetainedState

inductive RetainedCall
  | set (message : Message)
  | remove (topic : String)

def RetainedState.call (s : RetainedState) : RetainedCall → RetainedState
  | .set message => s.set message
  | .remove topic => s.remove topic

def RetainedState.after (calls : List RetainedCall) : RetainedState :=
  calls.foldl RetainedState.call {}

/-! ## One node -/

namespace RetainedNode

open Trie.Node (setChild removeChild)

theorem sizeOf_child {n c : RetainedNode} {level : String} (hc : n.child level = some c) :
    sizeOf c < sizeOf n := by
  obtain ⟨cs, t⟩ := n
  obtain ⟨before, after, hcs, -⟩ := List.lookup_eq_some_iff.mp hc
  have hmem : (level, c) ∈ cs := by
    rw [show cs = before ++ (level, c) :: after from hcs]
    simp
  have hsize := List.sizeOf_lt_of_mem hmem
  simp only [mk.sizeOf_spec, Prod.mk.sizeOf_spec] at hsize ⊢
  omega

/-- A map with a pair in it has a key that is found. -/
theorem child_of_children {n : RetainedNode} (h : 0 < n.children.length) :
    ∃ level c, n.child level = some c := by
  obtain ⟨cs, t⟩ := n
  rcases cs with _ | ⟨⟨level, c⟩, cs⟩
  · cases h
  · exact ⟨level, c, List.lookup_cons_self⟩

instance : Trie.LawfulNode RetainedNode String TopicKey where
  child_setChild n c key k := AssocList.lookup_put k key c n.children
  child_removeChild n key k := AssocList.lookup_drop k key n.children
  child_setTerminal _ _ _ := rfl
  child_empty _ := rfl
  terminal_setChild _ _ _ := rfl
  terminal_removeChild _ _ := rfl
  terminal_setTerminal _ _ := rfl
  terminal_empty := rfl
  count_setTerminal _ _ := rfl
  count_removeChild _ _ _ h hc := AssocList.length_drop h hc
  count_pos n c key hc := by
    obtain ⟨cs, t⟩ := n
    cases cs with
    | nil => cases hc
    | cons first cs => simp [Trie.Node.childCount, children]
  child_of_count _ _ h := child_of_children h
  proper_setChild _ c key h := AssocList.distinct_put h key c
  proper_removeChild _ key h := AssocList.distinct_drop h key
  proper_setTerminal _ _ h := h
  proper_empty := List.nodup_nil
  child_wf := by
    refine Subrelation.wf ?_ (measure (fun n : RetainedNode => sizeOf n)).wf
    rintro c n ⟨key, hc⟩
    exact sizeOf_child hc

theorem node_count_eq (n : RetainedNode) :
    n.node_count = (n.children.map (fun c => c.2.node_count)).sum + 1 := by
  obtain ⟨cs, t⟩ := n
  have hall : countAll cs = (cs.map (fun c => c.2.node_count)).sum := by
    induction cs with
    | nil => simp [countAll]
    | cons c cs ih =>
      rw [countAll, ih, List.map_cons, List.sum_cons, countOne]
  rw [node_count, hall, children]

/-- The subtrees that a loop goes on with have fewer nodes than the whole. -/
theorem count_open (n : RetainedNode) (at_root : Bool) :
    ((n.open_children at_root).map (fun c => c.2.node_count)).sum + 1 ≤ n.node_count := by
  rw [node_count_eq n]
  have hsub : (n.open_children at_root).Sublist n.children := List.filter_sublist
  have hsum := (hsub.map (fun c => c.2.node_count)).sum_le_sum (fun _ _ => Nat.zero_le _)
  omega

theorem count_child {n c : RetainedNode} {level : String} (hc : n.child level = some c) :
    c.node_count + 1 ≤ n.node_count := by
  obtain ⟨before, after, hcs, -⟩ := List.lookup_eq_some_iff.mp hc
  rw [node_count_eq n, hcs]
  simp
  omega

end RetainedNode

/-! ## The walk over a filter -/

open Trie (ends descend Tidy)

/-- A subtree that is tidy and in which each topic ends at one path. -/
structure Sound (n : RetainedNode) : Prop where
  tidy : Tidy n
  once : ∀ p q t, ends n p = some t → ends n q = some t → p = q

variable {n : RetainedNode}

theorem Sound.proper (h : Sound n) : AssocList.Distinct n.children :=
  ((Trie.tidy_iff n).mp h.tidy).1

theorem Sound.child {c : RetainedNode} (h : Sound n) {level : String}
    (hc : n.child level = some c) : Sound c := by
  refine ⟨h.tidy.child hc, fun p q t hp hq => ?_⟩
  have hsame := h.once (level :: p) (level :: q) t (by rw [Trie.ends_child hc, hp])
    (by rw [Trie.ends_child hc, hq])
  exact (List.cons.inj hsame).2

/-- The first level of a path starts with `$`. -/
def dollarFirst : List String → Bool
  | level :: _ => starts_with_dollar level
  | [] => false

theorem mem_open (h : Sound n) (at_root : Bool) (level : String) (c : RetainedNode) :
    (level, c) ∈ n.open_children at_root ↔
      n.child level = some c ∧ ¬ (at_root = true ∧ starts_with_dollar level = true) := by
  unfold open_children
  rw [List.mem_filter, AssocList.mem_iff_lookup h.proper]
  cases at_root <;> simp [RetainedNode.child]

theorem sound_open (h : Sound n) {at_root : Bool} {c : String × RetainedNode}
    (hc : c ∈ n.open_children at_root) : Sound c.2 :=
  h.child ((mem_open h at_root c.1 c.2).mp hc).1

theorem apart_open (h : Sound n) (at_root : Bool) (Finds : RetainedNode → TopicKey → Prop)
    (hfinds : ∀ c t, Finds c t → ∃ path, ends c path = some t) :
    (n.open_children at_root).Pairwise
      (fun c c' => ∀ t, Finds c.2 t → ¬ Finds c'.2 t) := by
  have hkeys : (n.open_children at_root).Pairwise (fun c c' => c.1 ≠ c'.1) :=
    (List.pairwise_map.mp h.proper).sublist List.filter_sublist
  apply hkeys.imp_of_mem
  intro c c' hc hc' hne t ht ht'
  obtain ⟨p, hp⟩ := hfinds c.2 t ht
  obtain ⟨q, hq⟩ := hfinds c'.2 t ht'
  have hsame := h.once (c.1 :: p) (c'.1 :: q) t
    (by rw [Trie.ends_child ((mem_open h at_root c.1 c.2).mp hc).1, hp])
    (by rw [Trie.ends_child ((mem_open h at_root c'.1 c'.2).mp hc').1, hq])
  exact hne (List.cons.inj hsame).1

/-- What the loop below a `#` is to find from a frame on. -/
def InSubtree (f : RetainedNode × Bool) (t : TopicKey) : Prop :=
  ∃ path, ends f.1 path = some t ∧ ¬ (f.2 = true ∧ dollarFirst path = true)

theorem inSubtree_iff (h : Sound n) (at_root : Bool) (t : TopicKey) :
    InSubtree (n, at_root) t ↔
      n.terminal = some t ∨ ∃ c ∈ n.open_children at_root, InSubtree (c.2, false) t := by
  constructor
  · rintro ⟨path, hpath, hskip⟩
    cases path with
    | nil => exact Or.inl hpath
    | cons level rest =>
      rw [Trie.ends_cons] at hpath
      obtain ⟨c, hc, hrest⟩ := Option.bind_eq_some_iff.mp hpath
      exact Or.inr ⟨(level, c), (mem_open h at_root level c).mpr ⟨hc, hskip⟩, rest, hrest, by simp⟩
  · rintro (ht | ⟨⟨level, c⟩, hc, path, hpath, -⟩)
    · exact ⟨[], ht, by simp [dollarFirst]⟩
    · obtain ⟨hchild, hskip⟩ := (mem_open h at_root level c).mp hc
      exact ⟨level :: path, by rw [Trie.ends_child hchild, hpath], hskip⟩

theorem visits_subtree : StackWalk.Visits RetainedIndex.visit_subtree
    (fun f => Sound f.1) InSubtree (fun f => f.1.node_count) where
  finds f hf t := by
    obtain ⟨n, at_root⟩ := f
    rw [inSubtree_iff hf, RetainedIndex.visit_subtree]
    simp only [List.mem_map, exists_exists_and_eq_and, Option.mem_toList]
  good f hf g hg := by
    obtain ⟨c, hc, rfl⟩ := List.mem_map.mp hg
    exact sound_open hf hc
  size f := by
    have hcount := f.1.count_open f.2
    rw [RetainedIndex.visit_subtree, List.map_map]
    exact hcount
  here f _ := by
    unfold RetainedIndex.visit_subtree
    cases f.1.terminal <;> simp
  below f hf t ht g hg := by
    rintro ⟨path, hpath, -⟩
    obtain ⟨c, hc, rfl⟩ := List.mem_map.mp hg
    have hhere : f.1.terminal = some t := by simpa [RetainedIndex.visit_subtree] using ht
    have hthere : ends f.1 (c.1 :: path) = some t := by
      rw [Trie.ends_child ((mem_open hf f.2 c.1 c.2).mp hc).1]
      exact hpath
    cases hf.once [] _ t hhere hthere
  apart f hf := by
    rw [RetainedIndex.visit_subtree, List.pairwise_map]
    apply apart_open hf f.2 (fun c => InSubtree (c, false))
    rintro c t ⟨path, hpath, -⟩
    exact ⟨path, hpath⟩

/-- The loop below a `#` finds the topics of the subtree, each once. -/
theorem walk_subtree (h : Sound n) (at_root : Bool) :
    (StackWalk.walk RetainedIndex.visit_subtree n.node_count [(n, at_root)]).Nodup ∧
      ∀ t, t ∈ StackWalk.walk RetainedIndex.visit_subtree n.node_count [(n, at_root)] ↔
        InSubtree (n, at_root) t := by
  have hturns : ([(n, at_root)].map (fun f : RetainedNode × Bool => f.1.node_count)).sum ≤
      n.node_count := by simp
  have hgood : ∀ f ∈ [(n, at_root)], Sound f.1 := by simpa using h
  refine ⟨StackWalk.nodup_walk visits_subtree _ _ hturns hgood (by simp), fun t => ?_⟩
  rw [StackWalk.mem_walk visits_subtree _ _ hturns hgood]
  simp

/-- What the walk is to find from a frame on: the topics below it that the rest of the filter
selects. -/
def Selected (levels : List String) (f : RetainedIndex.Frame) (t : TopicKey) : Prop :=
  ∃ path, ends f.1 path = some t ∧ level_matches (levels.drop f.2.1) path = true ∧
    ¬ (f.2.2 = true ∧ wildFirst (levels.drop f.2.1) = true ∧ dollarFirst path = true)

theorem selected_hash {levels : List String} {depth : Nat} (hlevel : levels[depth]? = some "#")
    (at_root : Bool) (t : TopicKey) :
    Selected levels (n, depth, at_root) t ↔ InSubtree (n, at_root) t := by
  obtain ⟨hlt, hget⟩ := List.getElem?_eq_some_iff.mp hlevel
  have hall : ∀ rest path, level_matches ("#" :: rest) path = true := by
    intro rest path
    cases path <;> simp [level_matches]
  unfold Selected InSubtree
  rw [List.drop_eq_getElem_cons hlt, hget]
  simp [hall, wildFirst]

theorem selected_plus {levels : List String} (h : Sound n) {depth : Nat}
    (hlevel : levels[depth]? = some "+") (at_root : Bool) (t : TopicKey) :
    Selected levels (n, depth, at_root) t ↔
      ∃ c ∈ n.open_children at_root, Selected levels (c.2, depth + 1, false) t := by
  obtain ⟨hlt, hget⟩ := List.getElem?_eq_some_iff.mp hlevel
  unfold Selected
  rw [List.drop_eq_getElem_cons hlt, hget]
  constructor
  · rintro ⟨path, hpath, hmatch, hskip⟩
    cases path with
    | nil => simp [level_matches] at hmatch
    | cons level rest =>
      rw [Trie.ends_cons] at hpath
      obtain ⟨c, hc, hrest⟩ := Option.bind_eq_some_iff.mp hpath
      refine ⟨(level, c), (mem_open h at_root level c).mpr ⟨hc, ?_⟩, rest, hrest, ?_, by simp⟩
      · simpa [wildFirst, dollarFirst] using hskip
      · simpa [level_matches] using hmatch
  · rintro ⟨⟨level, c⟩, hc, path, hpath, hmatch, -⟩
    obtain ⟨hchild, hskip⟩ := (mem_open h at_root level c).mp hc
    refine ⟨level :: path, by rw [Trie.ends_child hchild, hpath], ?_, ?_⟩
    · simpa [level_matches] using hmatch
    · simpa [wildFirst, dollarFirst] using hskip

theorem selected_literal {levels : List String} {depth : Nat} {level : String}
    (hlevel : levels[depth]? = some level) (hhash : level ≠ "#") (hplus : level ≠ "+")
    (at_root : Bool) (t : TopicKey) :
    Selected levels (n, depth, at_root) t ↔
      ∃ c, n.child level = some c ∧ Selected levels (c, depth + 1, false) t := by
  obtain ⟨hlt, hget⟩ := List.getElem?_eq_some_iff.mp hlevel
  unfold Selected
  rw [List.drop_eq_getElem_cons hlt, hget]
  constructor
  · rintro ⟨path, hpath, hmatch, -⟩
    cases path with
    | nil => simp [level_matches, hhash] at hmatch
    | cons first rest =>
      have hboth : level = first ∧ level_matches (levels.drop (depth + 1)) rest = true := by
        simpa [level_matches, hhash, hplus] using hmatch
      obtain ⟨rfl, hrestMatch⟩ := hboth
      rw [Trie.ends_cons] at hpath
      obtain ⟨c, hc, hrest⟩ := Option.bind_eq_some_iff.mp hpath
      exact ⟨c, hc, rest, hrest, hrestMatch, by simp⟩
  · rintro ⟨c, hc, path, hpath, hmatch, -⟩
    refine ⟨level :: path, by rw [Trie.ends_child hc, hpath], ?_, ?_⟩
    · simpa [level_matches, hhash] using hmatch
    · simp [wildFirst, hhash, hplus]

theorem selected_end {levels : List String} {depth : Nat} (hlevel : levels[depth]? = none)
    (at_root : Bool) (t : TopicKey) :
    Selected levels (n, depth, at_root) t ↔ n.terminal = some t := by
  unfold Selected
  rw [List.drop_eq_nil_of_le (List.getElem?_eq_none_iff.mp hlevel)]
  constructor
  · rintro ⟨path, hpath, hmatch, -⟩
    cases path with
    | nil => exact hpath
    | cons level rest => simp [level_matches] at hmatch
  · intro ht
    exact ⟨[], ht, by simp [level_matches], by simp [wildFirst]⟩

/-! What one turn does, by the level of the filter that it is at. -/

section

variable {levels : List String} {depth : Nat} {level : String}

theorem level_cases (levels : List String) (depth : Nat) :
    levels[depth]? = none ∨ levels[depth]? = some "#" ∨ levels[depth]? = some "+" ∨
      ∃ level, levels[depth]? = some level ∧ level ≠ "#" ∧ level ≠ "+" := by
  rcases h : levels[depth]? with _ | level
  · exact Or.inl rfl
  · by_cases hhash : level = "#"
    · simp [hhash]
    · by_cases hplus : level = "+"
      · simp [hplus]
      · exact Or.inr (Or.inr (Or.inr ⟨level, rfl, hhash, hplus⟩))

theorem visit_end (h : levels[depth]? = none) (n : RetainedNode) (at_root : Bool) :
    RetainedIndex.visit levels (n, depth, at_root) = (n.terminal.toList, []) := by
  simp [RetainedIndex.visit, h]

theorem visit_hash (h : levels[depth]? = some "#") (n : RetainedNode) (at_root : Bool) :
    RetainedIndex.visit levels (n, depth, at_root) =
      (StackWalk.walk RetainedIndex.visit_subtree n.node_count [(n, at_root)], []) := by
  simp [RetainedIndex.visit, h]

theorem visit_plus (h : levels[depth]? = some "+") (n : RetainedNode) (at_root : Bool) :
    RetainedIndex.visit levels (n, depth, at_root) =
      ([], (n.open_children at_root).map (fun c => (c.2, depth + 1, false))) := by
  simp [RetainedIndex.visit, h]

theorem visit_literal (h : levels[depth]? = some level) (hhash : level ≠ "#")
    (hplus : level ≠ "+") (n : RetainedNode) (at_root : Bool) :
    RetainedIndex.visit levels (n, depth, at_root) =
      ([], (n.child level).toList.map (fun c => (c, depth + 1, false))) := by
  simp [RetainedIndex.visit, h, hhash, hplus]

end

theorem visits_filter (levels : List String) : StackWalk.Visits (RetainedIndex.visit levels)
    (fun f => Sound f.1) (Selected levels) (fun f => f.1.node_count) where
  finds f hf t := by
    obtain ⟨n, depth, at_root⟩ := f
    rcases level_cases levels depth with h | h | h | ⟨level, h, hhash, hplus⟩
    · rw [selected_end h, visit_end h]
      simp
    · rw [selected_hash h, visit_hash h, ← (walk_subtree hf at_root).2 t]
      simp
    · rw [selected_plus hf h, visit_plus h]
      simp only [List.mem_map, exists_exists_and_eq_and, List.not_mem_nil, false_or]
    · rw [selected_literal h hhash hplus, visit_literal h hhash hplus]
      simp
  good f hf g hg := by
    obtain ⟨n, depth, at_root⟩ := f
    rcases level_cases levels depth with h | h | h | ⟨level, h, hhash, hplus⟩
    · rw [visit_end h] at hg
      cases hg
    · rw [visit_hash h] at hg
      cases hg
    · rw [visit_plus h] at hg
      obtain ⟨c, hc, rfl⟩ := List.mem_map.mp hg
      exact sound_open hf hc
    · rw [visit_literal h hhash hplus] at hg
      obtain ⟨c, hc, rfl⟩ := List.mem_map.mp hg
      exact hf.child (Option.mem_toList.mp hc)
  size f := by
    obtain ⟨n, depth, at_root⟩ := f
    have hopen := n.count_open at_root
    have hpos : 1 ≤ n.node_count := by omega
    rcases level_cases levels depth with h | h | h | ⟨level, h, hhash, hplus⟩
    · simpa [visit_end h] using hpos
    · simpa [visit_hash h] using hpos
    · rw [visit_plus h, List.map_map]
      exact hopen
    · rw [visit_literal h hhash hplus]
      rcases hc : n.child level with _ | c
      · simpa using hpos
      · simpa using count_child hc
  here f hf := by
    obtain ⟨n, depth, at_root⟩ := f
    rcases level_cases levels depth with h | h | h | ⟨level, h, hhash, hplus⟩
    · rw [visit_end h]
      cases n.terminal <;> simp
    · rw [visit_hash h]
      exact (walk_subtree hf at_root).1
    · rw [visit_plus h]
      exact List.nodup_nil
    · rw [visit_literal h hhash hplus]
      exact List.nodup_nil
  below f _ t ht g hg := by
    -- A turn either finds something or pushes something.
    obtain ⟨n, depth, at_root⟩ := f
    rcases level_cases levels depth with h | h | h | ⟨level, h, hhash, hplus⟩
    · rw [visit_end h] at hg
      cases hg
    · rw [visit_hash h] at hg
      cases hg
    · rw [visit_plus h] at ht
      cases ht
    · rw [visit_literal h hhash hplus] at ht
      cases ht
  apart f hf := by
    obtain ⟨n, depth, at_root⟩ := f
    rcases level_cases levels depth with h | h | h | ⟨level, h, hhash, hplus⟩
    · rw [visit_end h]
      exact List.Pairwise.nil
    · rw [visit_hash h]
      exact List.Pairwise.nil
    · rw [visit_plus h, List.pairwise_map]
      apply apart_open hf at_root (fun c => Selected levels (c, depth + 1, false))
      rintro c t ⟨path, hpath, -⟩
      exact ⟨path, hpath⟩
    · rw [visit_literal h hhash hplus]
      cases n.child level <;> simp

end mqtt_storage
