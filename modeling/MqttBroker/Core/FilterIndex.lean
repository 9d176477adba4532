-- The match index over topic filters (`filter_index.rs`): a trie with one node
-- for each level of a filter. The walk over a topic meets the filters that
-- match it, and a removal cuts the chain of nodes that it leaves empty.
import Mathlib.Algebra.GroupWithZero.Nat
import MqttBroker.Lib.AssocList
import MqttBroker.Lib.Trie
import MqttBroker.Core.Topic

namespace mqtt_core.filter_index

/-! ## The trie -/

/-- One level of the index. The children under a wildcard are fields of their own. -/
inductive TrieNode where
  | mk (children : List (String × TrieNode)) (plus hash : Option TrieNode)
    (terminal : Option FilterKey)

namespace TrieNode

def children : TrieNode → List (String × TrieNode)
  | mk c _ _ _ => c

def plus : TrieNode → Option TrieNode
  | mk _ p _ _ => p

def hash : TrieNode → Option TrieNode
  | mk _ _ h _ => h

def terminal : TrieNode → Option FilterKey
  | mk _ _ _ t => t

/-- A node with nothing below it, as `default`. -/
def empty : TrieNode := mk [] none none none

def literal (n : TrieNode) (level : String) : Option TrieNode := n.children.lookup level

def child (n : TrieNode) (level : String) : Option TrieNode :=
  if level = "+" then n.plus else if level = "#" then n.hash else n.literal level

/-- Puts a node where `child_mut` and `child_or_insert` give their reference. -/
def set_child (n : TrieNode) (level : String) (c : TrieNode) : TrieNode :=
  if level = "+" then mk n.children (some c) n.hash n.terminal
  else if level = "#" then mk n.children n.plus (some c) n.terminal
  else mk (AssocList.put level c n.children) n.plus n.hash n.terminal

def remove_child (n : TrieNode) (level : String) : TrieNode :=
  if level = "+" then mk n.children none n.hash n.terminal
  else if level = "#" then mk n.children n.plus none n.terminal
  else mk (AssocList.drop level n.children) n.plus n.hash n.terminal

def set_terminal (n : TrieNode) (t : Option FilterKey) : TrieNode :=
  mk n.children n.plus n.hash t

def child_count (n : TrieNode) : Nat :=
  n.children.length + n.plus.isSome.toNat + n.hash.isSome.toNat

def has_children (n : TrieNode) : Bool := decide (0 < n.child_count)

end TrieNode

open TrieNode

/-- The walk down the levels of a filter, with a node made where there is none. -/
def insert_at (n : TrieNode) (filter : FilterKey) : List String → TrieNode
  | [] => n.set_terminal (some filter)
  | level :: rest => n.set_child level (insert_at ((n.child level).getD empty) filter rest)

def trie_insert (root : TrieNode) (filter : FilterKey) : TrieNode :=
  insert_at root filter (split filter)

/-- The first pass of a removal: the leaf of the path and the deepest node on it that has a
terminal or a second child. Nothing when the path leaves the trie. -/
def find_cut (n : TrieNode) (depth cut : Nat) : List String → Option (Nat × TrieNode)
  | [] => some (cut, n)
  | level :: rest =>
    match n.child level with
    | none => none
    | some c =>
      let cut := if depth = 0 || n.terminal.isSome || decide (1 < n.child_count) then depth
        else cut
      find_cut c (depth + 1) cut rest

/-- Changes the node at the end of a path that was verified to exist. -/
def modify_at (n : TrieNode) (f : TrieNode → TrieNode) : List String → TrieNode
  | [] => f n
  | level :: rest =>
    match n.child level with
    | none => n
    | some c => n.set_child level (modify_at c f rest)

/-- The second pass: clears the terminal of a leaf that stays, else cuts the dead chain off. -/
def detach (n : TrieNode) (levels : List String) (cut : Nat) : TrieNode :=
  if cut = levels.length then modify_at n (fun leaf => leaf.set_terminal none) levels
  else modify_at n (fun last => last.remove_child (levels.getD cut "")) (levels.take cut)

def trie_remove (root : TrieNode) (filter : String) : TrieNode :=
  let levels := split filter
  match find_cut root 0 0 levels with
  | none => root
  | some (cut, leaf) => detach root levels (if leaf.has_children then levels.length else cut)

structure FilterIndex where
  root : TrieNode := empty

namespace FilterIndex

def insert (index : FilterIndex) (filter : FilterKey) : FilterIndex :=
  { root := trie_insert index.root filter }

def remove (index : FilterIndex) (filter : String) : FilterIndex :=
  { root := trie_remove index.root filter }

def is_empty (index : FilterIndex) : Bool :=
  !index.root.has_children && index.root.terminal.isNone

/-- A node on the stack of the walk: the index of its level in the topic, and whether its
wildcards are skipped. -/
abbrev Frame := TrieNode × Nat × Bool

/-- What the walk does at one node: the filters that it calls back with, and the nodes that it
pushes, the one to be met first in front. -/
def visit (levels : List String) (f : Frame) : List FilterKey × List Frame :=
  let (node, i, skip_wildcards) := f
  let here := if skip_wildcards then [] else (node.hash.bind terminal).toList
  match levels[i]? with
  | none => (here ++ node.terminal.toList, [])
  | some level =>
    let below := if skip_wildcards then [] else node.plus.toList.map (fun p => (p, i + 1, false))
    (here, (node.literal level).toList.map (fun c => (c, i + 1, false)) ++ below)

/-- The loop over the stack, for as many turns as are given. -/
def walk (levels : List String) : Nat → List Frame → List FilterKey
  | 0, _ => []
  | _ + 1, [] => []
  | turns + 1, f :: stack =>
    (visit levels f).1 ++ walk levels turns ((visit levels f).2 ++ stack)

/-- Every registered filter that matches a topic, in the order of the callbacks. A node has two
successors at most, so the loop ends within the turns it is given. -/
def for_each_matching (index : FilterIndex) (topic : String) : List FilterKey :=
  if index.is_empty then []
  else
    let levels := split topic
    walk levels (2 ^ (levels.length + 1)) [(index.root, 0, topic.toList.head? == some '$')]

end FilterIndex

/-! ## One node -/

namespace TrieNode

theorem child_set_child (n c : TrieNode) (level k : String) :
    (n.set_child level c).child k = if k = level then some c else n.child k := by
  unfold set_child child literal
  by_cases hp : level = "+"
  · subst hp
    by_cases hk : k = "+"
    · simp [hk, plus]
    · simp [hk, hash, children]
  · by_cases hh : level = "#"
    · subst hh
      by_cases hk : k = "+"
      · simp [hk, plus]
      · by_cases hk' : k = "#"
        · simp [hk', hash]
        · simp [hk, hk', children]
    · by_cases hk : k = level
      · subst hk
        simp [hp, hh, children, AssocList.lookup_put]
      · simp [hp, hh, hk, plus, hash, children, AssocList.lookup_put]

theorem child_remove_child (n : TrieNode) (level k : String) :
    (n.remove_child level).child k = if k = level then none else n.child k := by
  unfold remove_child child literal
  by_cases hp : level = "+"
  · subst hp
    by_cases hk : k = "+"
    · simp [hk, plus]
    · simp [hk, hash, children]
  · by_cases hh : level = "#"
    · subst hh
      by_cases hk : k = "+"
      · simp [hk, plus]
      · by_cases hk' : k = "#"
        · simp [hk', hash]
        · simp [hk, hk', children]
    · by_cases hk : k = level
      · subst hk
        simp [hp, hh, children, AssocList.lookup_drop]
      · simp [hp, hh, hk, plus, hash, children, AssocList.lookup_drop]

@[simp] theorem terminal_set_child (n c : TrieNode) (level : String) :
    (n.set_child level c).terminal = n.terminal := by
  unfold set_child
  split
  · rfl
  · split <;> rfl

@[simp] theorem terminal_remove_child (n : TrieNode) (level : String) :
    (n.remove_child level).terminal = n.terminal := by
  unfold remove_child
  split
  · rfl
  · split <;> rfl

/-- The literal children are a map, and no wildcard is among its keys. -/
structure Proper (n : TrieNode) : Prop where
  distinct : AssocList.Distinct n.children
  literal : ∀ c ∈ n.children, c.1 ≠ "+" ∧ c.1 ≠ "#"

variable {n : TrieNode}

theorem proper_set_child (h : Proper n) (level : String) (c : TrieNode) :
    Proper (n.set_child level c) := by
  unfold set_child
  split
  · exact ⟨h.distinct, h.literal⟩
  · rename_i hplus
    split
    · exact ⟨h.distinct, h.literal⟩
    · rename_i hhash
      refine ⟨AssocList.distinct_put h.distinct level c, ?_⟩
      intro p hp
      rcases List.mem_cons.mp hp with rfl | hp
      · exact ⟨hplus, hhash⟩
      · exact h.literal p (List.mem_of_mem_filter hp)

theorem proper_remove_child (h : Proper n) (level : String) : Proper (n.remove_child level) := by
  unfold remove_child
  split
  · exact ⟨h.distinct, h.literal⟩
  · split
    · exact ⟨h.distinct, h.literal⟩
    · exact ⟨AssocList.distinct_drop h.distinct level,
        fun p hp => h.literal p (List.mem_of_mem_filter hp)⟩

theorem proper_set_terminal (h : Proper n) (t : Option FilterKey) :
    Proper (n.set_terminal t) := ⟨h.distinct, h.literal⟩

theorem proper_empty : Proper empty := by
  refine ⟨List.nodup_nil, ?_⟩
  intro c hc
  cases hc

variable {level : String} {c : TrieNode}

theorem child_count_remove (h : Proper n) (hc : n.child level = some c) :
    n.child_count = (n.remove_child level).child_count + 1 := by
  obtain ⟨cs, p, q, t⟩ := n
  unfold child at hc
  unfold remove_child child_count
  by_cases hp : level = "+"
  · rw [if_pos hp] at hc ⊢
    simp only [plus] at hc
    subst hc
    simp only [children, plus, hash, Option.isSome_some, Option.isSome_none, Bool.toNat_true,
      Bool.toNat_false]
    omega
  · by_cases hh : level = "#"
    · rw [if_neg hp, if_pos hh] at hc ⊢
      simp only [hash] at hc
      subst hc
      simp only [children, plus, hash, Option.isSome_some, Option.isSome_none, Bool.toNat_true,
        Bool.toNat_false]
    · rw [if_neg hp, if_neg hh] at hc ⊢
      have hlen := AssocList.length_drop h.distinct hc
      simp only [children, plus, hash] at hlen ⊢
      omega

theorem has_children_of_child (hc : n.child level = some c) : n.has_children = true := by
  obtain ⟨cs, p, q, t⟩ := n
  unfold child literal at hc
  unfold has_children child_count
  rw [decide_eq_true_iff]
  simp only [plus, hash, children] at hc ⊢
  split at hc
  · rw [hc]
    simp
  · split at hc
    · rw [hc]
      simp
    · rcases cs with _ | ⟨first, cs⟩
      · cases hc
      · simp only [List.length_cons]
        omega

theorem child_of_has_children (h : Proper n) (hn : n.has_children = true) :
    ∃ level c, n.child level = some c := by
  obtain ⟨cs, p, q, t⟩ := n
  rcases cs with _ | ⟨⟨level, c⟩, cs⟩
  · rcases p with _ | c
    · rcases q with _ | c
      · cases hn
      · exact ⟨"#", c, rfl⟩
    · exact ⟨"+", c, rfl⟩
  · obtain ⟨hp, hh⟩ := h.literal (level, c) List.mem_cons_self
    refine ⟨level, c, ?_⟩
    unfold child literal
    rw [if_neg hp, if_neg hh]
    exact List.lookup_cons_self

theorem sizeOf_child (hc : n.child level = some c) : sizeOf c < sizeOf n := by
  obtain ⟨cs, p, q, t⟩ := n
  unfold child literal at hc
  simp only [plus, hash, children] at hc
  split at hc
  · subst hc
    simp only [mk.sizeOf_spec, Option.some.sizeOf_spec]
    omega
  · split at hc
    · subst hc
      simp only [mk.sizeOf_spec, Option.some.sizeOf_spec]
      omega
    · obtain ⟨before, after, hcs, -⟩ := List.lookup_eq_some_iff.mp hc
      have hmem : (level, c) ∈ cs := by simp [hcs]
      have hsize := List.sizeOf_lt_of_mem hmem
      simp only [mk.sizeOf_spec, Prod.mk.sizeOf_spec] at hsize ⊢
      omega

/-- Something ends at the node or goes on below it. -/
def Alive (n : TrieNode) : Prop := n.terminal.isSome = true ∨ n.has_children = true

/-! ## Paths -/

def descend (n : TrieNode) : List String → Option TrieNode
  | [] => some n
  | level :: rest => (n.child level).bind (fun c => descend c rest)

def ends (n : TrieNode) (path : List String) : Option FilterKey :=
  (n.descend path).bind terminal

theorem descend_cons (n : TrieNode) (level : String) (rest : List String) :
    n.descend (level :: rest) = (n.child level).bind (fun c => c.descend rest) := rfl

theorem ends_nil (n : TrieNode) : n.ends [] = n.terminal := rfl

theorem ends_cons (n : TrieNode) (level : String) (rest : List String) :
    n.ends (level :: rest) = (n.child level).bind (fun c => c.ends rest) := by
  unfold ends
  rw [descend_cons]
  cases n.child level <;> rfl

theorem descend_append (n : TrieNode) (path rest : List String) :
    n.descend (path ++ rest) = (n.descend path).bind (fun m => m.descend rest) := by
  induction path generalizing n with
  | nil => rfl
  | cons level path ih =>
    rw [List.cons_append, descend_cons, descend_cons]
    cases n.child level with
    | none => rfl
    | some c => exact ih c

theorem ends_append (n : TrieNode) (path rest : List String) :
    n.ends (path ++ rest) = (n.descend path).bind (fun m => m.ends rest) := by
  unfold ends
  rw [descend_append]
  cases n.descend path <;> rfl

/-- Every node of the trie is a proper one, and below the root an alive one. -/
def Tidy (n : TrieNode) : Prop :=
  ∀ path m, n.descend path = some m → Proper m ∧ (path ≠ [] → Alive m)

/-! ## The trie as one of the library -/

instance : Trie.Node TrieNode String FilterKey where
  empty := empty
  child := child
  setChild := set_child
  removeChild := remove_child
  terminal := terminal
  setTerminal := set_terminal
  childCount := child_count
  Proper := Proper

instance : Trie.LawfulNode TrieNode String FilterKey where
  child_setChild := child_set_child
  child_removeChild := child_remove_child
  child_setTerminal _ _ _ := rfl
  child_empty k := by
    show empty.child k = none
    simp [child, literal, empty, plus, hash, children]
  terminal_setChild := terminal_set_child
  terminal_removeChild := terminal_remove_child
  terminal_setTerminal _ _ := rfl
  terminal_empty := rfl
  count_setTerminal _ _ := rfl
  count_removeChild _ _ _ h hc := child_count_remove h hc
  count_pos _ _ _ hc := of_decide_eq_true (has_children_of_child hc)
  child_of_count _ h hn := child_of_has_children h (decide_eq_true hn)
  proper_setChild _ c key h := proper_set_child h key c
  proper_removeChild _ key h := proper_remove_child h key
  proper_setTerminal _ t h := proper_set_terminal h t
  proper_empty := proper_empty
  child_wf := by
    refine Subrelation.wf ?_ (measure (fun n : TrieNode => sizeOf n)).wf
    rintro c n ⟨key, hc⟩
    exact sizeOf_child hc

theorem descend_eq (n : TrieNode) (path : List String) : n.descend path = Trie.descend n path := by
  induction path generalizing n with
  | nil => rfl
  | cons level rest ih =>
    rw [descend_cons, Trie.descend_cons]
    exact congrArg _ (funext ih)

theorem ends_eq (n : TrieNode) (path : List String) : n.ends path = Trie.ends n path := by
  unfold ends Trie.ends
  rw [descend_eq]
  rfl

theorem alive_iff (n : TrieNode) : Alive n ↔ Trie.Alive n := by
  unfold Alive has_children
  rw [decide_eq_true_iff]
  rfl

theorem tidy_eq (n : TrieNode) : Tidy n ↔ Trie.Tidy n := by
  unfold Tidy Trie.Tidy
  simp only [descend_eq, alive_iff]
  rfl

theorem Tidy.descend {m : TrieNode} (h : Tidy n) {path : List String}
    (hm : n.descend path = some m) : Tidy m := by
  rw [descend_eq] at hm
  exact (tidy_eq m).mpr (((tidy_eq n).mp h).descend hm)

theorem Tidy.ends_below (h : Tidy n) (halive : Alive n) : ∃ path f, n.ends path = some f := by
  obtain ⟨path, f, hf⟩ := ((tidy_eq n).mp h).ends_below ((alive_iff n).mp halive)
  exact ⟨path, f, by rw [ends_eq, hf]⟩

end TrieNode

theorem insert_at_eq (n : TrieNode) (filter : FilterKey) (levels : List String) :
    insert_at n filter levels = Trie.insertAt n filter levels := by
  induction levels generalizing n with
  | nil => rfl
  | cons level rest ih =>
    rw [insert_at, Trie.insertAt, ih]
    rfl

theorem modify_at_eq (n : TrieNode) (f : TrieNode → TrieNode) (levels : List String) :
    modify_at n f levels = Trie.modifyAt n f levels := by
  induction levels generalizing n with
  | nil => rfl
  | cons level rest ih =>
    have hchild : Trie.Node.child n level = n.child level := rfl
    rw [modify_at, Trie.modifyAt, hchild]
    cases n.child level with
    | none => rfl
    | some c =>
      dsimp only
      rw [ih]
      rfl

theorem find_cut_eq (n : TrieNode) (depth cut : Nat) (levels : List String) :
    find_cut n depth cut levels = Trie.findCut n depth cut levels := by
  induction levels generalizing n depth cut with
  | nil => rfl
  | cons level rest ih =>
    have hchild : Trie.Node.child n level = n.child level := rfl
    rw [find_cut, Trie.findCut, hchild]
    cases n.child level with
    | none => rfl
    | some c => exact ih c _ _

variable {n : TrieNode} {levels : List String}

theorem find_cut_lt {leaf : TrieNode} {depth cut found : Nat}
    (h : find_cut n depth cut levels = some (found, leaf)) :
    found = cut ∨ found < depth + levels.length := by
  induction levels generalizing n depth cut with
  | nil =>
    cases h
    exact Or.inl rfl
  | cons level rest ih =>
    rw [find_cut] at h
    split at h
    · cases h
    · have hrest := ih h
      rw [List.length_cons]
      split at hrest <;> omega

theorem detach_eq (n : TrieNode) {cut : Nat} (h : cut ≤ levels.length) :
    detach n levels cut = Trie.detach n levels cut := by
  unfold detach Trie.detach
  by_cases hcut : cut = levels.length
  · rw [if_pos hcut, hcut, List.getElem?_eq_none (Nat.le_refl _)]
    exact modify_at_eq n _ levels
  · have hlt : cut < levels.length := by omega
    rw [if_neg hcut, List.getD_eq_getElem?_getD, List.getElem?_eq_getElem hlt]
    exact modify_at_eq n _ _

theorem trie_remove_eq (root : TrieNode) (filter : String) :
    trie_remove root filter = Trie.remove root (split filter) := by
  unfold trie_remove Trie.remove
  dsimp only
  rw [← find_cut_eq]
  rcases hf : find_cut root 0 0 (split filter) with _ | ⟨cut, leaf⟩
  · rfl
  · have hcut := find_cut_lt hf
    have hchildren : (leaf.has_children = true) ↔ 0 < Trie.Node.childCount leaf :=
      decide_eq_true_iff
    dsimp only
    simp only [hchildren]
    apply detach_eq
    split <;> omega

/-! ## What the index holds -/

/-- The index is tidy and holds the filters of a set, each at its own path. -/
structure FilterIndex.Holds (index : FilterIndex) (filters : FilterKey → Prop) : Prop where
  tidy : Tidy index.root
  ends_iff : ∀ path f, index.root.ends path = some f ↔ filters f ∧ split f = path

theorem FilterIndex.holds_iff (index : FilterIndex) (filters : FilterKey → Prop) :
    index.Holds filters ↔ Trie.Holds index.root split filters := by
  constructor
  · intro h
    exact ⟨(tidy_eq _).mp h.tidy, fun path f => by rw [← ends_eq, h.ends_iff]⟩
  · intro h
    exact ⟨(tidy_eq _).mpr h.tidy, fun path f => by rw [ends_eq, h.ends_iff]⟩

theorem FilterIndex.holds_empty : FilterIndex.Holds {} (fun _ => False) :=
  (FilterIndex.holds_iff _ _).mpr Trie.holds_empty

variable {index : FilterIndex} {filters : FilterKey → Prop}

theorem FilterIndex.holds_insert (h : index.Holds filters) (filter : FilterKey) :
    (index.insert filter).Holds (fun f => f = filter ∨ filters f) := by
  rw [FilterIndex.holds_iff] at h ⊢
  unfold insert trie_insert
  rw [insert_at_eq]
  exact h.insert split_injective filter

theorem FilterIndex.holds_remove (h : index.Holds filters) (filter : FilterKey) :
    (index.remove filter).Holds (fun f => f ≠ filter ∧ filters f) := by
  rw [FilterIndex.holds_iff] at h ⊢
  unfold remove
  rw [trie_remove_eq]
  exact h.remove split_injective (split_ne_nil filter)

theorem FilterIndex.Holds.congr {filters' : FilterKey → Prop} (h : index.Holds filters)
    (heq : ∀ f, filters f ↔ filters' f) : index.Holds filters' :=
  ⟨h.tidy, fun path f => by rw [h.ends_iff, heq]⟩

/-! ## The walk over a topic -/

/-- The filters that the walk meets at a node and below it, for the levels that are left. -/
def found (n : TrieNode) (skip : Bool) : List String → List FilterKey
  | [] => (if skip then [] else (n.hash.bind terminal).toList) ++ n.terminal.toList
  | level :: rest =>
    (if skip then [] else (n.hash.bind terminal).toList) ++
      ((n.literal level).toList.flatMap (fun c => found c false rest) ++
        if skip then [] else n.plus.toList.flatMap (fun p => found p false rest))

/-- How many turns the walk takes at most for a frame. -/
def turnsOf (levels : List String) (f : FilterIndex.Frame) : Nat :=
  2 ^ (levels.length - f.2.1 + 1) - 1

theorem visit_found (levels : List String) (f : FilterIndex.Frame) :
    found f.1 f.2.2 (levels.drop f.2.1) =
      (FilterIndex.visit levels f).1 ++ (FilterIndex.visit levels f).2.flatMap
        (fun g => found g.1 g.2.2 (levels.drop g.2.1)) := by
  obtain ⟨n, i, skip⟩ := f
  unfold FilterIndex.visit
  dsimp only
  rcases hi : levels[i]? with _ | level
  · rw [List.getElem?_eq_none_iff] at hi
    rw [List.drop_eq_nil_of_le hi, found]
    simp
  · obtain ⟨hlt, hget⟩ := List.getElem?_eq_some_iff.mp hi
    rw [List.drop_eq_getElem_cons hlt, found, hget]
    cases skip <;> simp [List.flatMap_append, List.flatMap_map]

theorem sum_turns_le (levels : List String) (n : Option TrieNode) (i : Nat) :
    ((n.toList.map (fun c => ((c, i, false) : FilterIndex.Frame))).map (turnsOf levels)).sum ≤
      2 ^ (levels.length - i + 1) - 1 := by
  cases n with
  | none => simp
  | some c => simp [turnsOf]

theorem visit_turns (levels : List String) (f : FilterIndex.Frame) :
    ((FilterIndex.visit levels f).2.map (turnsOf levels)).sum + 1 ≤ turnsOf levels f := by
  obtain ⟨n, i, skip⟩ := f
  unfold FilterIndex.visit
  dsimp only
  rcases hi : levels[i]? with _ | level
  · have hpos : 1 ≤ 2 ^ (levels.length - i) := Nat.one_le_two_pow
    simp only [turnsOf, List.map_nil, List.sum_nil, Nat.pow_succ]
    omega
  · obtain ⟨hlt, -⟩ := List.getElem?_eq_some_iff.mp hi
    have hstep : levels.length - i = levels.length - (i + 1) + 1 := by omega
    have hpos : 1 ≤ 2 ^ (levels.length - (i + 1) + 1) := Nat.one_le_two_pow
    have h1 := sum_turns_le levels (n.literal level) (i + 1)
    have h2 := sum_turns_le levels n.plus (i + 1)
    simp only [List.map_append, List.sum_append]
    unfold turnsOf at h1 h2 ⊢
    dsimp only
    rw [hstep, Nat.pow_succ _ (levels.length - (i + 1) + 1)]
    cases skip
    · simp only [Bool.false_eq_true, if_false]
      omega
    · simp only [if_true, List.map_nil, List.sum_nil]
      omega

theorem walk_eq (levels : List String) (turns : Nat) (stack : List FilterIndex.Frame)
    (h : (stack.map (turnsOf levels)).sum ≤ turns) :
    FilterIndex.walk levels turns stack =
      stack.flatMap (fun f => found f.1 f.2.2 (levels.drop f.2.1)) := by
  induction turns generalizing stack with
  | zero =>
    cases stack with
    | nil => rfl
    | cons f stack =>
      have hf := visit_turns levels f
      rw [List.map_cons, List.sum_cons] at h
      omega
  | succ turns ih =>
    cases stack with
    | nil => rfl
    | cons f stack =>
      have hf := visit_turns levels f
      rw [List.map_cons, List.sum_cons] at h
      rw [FilterIndex.walk, ih, List.flatMap_cons, visit_found, List.flatMap_append,
        List.append_assoc]
      rw [List.map_append, List.sum_append]
      omega

theorem found_of_is_empty (h : index.is_empty = true) (skip : Bool) (levels : List String) :
    found index.root skip levels = [] := by
  obtain ⟨cs, p, q, t⟩ := index
  unfold FilterIndex.is_empty has_children child_count at h
  rw [Bool.and_eq_true, Bool.not_eq_true', decide_eq_false_iff_not] at h
  simp only [children, plus, TrieNode.hash, terminal] at h
  obtain ⟨hcount, ht⟩ := h
  have hcs : cs = [] := List.length_eq_zero_iff.mp (by omega)
  have hp : p = none := by
    cases p with
    | none => rfl
    | some c => simp at hcount
  have hq : q = none := by
    cases q with
    | none => rfl
    | some c => simp at hcount
  rw [Option.isNone_iff_eq_none] at ht
  subst hcs hp hq ht
  cases levels with
  | nil => cases skip <;> rfl
  | cons level rest => cases skip <;> rfl

theorem for_each_matching_eq (index : FilterIndex) (topic : String) :
    index.for_each_matching topic =
      found index.root (topic.toList.head? == some '$') (split topic) := by
  unfold FilterIndex.for_each_matching
  split
  · rename_i h
    rw [found_of_is_empty h]
  · rw [walk_eq]
    · simp
    · simp only [List.map_cons, List.map_nil, List.sum_cons, List.sum_nil, turnsOf]
      exact Nat.sub_le ..

/-! ## The walk against linear matching -/

theorem hash_terminal (n : TrieNode) : n.hash.bind terminal = n.ends ["#"] := by
  rw [ends_cons]
  rfl

variable {level : String}

theorem literal_eq_child (n : TrieNode) (hp : level ≠ "+") (hh : level ≠ "#") :
    n.literal level = n.child level := by
  unfold child
  rw [if_neg hp, if_neg hh]

/-- Matching of the levels that are left, at a node whose wildcards may be skipped. -/
def Selects (skip : Bool) (path rest : List String) : Prop :=
  ¬ (skip = true ∧ wildFirst path = true) ∧ level_matches path rest = true

variable {c : TrieNode}

theorem ends_valid_child (hn : ∀ path f, n.ends path = some f → valid_levels path = true)
    (hc : n.child level = some c) : ∀ path f, c.ends path = some f → valid_levels path = true := by
  intro path f hf
  have hpath := hn (level :: path) f (by rw [ends_cons, hc]; exact hf)
  exact (valid_levels_cons hpath).1

variable {rest : List String} {f : FilterKey}

theorem hash_last (hn : ∀ path f, n.ends path = some f → valid_levels path = true)
    (hf : n.ends ("#" :: rest) = some f) : rest = [] :=
  ((valid_levels_cons (hn _ f hf)).2.1 (by decide)).2

theorem mem_found_child (o : Option TrieNode) (rest : List String) (f : FilterKey) :
    f ∈ o.toList.flatMap (fun c => found c false rest) ↔
      ∃ c, o = some c ∧ f ∈ found c false rest := by
  cases o <;> simp

theorem mem_here (n : TrieNode) (skip : Bool) (f : FilterKey) :
    f ∈ (if skip then [] else (n.hash.bind terminal).toList) ↔
      skip = false ∧ n.ends ["#"] = some f := by
  rw [hash_terminal]
  cases skip <;> simp

theorem mem_found (hn : ∀ path f, n.ends path = some f → valid_levels path = true) (skip : Bool)
    (hrest : ∀ l ∈ rest, l ≠ "+" ∧ l ≠ "#") (f : FilterKey) :
    f ∈ found n skip rest ↔ ∃ path, n.ends path = some f ∧ Selects skip path rest := by
  induction rest generalizing n skip with
  | nil =>
    rw [found, List.mem_append, mem_here]
    constructor
    · rintro (⟨rfl, hf⟩ | hf)
      · exact ⟨["#"], hf, by simp [Selects, level_matches]⟩
      · exact ⟨[], by rw [ends_nil]; simpa using hf, by simp [Selects, level_matches, wildFirst]⟩
    · rintro ⟨path, hf, hnot, hmatch⟩
      cases path with
      | nil =>
        rw [ends_nil] at hf
        exact Or.inr (by simpa using hf)
      | cons level path =>
        have hlevel : level = "#" := by simpa [level_matches] using hmatch
        subst hlevel
        have hpath := hash_last hn hf
        subst hpath
        refine Or.inl ⟨?_, hf⟩
        simpa [wildFirst] using hnot
  | cons level rest ih =>
    obtain ⟨hplus, hhash⟩ := hrest level List.mem_cons_self
    have hbelow : ∀ k c, n.child k = some c → (f ∈ found c false rest ↔
        ∃ path, c.ends path = some f ∧ level_matches path rest = true) := by
      intro k c hc
      rw [ih (ends_valid_child hn hc) false (fun l hl => hrest l (List.mem_cons_of_mem _ hl))]
      simp [Selects]
    rw [found, List.mem_append, List.mem_append, mem_here, literal_eq_child n hplus hhash,
      mem_found_child]
    constructor
    · rintro (⟨rfl, hf⟩ | ⟨c, hc, hf⟩ | hf)
      · exact ⟨["#"], hf, by simp [Selects, level_matches]⟩
      · obtain ⟨path, hpath, hmatch⟩ := (hbelow level c hc).mp hf
        refine ⟨level :: path, by rw [ends_cons, hc]; exact hpath, ?_, ?_⟩
        · simp [wildFirst, hplus, hhash]
        · simpa [level_matches, hhash] using hmatch
      · cases skip with
        | true => cases hf
        | false =>
          simp only [Bool.false_eq_true, if_false] at hf
          obtain ⟨c, hc, hf⟩ := (mem_found_child n.plus rest f).mp hf
          have hc' : n.child "+" = some c := hc
          obtain ⟨path, hpath, hmatch⟩ := (hbelow "+" c hc').mp hf
          refine ⟨"+" :: path, by rw [ends_cons, hc']; exact hpath, by simp, ?_⟩
          simpa [level_matches] using hmatch
    · rintro ⟨path, hf, hnot, hmatch⟩
      cases path with
      | nil => simp [level_matches] at hmatch
      | cons k path =>
        by_cases hk : k = "#"
        · subst hk
          have hpath := hash_last hn hf
          subst hpath
          refine Or.inl ⟨?_, hf⟩
          simpa [wildFirst] using hnot
        · rw [ends_cons] at hf
          rcases hc : n.child k with _ | c
          · rw [hc] at hf
            cases hf
          · rw [hc] at hf
            have hor : (k = "+" ∨ k = level) ∧ level_matches path rest = true := by
              simpa [level_matches, hk] using hmatch
            have hmem := (hbelow k c hc).mpr ⟨path, hf, hor.2⟩
            rcases hor.1 with rfl | rfl
            · have hskip : skip = false := by simpa [wildFirst] using hnot
              subst hskip
              exact Or.inr (Or.inr ((mem_found_child n.plus rest f).mpr ⟨c, hc, hmem⟩))
            · exact Or.inr (Or.inl ⟨c, hc, hmem⟩)

/-- Every filter that the walk meets below a node ends below it. -/
theorem ends_of_mem_found (hv : ∀ path f, c.ends path = some f → valid_levels path = true)
    {skip : Bool} (hrest : ∀ l ∈ rest, l ≠ "+" ∧ l ≠ "#") (hf : f ∈ found c skip rest) :
    ∃ path, c.ends path = some f := by
  obtain ⟨path, hpath, -⟩ := (mem_found hv skip hrest f).mp hf
  exact ⟨path, hpath⟩

theorem nodup_found (hn : ∀ p q f, n.ends p = some f → n.ends q = some f → p = q)
    (hv : ∀ path f, n.ends path = some f → valid_levels path = true) (skip : Bool)
    (hrest : ∀ l ∈ rest, l ≠ "+" ∧ l ≠ "#") : (found n skip rest).Nodup := by
  have hshort : ∀ o : Option FilterKey, o.toList.Nodup := by
    intro o
    cases o <;> simp
  induction rest generalizing n skip with
  | nil =>
    rw [found, List.nodup_append']
    refine ⟨?_, hshort _, ?_⟩
    · cases skip
      · exact hshort _
      · exact List.nodup_nil
    · intro f h1 h2
      obtain ⟨-, h1⟩ := (mem_here n skip f).mp h1
      have := hn _ _ f h1 (show n.ends [] = some f by rw [ends_nil]; simpa using h2)
      cases this
  | cons level rest ih =>
    obtain ⟨hplus, hhash⟩ := hrest level List.mem_cons_self
    have hrest' : ∀ l ∈ rest, l ≠ "+" ∧ l ≠ "#" := fun l hl => hrest l (List.mem_cons_of_mem _ hl)
    -- What the walk meets through a child ends at a path through it.
    have hthrough : ∀ k o f, n.child k = o →
        f ∈ o.toList.flatMap (fun c => found c false rest) →
        ∃ path, n.ends (k :: path) = some f := by
      intro k o f hk hf
      obtain ⟨c, rfl, hfound⟩ := (mem_found_child o rest f).mp hf
      obtain ⟨path, hpath⟩ := ends_of_mem_found (ends_valid_child hv hk) hrest' hfound
      exact ⟨path, by rw [ends_cons, hk]; exact hpath⟩
    have hsub : ∀ k o, n.child k = o →
        (o.toList.flatMap (fun c => found c false rest)).Nodup := by
      intro k o hk
      cases o with
      | none => exact List.nodup_nil
      | some c =>
        rw [Option.toList_some, List.flatMap_singleton]
        apply ih _ (ends_valid_child hv hk) false hrest'
        intro p q f hp hq
        have hpq := hn (k :: p) (k :: q) f (by rw [ends_cons, hk]; exact hp)
          (by rw [ends_cons, hk]; exact hq)
        exact (List.cons.inj hpq).2
    rw [found, List.nodup_append', List.nodup_append', literal_eq_child n hplus hhash]
    refine ⟨?_, ⟨hsub level _ rfl, ?_, ?_⟩, ?_⟩
    · cases skip
      · exact hshort _
      · exact List.nodup_nil
    · cases skip
      · exact hsub "+" _ rfl
      · exact List.nodup_nil
    · intro f h1 h2
      cases skip with
      | true => cases h2
      | false =>
        obtain ⟨p, hp⟩ := hthrough level _ f rfl h1
        obtain ⟨q, hq⟩ := hthrough "+" _ f rfl h2
        exact hplus (List.cons.inj (hn _ _ f hp hq)).1
    · intro f h1 h2
      obtain ⟨-, hends⟩ := (mem_here n skip f).mp h1
      rcases List.mem_append.mp h2 with h2 | h2
      · obtain ⟨q, hq⟩ := hthrough level _ f rfl h2
        exact hhash (List.cons.inj (hn _ _ f hends hq)).1.symm
      · cases skip with
        | true => cases h2
        | false =>
          obtain ⟨q, hq⟩ := hthrough "+" _ f rfl h2
          exact absurd (List.cons.inj (hn _ _ f hends hq)).1 (by decide)

theorem FilterIndex.Holds.matching (h : index.Holds filters)
    (hvalid : ∀ f, filters f → valid_filter f = true) {topic : String}
    (ht : valid_topic_name topic = true) :
    (index.for_each_matching topic).Nodup ∧
      ∀ f, f ∈ index.for_each_matching topic ↔ filters f ∧ topic_matches f topic = true := by
  have hv : ∀ path f, index.root.ends path = some f → valid_levels path = true := by
    intro path f hf
    obtain ⟨hmem, rfl⟩ := (h.ends_iff path f).mp hf
    exact valid_filter_levels (hvalid f hmem)
  have hinj : ∀ p q f, index.root.ends p = some f → index.root.ends q = some f → p = q := by
    intro p q f hp hq
    rw [← ((h.ends_iff p f).mp hp).2, ← ((h.ends_iff q f).mp hq).2]
  have hlevels : ∀ l ∈ split topic, l ≠ "+" ∧ l ≠ "#" := fun l hl => level_of_valid_topic ht hl
  rw [for_each_matching_eq]
  refine ⟨nodup_found hinj hv _ hlevels, fun f => ?_⟩
  rw [mem_found hv _ hlevels]
  unfold Selects
  constructor
  · rintro ⟨path, hf, hsel⟩
    obtain ⟨hmem, rfl⟩ := (h.ends_iff path f).mp hf
    refine ⟨hmem, (topic_matches_iff (hvalid f hmem) topic).mpr ?_⟩
    simpa using hsel
  · rintro ⟨hmem, hmatch⟩
    refine ⟨split f, (h.ends_iff _ f).mpr ⟨hmem, rfl⟩, ?_⟩
    have := (topic_matches_iff (hvalid f hmem) topic).mp hmatch
    simpa using this

end mqtt_core.filter_index
