-- Tries over nodes of any type: what a node answers about its children and
-- what ends at it, insertion along a path, and a removal in two passes that
-- cuts the chain of nodes it leaves with nothing.
import Mathlib.Data.List.Basic

namespace Trie

/-! ## Nodes -/

/-- The operations of a node, with its children under keys of one type. -/
class Node (N : Type) (K T : outParam Type) where
  empty : N
  child : N → K → Option N
  setChild : N → K → N → N
  removeChild : N → K → N
  terminal : N → Option T
  setTerminal : N → Option T → N
  childCount : N → Nat
  /-- The children of the node are a map. -/
  Proper : N → Prop

open Node

/-- The laws of the operations. -/
class LawfulNode (N : Type) (K T : outParam Type) [DecidableEq K] [Node N K T] : Prop where
  child_setChild : ∀ (n c : N) (key k : K),
    child (setChild n key c) k = if k = key then some c else child n k
  child_removeChild : ∀ (n : N) (key k : K),
    child (removeChild n key) k = if k = key then none else child n k
  child_setTerminal : ∀ (n : N) (t : Option T) (k : K), child (setTerminal n t) k = child n k
  child_empty : ∀ k : K, child (empty : N) k = none
  terminal_setChild : ∀ (n c : N) (key : K), terminal (setChild n key c) = terminal n
  terminal_removeChild : ∀ (n : N) (key : K), terminal (removeChild n key) = terminal n
  terminal_setTerminal : ∀ (n : N) (t : Option T), terminal (setTerminal n t) = t
  terminal_empty : terminal (empty : N) = none
  count_setTerminal : ∀ (n : N) (t : Option T), childCount (setTerminal n t) = childCount n
  count_removeChild : ∀ (n c : N) (key : K), Proper n → child n key = some c →
    childCount n = childCount (removeChild n key) + 1
  count_pos : ∀ (n c : N) (key : K), child n key = some c → 0 < childCount n
  child_of_count : ∀ n : N, Proper n → 0 < childCount n → ∃ key c, child n key = some c
  proper_setChild : ∀ (n c : N) (key : K), Proper n → Proper (setChild n key c)
  proper_removeChild : ∀ (n : N) (key : K), Proper n → Proper (removeChild n key)
  proper_setTerminal : ∀ (n : N) (t : Option T), Proper n → Proper (setTerminal n t)
  proper_empty : Proper (empty : N)
  /-- There is no way down without an end. -/
  child_wf : WellFounded (fun c n : N => ∃ key, child n key = some c)

variable {N K T : Type} [Node N K T]

/-! ## The operations on a path -/

/-- Lets a value end at a path, with a node made where there is none. -/
def insertAt (n : N) (value : T) : List K → N
  | [] => setTerminal n (some value)
  | key :: rest => setChild n key (insertAt ((child n key).getD empty) value rest)

/-- The first pass of a removal: the leaf of the path and the depth of the last node on it that
is the root, has a terminal or has a second child. Nothing when the path leaves the trie. -/
def findCut (n : N) (depth cut : Nat) : List K → Option (Nat × N)
  | [] => some (cut, n)
  | key :: rest =>
    match child n key with
    | none => none
    | some c =>
      let cut := if depth = 0 || (terminal n).isSome || decide (1 < childCount n) then depth
        else cut
      findCut c (depth + 1) cut rest

/-- Changes the node at the end of a path. -/
def modifyAt (n : N) (f : N → N) : List K → N
  | [] => f n
  | key :: rest =>
    match child n key with
    | none => n
    | some c => setChild n key (modifyAt c f rest)

/-- The second pass: clears the terminal of a leaf that stays, else cuts the chain off below the
last node that does. -/
def detach (n : N) (path : List K) (cut : Nat) : N :=
  match path[cut]? with
  | none => modifyAt n (fun leaf => setTerminal leaf none) path
  | some key => modifyAt n (fun last => removeChild last key) (path.take cut)

/-- A removal in its two passes. -/
def remove (root : N) (path : List K) : N :=
  match findCut root 0 0 path with
  | none => root
  | some (cut, leaf) => detach root path (if 0 < childCount leaf then path.length else cut)

/-! ## Paths -/

/-- The node at the end of a path. -/
def descend (n : N) : List K → Option N
  | [] => some n
  | key :: rest => (child n key).bind (fun c => descend c rest)

/-- What ends at a path. -/
def ends (n : N) (path : List K) : Option T := (descend n path).bind terminal

theorem descend_cons (n : N) (key : K) (rest : List K) :
    descend n (key :: rest) = (child n key).bind (fun c => descend c rest) := rfl

theorem ends_nil (n : N) : ends n [] = terminal n := rfl

theorem ends_cons (n : N) (key : K) (rest : List K) :
    ends n (key :: rest) = (child n key).bind (fun c => ends c rest) := by
  unfold ends
  rw [descend_cons]
  cases child n key <;> simp

variable {n c : N} {key : K}

theorem ends_child (hc : child n key = some c) (rest : List K) :
    ends n (key :: rest) = ends c rest := by
  rw [ends_cons, hc, Option.bind_some]

/-- Something ends at the node or goes on below it. -/
def Alive (n : N) : Prop := (terminal n).isSome = true ∨ 0 < childCount n

instance (n : N) : Decidable (Alive n) := inferInstanceAs (Decidable (_ ∨ _))

/-! ## The passes of a removal -/

theorem detach_cons (hc : child n key = some c) (rest : List K) (cut : Nat) :
    detach n (key :: rest) (cut + 1) = setChild n key (detach c rest cut) := by
  unfold detach
  rw [List.getElem?_cons_succ]
  cases rest[cut]? with
  | none => simp [modifyAt, hc]
  | some last => simp [modifyAt, hc]

theorem detach_zero (n : N) (key : K) (rest : List K) :
    detach n (key :: rest) 0 = removeChild n key := by
  simp [detach, modifyAt]

variable {path : List K}

theorem ends_of_findCut {depth cut : Nat} (h : findCut n depth cut path = none) :
    ends n path = none := by
  induction path generalizing n depth cut with
  | nil => cases h
  | cons key rest ih =>
    rw [findCut] at h
    rw [ends_cons]
    rcases hc : child n key with _ | c
    · simp
    · rw [hc] at h
      exact ih h

/-- A removal told from the leaf up: each node that is left with nothing goes. -/
def prune (n : N) : List K → N
  | [] => setTerminal n none
  | key :: rest =>
    match child n key with
    | none => n
    | some c => if Alive (prune c rest) then setChild n key (prune c rest) else removeChild n key

theorem prune_child (hc : child n key = some c) (rest : List K) :
    prune n (key :: rest) =
      if Alive (prune c rest) then setChild n key (prune c rest) else removeChild n key := by
  rw [prune, hc]

/-! ## Tidy tries -/

/-- Every node of the trie is a proper one, and below the root an alive one. -/
def Tidy (n : N) : Prop :=
  ∀ path m, descend n path = some m → Proper m ∧ (path ≠ [] → Alive m)

theorem descend_append (n : N) (path rest : List K) :
    descend n (path ++ rest) = (descend n path).bind (fun m => descend m rest) := by
  induction path generalizing n with
  | nil => simp [descend]
  | cons key path ih =>
    rw [List.cons_append, descend_cons, descend_cons]
    cases child n key with
    | none => simp
    | some c => exact ih c

theorem tidy_iff (n : N) :
    Tidy n ↔ Proper n ∧ ∀ key c, child n key = some c → Alive c ∧ Tidy c := by
  constructor
  · intro h
    refine ⟨(h [] n (by simp [descend])).1, fun key c hc => ⟨?_, ?_⟩⟩
    · exact (h [key] c (by simp [descend, hc])).2 (by simp)
    · intro path m hm
      have hbelow := h (key :: path) m (by rw [descend_cons, hc]; exact hm)
      exact ⟨hbelow.1, fun _ => hbelow.2 (by simp)⟩
  · rintro ⟨hn, hbelow⟩ path m hm
    cases path with
    | nil =>
      cases hm
      exact ⟨hn, fun h => absurd rfl h⟩
    | cons key rest =>
      rw [descend_cons] at hm
      rcases hc : child n key with _ | c
      · rw [hc] at hm
        cases hm
      · rw [hc] at hm
        obtain ⟨halive, htidy⟩ := hbelow key c hc
        cases rest with
        | nil =>
          cases hm
          exact ⟨(htidy [] m (by simp [descend])).1, fun _ => halive⟩
        | cons next rest =>
          have hnext := htidy (next :: rest) m hm
          exact ⟨hnext.1, fun _ => hnext.2 (by simp)⟩

theorem Tidy.child (h : Tidy n) (hc : child n key = some c) : Tidy c :=
  (((tidy_iff n).mp h).2 key c hc).2

theorem Tidy.descend {m : N} (h : Tidy n) (hm : descend n path = some m) : Tidy m := by
  intro rest k hk
  have hwhole := h (path ++ rest) k (by rw [descend_append, hm]; exact hk)
  exact ⟨hwhole.1, fun hrest => hwhole.2 (by simp [hrest])⟩

/-! ## What a trie holds -/

/-- The trie is tidy and holds the values of a set, each at its own path. -/
structure Holds (root : N) (pathOf : T → List K) (values : T → Prop) : Prop where
  tidy : Tidy root
  ends_iff : ∀ path t, ends root path = some t ↔ values t ∧ pathOf t = path

theorem Holds.congr {root : N} {pathOf : T → List K} {values values' : T → Prop}
    (h : Holds root pathOf values) (heq : ∀ t, values t ↔ values' t) :
    Holds root pathOf values' :=
  ⟨h.tidy, fun path t => by rw [h.ends_iff, heq]⟩

theorem Holds.once {root : N} {pathOf : T → List K} {values : T → Prop}
    (h : Holds root pathOf values) (p q : List K) (t : T) (hp : ends root p = some t)
    (hq : ends root q = some t) : p = q := by
  rw [← ((h.ends_iff p t).mp hp).2, ← ((h.ends_iff q t).mp hq).2]

/-! ## What ends where -/

variable [DecidableEq K] [LawfulNode N K T]

open LawfulNode

theorem ends_of_not_alive (h : ¬ Alive n) (path : List K) : ends n path = none := by
  unfold Alive at h
  rw [not_or] at h
  cases path with
  | nil =>
    rw [ends_nil]
    simpa using h.1
  | cons key rest =>
    rw [ends_cons]
    rcases hc : child n key with _ | c
    · simp
    · exact absurd (count_pos n c key hc) h.2

theorem ends_empty (path : List K) : ends (empty : N) path = none := by
  cases path with
  | nil => exact terminal_empty
  | cons key rest =>
    rw [ends_cons, child_empty]
    simp

theorem tidy_empty : Tidy (empty : N) := by
  rw [tidy_iff]
  refine ⟨proper_empty, fun key c hc => ?_⟩
  rw [child_empty] at hc
  cases hc

theorem Tidy.ends_below (h : Tidy n) (halive : Alive n) : ∃ path t, ends n path = some t := by
  -- There is no way down without an end, so some way ends at a terminal.
  induction n using (child_wf (N := N)).induction with
  | _ n ih =>
    obtain ⟨hproper, hbelow⟩ := (tidy_iff n).mp h
    rcases halive with ht | hcount
    · obtain ⟨t, ht⟩ := Option.isSome_iff_exists.mp ht
      exact ⟨[], t, ht⟩
    · obtain ⟨key, c, hc⟩ := child_of_count n hproper hcount
      obtain ⟨path, t, ht⟩ := ih c ⟨key, hc⟩ (hbelow key c hc).2 (hbelow key c hc).1
      exact ⟨key :: path, t, by rw [ends_child hc]; exact ht⟩

/-! ## Insertion -/

theorem ends_insertAt (n : N) (value : T) (keys path : List K) :
    ends (insertAt n value keys) path = if path = keys then some value else ends n path := by
  induction keys generalizing n path with
  | nil =>
    cases path with
    | nil => simp [insertAt, ends_nil, terminal_setTerminal]
    | cons key rest =>
      rw [insertAt, ends_cons, child_setTerminal, ends_cons]
      simp
  | cons key rest ih =>
    cases path with
    | nil =>
      rw [insertAt, ends_nil, terminal_setChild, ends_nil]
      simp
    | cons k path =>
      rw [insertAt, ends_cons, child_setChild]
      by_cases hk : k = key
      · subst hk
        rw [if_pos rfl, Option.bind_some, ih, ends_cons]
        by_cases hp : path = rest
        · simp [hp]
        · rw [if_neg hp, if_neg (by simpa using hp)]
          cases child n k with
          | none => exact ends_empty path
          | some c => simp
      · rw [if_neg hk, if_neg (by simp [hk]), ends_cons]

theorem alive_setChild (n c : N) (key : K) : Alive (setChild n key c) := by
  have hc : child (setChild n key c) key = some c := by
    rw [child_setChild, if_pos rfl]
  exact Or.inr (count_pos _ c key hc)

theorem tidy_insertAt (h : Tidy n) (value : T) (keys : List K) :
    Tidy (insertAt n value keys) ∧ Alive (insertAt n value keys) := by
  induction keys generalizing n with
  | nil =>
    obtain ⟨hproper, hbelow⟩ := (tidy_iff n).mp h
    refine ⟨?_, Or.inl (by simp [insertAt, terminal_setTerminal])⟩
    rw [tidy_iff]
    refine ⟨proper_setTerminal n _ hproper, fun key c hc => hbelow key c ?_⟩
    rwa [insertAt, child_setTerminal] at hc
  | cons key rest ih =>
    obtain ⟨hproper, hbelow⟩ := (tidy_iff n).mp h
    have hchild : Tidy ((Node.child n key).getD empty) := by
      rcases hc : Node.child n key with _ | c
      · exact tidy_empty
      · exact (hbelow key c hc).2
    refine ⟨?_, alive_setChild ..⟩
    rw [tidy_iff]
    refine ⟨proper_setChild n _ key hproper, fun k c hc => ?_⟩
    rw [insertAt, child_setChild] at hc
    split at hc
    · cases hc
      exact ⟨(ih hchild).2, (ih hchild).1⟩
    · exact hbelow k c hc

/-! ## Removal -/

theorem alive_removeChild (h : Proper n) (hc : child n key = some c) :
    Alive (removeChild n key) ↔ (terminal n).isSome = true ∨ 1 < childCount n := by
  have hcount := count_removeChild n c key h hc
  unfold Alive
  rw [terminal_removeChild, hcount]
  constructor
  · rintro (ht | hn)
    · exact Or.inl ht
    · exact Or.inr (by omega)
  · rintro (ht | hn)
    · exact Or.inl ht
    · exact Or.inr (by omega)

/-- Where the first pass ends: with a node that stays, or with none below the ones above. -/
def CutAt (n : N) (path : List K) (depth cut final : Nat) : Prop :=
  (final = cut ∧ ¬ Alive (prune n path)) ∨
    (depth ≤ final ∧ detach n path (final - depth) = prune n path ∧ Alive (prune n path))

/-- The first pass below the root finds the deepest node that a removal from the leaf up leaves
alive. -/
theorem cut_at (h : Tidy n) (path : List K) (depth cut : Nat) (hdepth : 0 < depth) {found : Nat}
    {leaf : N} (hf : findCut n depth cut path = some (found, leaf)) :
    CutAt n path depth cut (if 0 < childCount leaf then depth + path.length else found) := by
  induction path generalizing n depth cut with
  | nil =>
    cases hf
    by_cases hleaf : 0 < childCount leaf
    · rw [if_pos hleaf]
      refine Or.inr ⟨by simp, ?_, ?_⟩
      · simp [detach, modifyAt, prune]
      · refine Or.inr ?_
        rw [prune, count_setTerminal]
        exact hleaf
    · rw [if_neg hleaf]
      refine Or.inl ⟨rfl, ?_⟩
      rintro (ht | hc)
      · simp [prune, terminal_setTerminal] at ht
      · rw [prune, count_setTerminal] at hc
        exact hleaf hc
  | cons key rest ih =>
    obtain ⟨hproper, hbelow⟩ := (tidy_iff n).mp h
    rw [findCut] at hf
    rcases hc : Node.child n key with _ | c
    · rw [hc] at hf
      cases hf
    · rw [hc] at hf
      dsimp only at hf
      have hsub := ih (hbelow key c hc).2 (depth + 1) _ (by omega) hf
      rw [List.length_cons, show depth + (rest.length + 1) = depth + 1 + rest.length by omega]
      generalize hfinal : (if 0 < childCount leaf then depth + 1 + rest.length else found) = final
        at hsub ⊢
      have hsplit := alive_removeChild hproper hc
      have hprune := prune_child hc rest
      rcases hsub with ⟨hcut, hdead⟩ | ⟨hle, hdetach, halive⟩
      · -- Nothing below stays: this node is the last one, or it goes too.
        rw [if_neg hdead] at hprune
        by_cases hkeep : (terminal n).isSome = true ∨ 1 < childCount n
        · have hhere : final = depth := by
            rw [hcut, if_pos]
            simpa [or_assoc] using Or.inr hkeep
          refine Or.inr ⟨by omega, ?_, ?_⟩
          · rw [hprune, hhere, Nat.sub_self, detach_zero]
          · rw [hprune]
            exact hsplit.mpr hkeep
        · have hpass : final = cut := by
            rw [hcut, if_neg]
            simp only [Bool.or_eq_true, decide_eq_true_eq, not_or] at hkeep ⊢
            exact ⟨⟨by omega, hkeep.1⟩, hkeep.2⟩
          refine Or.inl ⟨hpass, ?_⟩
          rw [hprune, hsplit]
          exact hkeep
      · rw [if_pos halive] at hprune
        refine Or.inr ⟨by omega, ?_, ?_⟩
        · have hstep : final - depth = (final - (depth + 1)) + 1 := by omega
          rw [hprune, hstep, detach_cons hc, hdetach]
        · rw [hprune]
          exact alive_setChild ..

theorem remove_eq {root : N} (h : Tidy root) (hpath : path ≠ []) :
    remove root path = prune root path ∨ remove root path = root ∧ ends root path = none := by
  unfold remove
  rcases path with _ | ⟨key, rest⟩
  · exact absurd rfl hpath
  · rw [findCut]
    rcases hc : child root key with _ | c
    · right
      refine ⟨rfl, ?_⟩
      rw [ends_cons, hc]
      simp
    · simp only [decide_true, Bool.true_or, if_true]
      rcases hf : findCut c 1 0 rest with _ | ⟨found, leaf⟩
      · right
        refine ⟨rfl, ?_⟩
        rw [ends_child hc]
        exact ends_of_findCut hf
      · left
        have hcut := cut_at (h.child hc) rest 1 0 Nat.one_pos hf
        rw [List.length_cons, Nat.add_comm rest.length 1, prune_child hc]
        dsimp only
        generalize (if 0 < childCount leaf then 1 + rest.length else found) = final at hcut ⊢
        rcases hcut with ⟨rfl, hdead⟩ | ⟨hle, hdetach, halive⟩
        · rw [if_neg hdead, detach_zero]
        · rw [if_pos halive, ← hdetach]
          have hstep : final = (final - 1) + 1 := by omega
          rw [hstep, detach_cons hc, Nat.add_sub_cancel]

theorem ends_prune (n : N) (keys path : List K) :
    ends (prune n keys) path = if path = keys then none else ends n path := by
  induction keys generalizing n path with
  | nil =>
    cases path with
    | nil => simp [prune, ends_nil, terminal_setTerminal]
    | cons key rest =>
      rw [prune, ends_cons, child_setTerminal, ends_cons]
      simp
  | cons key rest ih =>
    rcases hc : child n key with _ | c
    · rw [prune, hc]
      dsimp only
      by_cases hp : path = key :: rest
      · rw [if_pos hp, hp, ends_cons, hc]
        simp
      · rw [if_neg hp]
    · rw [prune_child hc]
      cases path with
      | nil =>
        have hne : [] ≠ key :: rest := by simp
        rw [if_neg hne, ends_nil, ends_nil]
        split
        · exact terminal_setChild ..
        · exact terminal_removeChild ..
      | cons k path =>
        by_cases hk : k = key
        · subst hk
          have hsub : ends (if Alive (prune c rest) then setChild n k (prune c rest)
              else removeChild n k) (k :: path) = ends (prune c rest) path := by
            split
            · rw [ends_cons, child_setChild, if_pos rfl, Option.bind_some]
            · rename_i hdead
              rw [ends_cons, child_removeChild, if_pos rfl, ends_of_not_alive hdead]
              simp
          rw [hsub, ih, ends_child hc]
          simp
        · have hne : k :: path ≠ key :: rest := by simp [hk]
          rw [if_neg hne, ends_cons, ends_cons]
          split
          · rw [child_setChild, if_neg hk]
          · rw [child_removeChild, if_neg hk]

theorem tidy_prune (h : Tidy n) (keys : List K) : Tidy (prune n keys) := by
  induction keys generalizing n with
  | nil =>
    obtain ⟨hproper, hbelow⟩ := (tidy_iff n).mp h
    rw [tidy_iff]
    refine ⟨proper_setTerminal n _ hproper, fun key c hc => hbelow key c ?_⟩
    rwa [prune, child_setTerminal] at hc
  | cons key rest ih =>
    obtain ⟨hproper, hbelow⟩ := (tidy_iff n).mp h
    rcases hc : Node.child n key with _ | c
    · rw [prune, hc]
      exact h
    · rw [prune_child hc]
      split
      · rename_i halive
        rw [tidy_iff]
        refine ⟨proper_setChild n _ key hproper, fun k d hd => ?_⟩
        rw [child_setChild] at hd
        split at hd
        · cases hd
          exact ⟨halive, ih (hbelow key c hc).2⟩
        · exact hbelow k d hd
      · rw [tidy_iff]
        refine ⟨proper_removeChild n key hproper, fun k d hd => ?_⟩
        rw [child_removeChild] at hd
        split at hd
        · cases hd
        · exact hbelow k d hd

variable {keys : List K}

theorem ends_remove {root : N} (h : Tidy root) (hkeys : keys ≠ []) (path : List K) :
    ends (remove root keys) path = if path = keys then none else ends root path := by
  rcases remove_eq h hkeys with heq | ⟨heq, hnone⟩
  · rw [heq, ends_prune]
  · rw [heq]
    by_cases hp : path = keys
    · rw [if_pos hp, hp, hnone]
    · rw [if_neg hp]

theorem tidy_remove {root : N} (h : Tidy root) (hkeys : keys ≠ []) : Tidy (remove root keys) := by
  rcases remove_eq h hkeys with heq | ⟨heq, -⟩
  · rw [heq]
    exact tidy_prune h keys
  · rw [heq]
    exact h

/-! ## What the operations leave -/

section

variable {root : N} {pathOf : T → List K} {values : T → Prop}

theorem holds_empty : Holds (empty : N) pathOf (fun _ => False) := by
  refine ⟨tidy_empty, fun path t => ?_⟩
  rw [ends_empty]
  simp

theorem Holds.insert (h : Holds root pathOf values) (hinj : Function.Injective pathOf)
    (value : T) :
    Holds (insertAt root value (pathOf value)) pathOf (fun t => t = value ∨ values t) := by
  refine ⟨(tidy_insertAt h.tidy value _).1, fun path t => ?_⟩
  rw [ends_insertAt]
  by_cases hp : path = pathOf value
  · rw [if_pos hp, Option.some.injEq]
    constructor
    · rintro rfl
      exact ⟨Or.inl rfl, hp.symm⟩
    · rintro ⟨-, ht⟩
      exact (hinj (ht.trans hp)).symm
  · rw [if_neg hp, h.ends_iff]
    constructor
    · rintro ⟨ht, hpath⟩
      exact ⟨Or.inr ht, hpath⟩
    · rintro ⟨rfl | ht, hpath⟩
      · exact absurd hpath.symm hp
      · exact ⟨ht, hpath⟩

theorem Holds.remove (h : Holds root pathOf values) (hinj : Function.Injective pathOf)
    {value : T} (hne : pathOf value ≠ []) :
    Holds (Trie.remove root (pathOf value)) pathOf (fun t => t ≠ value ∧ values t) := by
  refine ⟨tidy_remove h.tidy hne, fun path t => ?_⟩
  rw [ends_remove h.tidy hne]
  by_cases hp : path = pathOf value
  · rw [if_pos hp]
    constructor
    · intro hnone
      cases hnone
    · rintro ⟨⟨hother, -⟩, hpath⟩
      exact absurd (hinj (hpath.trans hp)) hother
  · rw [if_neg hp, h.ends_iff]
    constructor
    · rintro ⟨ht, rfl⟩
      exact ⟨⟨fun heq => hp (by rw [heq]), ht⟩, rfl⟩
    · rintro ⟨⟨-, ht⟩, hpath⟩
      exact ⟨ht, hpath⟩

end

end Trie
