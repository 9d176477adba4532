-- What is built from leaves by joins, in any grouping. Where the join is that of a
-- semilattice on the values that can come up, the result is told by the leaves.
import Mathlib.Data.List.Basic

/-- Leaves, joined two at a time. -/
inductive JoinTree (α : Type)
  | Leaf (x : α)
  | Node (left right : JoinTree α)

namespace JoinTree

variable {α : Type}

def leaves : JoinTree α → List α
  | Leaf x => [x]
  | Node left right => left.leaves ++ right.leaves

def join (op : α → α → α) : JoinTree α → α
  | Leaf x => x
  | Node left right => op (left.join op) (right.join op)

/-- The laws of a join, among the values that `P` allows. -/
structure Laws (op : α → α → α) (P : α → Prop) : Prop where
  closed : ∀ {a b}, P a → P b → P (op a b)
  assoc : ∀ {a b c}, P a → P b → P c → op (op a b) c = op a (op b c)
  comm : ∀ {a b}, P a → P b → op a b = op b a
  idem : ∀ {a}, P a → op a a = a

variable {op : α → α → α} {P : α → Prop} (laws : Laws op P) {t t' : JoinTree α}

include laws

theorem join_allowed (h : ∀ x ∈ t.leaves, P x) : P (t.join op) := by
  induction t with
  | Leaf x => exact h x List.mem_cons_self
  | Node left right ihl ihr =>
    exact laws.closed (ihl fun x hx => h x (List.mem_append_left _ hx))
      (ihr fun x hx => h x (List.mem_append_right _ hx))

theorem leaf_in_join (h : ∀ x ∈ t.leaves, P x) {x : α} (hx : x ∈ t.leaves) :
    op x (t.join op) = t.join op := by
  induction t with
  | Leaf y =>
    rw [List.mem_singleton.mp hx]
    exact laws.idem (h y List.mem_cons_self)
  | Node left right ihl ihr =>
    have hl := fun y hy => h y (List.mem_append_left right.leaves hy)
    have hr := fun y hy => h y (List.mem_append_right left.leaves hy)
    have hleft := join_allowed laws hl
    have hright := join_allowed laws hr
    rw [join]
    rcases List.mem_append.mp hx with hmem | hmem
    · rw [← laws.assoc (h x hx) hleft hright, ihl hl hmem]
    · rw [laws.comm hleft hright, ← laws.assoc (h x hx) hright hleft, ihr hr hmem]

theorem join_in {c : α} (h : ∀ x ∈ t.leaves, P x) (hc : P c) (hin : ∀ x ∈ t.leaves, op x c = c) :
    op (t.join op) c = c := by
  induction t with
  | Leaf x => exact hin x List.mem_cons_self
  | Node left right ihl ihr =>
    have hl := fun x hx => h x (List.mem_append_left right.leaves hx)
    have hr := fun x hx => h x (List.mem_append_right left.leaves hx)
    rw [join, laws.assoc (join_allowed laws hl) (join_allowed laws hr) hc,
      ihr hr fun x hx => hin x (List.mem_append_right _ hx),
      ihl hl fun x hx => hin x (List.mem_append_left _ hx)]

theorem join_eq (h : ∀ x ∈ t.leaves, P x) (hsame : ∀ x, x ∈ t.leaves ↔ x ∈ t'.leaves) :
    t.join op = t'.join op := by
  have h' : ∀ x ∈ t'.leaves, P x := fun x hx => h x ((hsame x).mpr hx)
  have hjoin := join_allowed laws h
  have hjoin' := join_allowed laws h'
  calc t.join op = op (t'.join op) (t.join op) :=
        (join_in laws h' hjoin fun x hx => leaf_in_join laws h ((hsame x).mpr hx)).symm
    _ = op (t.join op) (t'.join op) := laws.comm hjoin' hjoin
    _ = t'.join op := join_in laws h hjoin' fun x hx => leaf_in_join laws h' ((hsame x).mp hx)

end JoinTree
