-- Walks with a stack of frames: each turn takes the frame on the top, gives
-- what is found there and pushes the frames below it. What a whole walk finds
-- follows from what one turn does.
import Mathlib.Algebra.BigOperators.Group.List.Basic
import Mathlib.Algebra.GroupWithZero.Nat
import Mathlib.Data.List.Basic
import Mathlib.Data.List.Nodup

namespace StackWalk

variable {F O : Type}

/-- The loop over the stack, for as many turns as are given. A visit gives what is found at a
frame and the frames that it pushes, the last of which is met first. -/
def walk (visit : F → List O × List F) : Nat → List F → List O
  | 0, _ => []
  | _ + 1, [] => []
  | turns + 1, f :: stack =>
    (visit f).1 ++ walk visit turns ((visit f).2.reverse ++ stack)

/-- How a visit stands to what is to be found from a frame on. -/
structure Visits (visit : F → List O × List F) (Good : F → Prop) (Finds : F → O → Prop)
    (size : F → Nat) : Prop where
  /-- What a frame finds is found at it or from one of the frames that it pushes. -/
  finds : ∀ f, Good f → ∀ o, Finds f o ↔ o ∈ (visit f).1 ∨ ∃ g ∈ (visit f).2, Finds g o
  good : ∀ f, Good f → ∀ g ∈ (visit f).2, Good g
  size : ∀ f, ((visit f).2.map size).sum + 1 ≤ size f
  here : ∀ f, Good f → (visit f).1.Nodup
  below : ∀ f, Good f → ∀ o ∈ (visit f).1, ∀ g ∈ (visit f).2, ¬ Finds g o
  apart : ∀ f, Good f → (visit f).2.Pairwise (fun g g' => ∀ o, Finds g o → ¬ Finds g' o)

variable {visit : F → List O × List F} {Good : F → Prop} {Finds : F → O → Prop} {size : F → Nat}

theorem turns_left (h : Visits visit Good Finds size) {f : F} {stack : List F} {turns : Nat}
    (hturns : ((f :: stack).map size).sum ≤ turns + 1) :
    (((visit f).2.reverse ++ stack).map size).sum ≤ turns := by
  have hf := h.size f
  rw [List.map_cons, List.sum_cons] at hturns
  rw [List.map_append, List.sum_append, List.map_reverse, List.sum_reverse]
  omega

theorem stack_nil (h : Visits visit Good Finds size) {stack : List F}
    (hturns : (stack.map size).sum ≤ 0) : stack = [] := by
  cases stack with
  | nil => rfl
  | cons f stack =>
    have hf := h.size f
    rw [List.map_cons, List.sum_cons] at hturns
    omega

theorem good_left (h : Visits visit Good Finds size) {f : F} {stack : List F}
    (hgood : ∀ g ∈ f :: stack, Good g) : ∀ g ∈ (visit f).2.reverse ++ stack, Good g := by
  intro g hg
  rcases List.mem_append.mp hg with hg | hg
  · exact h.good f (hgood f List.mem_cons_self) g (List.mem_reverse.mp hg)
  · exact hgood g (List.mem_cons_of_mem _ hg)

theorem mem_walk (h : Visits visit Good Finds size) (turns : Nat) (stack : List F)
    (hturns : (stack.map size).sum ≤ turns) (hgood : ∀ g ∈ stack, Good g) (o : O) :
    o ∈ walk visit turns stack ↔ ∃ f ∈ stack, Finds f o := by
  induction turns generalizing stack with
  | zero =>
    rw [stack_nil h hturns]
    simp [walk]
  | succ turns ih =>
    cases stack with
    | nil => simp [walk]
    | cons f stack =>
      have hleft := ih _ (turns_left h hturns) (good_left h hgood)
      have hf := h.finds f (hgood f List.mem_cons_self) o
      rw [walk, List.mem_append, hleft]
      simp only [List.mem_append, List.mem_reverse, List.mem_cons, or_and_right, exists_or,
        exists_eq_left, hf, or_assoc]

theorem nodup_walk (h : Visits visit Good Finds size) (turns : Nat) (stack : List F)
    (hturns : (stack.map size).sum ≤ turns) (hgood : ∀ g ∈ stack, Good g)
    (hapart : stack.Pairwise (fun g g' => ∀ o, Finds g o → ¬ Finds g' o)) :
    (walk visit turns stack).Nodup := by
  induction turns generalizing stack with
  | zero => simp [walk]
  | succ turns ih =>
    cases stack with
    | nil => simp [walk]
    | cons f stack =>
      have hf := hgood f List.mem_cons_self
      obtain ⟨hhead, hrest⟩ := List.pairwise_cons.mp hapart
      have hnext : ((visit f).2.reverse ++ stack).Pairwise
          (fun g g' => ∀ o, Finds g o → ¬ Finds g' o) := by
        rw [List.pairwise_append]
        refine ⟨?_, hrest, ?_⟩
        · rw [List.pairwise_reverse]
          apply (h.apart f hf).imp
          intro g g' hgg o hg' hg
          exact hgg o hg hg'
        · intro g hg g' hg' o ho
          exact hhead g' hg' o ((h.finds f hf o).mpr (Or.inr ⟨g, List.mem_reverse.mp hg, ho⟩))
      rw [walk, List.nodup_append']
      refine ⟨h.here f hf, ih _ (turns_left h hturns) (good_left h hgood) hnext, ?_⟩
      intro o ho hlater
      obtain ⟨g, hg, hog⟩ := (mem_walk h turns _ (turns_left h hturns) (good_left h hgood) o).mp
        hlater
      rcases List.mem_append.mp hg with hg | hg
      · exact h.below f hf o ho g (List.mem_reverse.mp hg) hog
      · exact hhead g hg o ((h.finds f hf o).mpr (Or.inl ho)) hog

end StackWalk
