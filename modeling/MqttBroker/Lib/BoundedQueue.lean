-- A queue with a bound on its length and a budget for the weight of what it holds. A
-- newcomer that does not fit takes the place of the oldest, as many of them as have to go.
import Mathlib.Data.List.Basic
import Mathlib.Algebra.BigOperators.Group.List.Basic
import Mathlib.Algebra.GroupWithZero.Nat

namespace BoundedQueue

variable {α : Type} (weight : α → Nat)

/-- How many a queue may hold, and how much they may weigh together. -/
structure Bounds where
  cap : Nat
  budget : Option Nat
  deriving DecidableEq

/-- What the elements of a queue weigh together. -/
def load (xs : List α) : Nat := (xs.map weight).sum

@[simp] theorem load_nil : load weight [] = 0 := rfl

@[simp] theorem load_cons (x : α) (xs : List α) :
    load weight (x :: xs) = weight x + load weight xs := by
  simp [load]

@[simp] theorem load_append (xs ys : List α) :
    load weight (xs ++ ys) = load weight xs + load weight ys := by
  simp [load]

theorem load_eq_zero {xs : List α} (h : ∀ x ∈ xs, weight x = 0) : load weight xs = 0 := by
  induction xs with
  | nil => rfl
  | cons x xs ih =>
    rw [load_cons, h x List.mem_cons_self, ih (fun y hy => h y (List.mem_cons_of_mem _ hy))]

theorem load_drop_le (n : Nat) (xs : List α) : load weight (xs.drop n) ≤ load weight xs := by
  have h := load_append weight (xs.take n) (xs.drop n)
  rw [List.take_append_drop] at h
  omega

namespace Bounds

/-- A newcomer of some weight fits behind the elements of a queue. -/
def Room (b : Bounds) (incoming : Nat) (xs : List α) : Prop :=
  xs.length < b.cap ∧ ∀ most ∈ b.budget, load weight xs + incoming ≤ most

instance (b : Bounds) (incoming : Nat) (xs : List α) : Decidable (b.Room weight incoming xs) :=
  inferInstanceAs (Decidable (_ ∧ _))

/-- The newcomer alone is over the budget. -/
def Oversized (b : Bounds) (incoming : Nat) : Prop := ∃ most ∈ b.budget, most < incoming

instance (b : Bounds) (incoming : Nat) : Decidable (b.Oversized incoming) :=
  inferInstanceAs (Decidable (∃ most ∈ b.budget, most < incoming))

/-- How many of the oldest go until the newcomer fits. -/
def excess (b : Bounds) (incoming : Nat) : List α → Nat
  | [] => 0
  | x :: xs => if b.Room weight incoming (x :: xs) then 0 else excess b incoming xs + 1

/-- The elements are within both bounds. -/
def Holds (b : Bounds) (xs : List α) : Prop :=
  xs.length ≤ b.cap ∧ ∀ most ∈ b.budget, load weight xs ≤ most

variable {weight} {b : Bounds} {incoming : Nat} {xs : List α}

theorem excess_le (b : Bounds) (incoming : Nat) (xs : List α) :
    b.excess weight incoming xs ≤ xs.length := by
  induction xs with
  | nil => exact Nat.le_refl 0
  | cons x xs ih =>
    rw [excess]
    split
    · exact Nat.zero_le _
    · exact Nat.succ_le_succ ih

theorem excess_pos (hne : xs ≠ []) (h : ¬ b.Room weight incoming xs) :
    0 < b.excess weight incoming xs := by
  cases xs with
  | nil => exact absurd rfl hne
  | cons x xs =>
    rw [excess, if_neg h]
    exact Nat.succ_pos _

/-- Nothing is in the way of a newcomer that is within the budget by itself. -/
theorem room_nil (hcap : 0 < b.cap) (h : ¬ b.Oversized incoming) :
    b.Room weight incoming ([] : List α) := by
  refine ⟨hcap, ?_⟩
  intro most hmost
  have hle : ¬ most < incoming := fun hlt => h ⟨most, hmost, hlt⟩
  simp only [load_nil]
  omega

/-- Once they are gone the newcomer fits. -/
theorem room_drop_excess (hcap : 0 < b.cap) (h : ¬ b.Oversized incoming) :
    b.Room weight incoming (xs.drop (b.excess weight incoming xs)) := by
  induction xs with
  | nil => exact room_nil hcap h
  | cons x xs ih =>
    rw [excess]
    split
    · rename_i hroom
      exact hroom
    · exact ih

/-- A newcomer that fits leaves the queue within its bounds. -/
theorem holds_append {x : α} (h : b.Room weight (weight x) xs) :
    b.Holds weight (xs ++ [x]) := by
  constructor
  · have := h.1
    simp
    omega
  · intro most hmost
    have := h.2 most hmost
    simp
    omega

theorem holds_nil (b : Bounds) : b.Holds weight ([] : List α) := by
  constructor
  · exact Nat.zero_le _
  · intro most _
    exact Nat.zero_le _

end Bounds

end BoundedQueue
