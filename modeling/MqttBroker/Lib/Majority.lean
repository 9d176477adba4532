-- Majorities of a set: lists of different members that are too long to be
-- disjoint.
import Mathlib.Data.Finset.Card
import Mathlib.Data.List.Nodup
import Mathlib.Data.Finset.Range

namespace Majority

variable {α : Type} [DecidableEq α]

/-- Two lists of different members of a set, longer together than the set, share a member. -/
theorem meet {s : Finset α} {xs ys : List α} (hx : xs.Nodup) (hy : ys.Nodup)
    (hxs : ∀ x ∈ xs, x ∈ s) (hys : ∀ y ∈ ys, y ∈ s) (h : s.card < xs.length + ys.length) :
    ∃ x, x ∈ xs ∧ x ∈ ys := by
  rw [← List.toFinset_card_of_nodup hx, ← List.toFinset_card_of_nodup hy] at h
  have hx' : xs.toFinset ⊆ s := fun x hm => hxs x (List.mem_toFinset.mp hm)
  have hy' : ys.toFinset ⊆ s := fun y hm => hys y (List.mem_toFinset.mp hm)
  obtain ⟨x, hm⟩ := Finset.inter_nonempty_of_card_lt_card_add_card hx' hy' h
  rw [Finset.mem_inter, List.mem_toFinset, List.mem_toFinset] at hm
  exact ⟨x, hm⟩

/-- Two majorities of the members `0, …, n - 1` share a member. -/
theorem meet_lt {n : Nat} {xs ys : List Nat} (hx : xs.Nodup) (hy : ys.Nodup)
    (hxs : ∀ x ∈ xs, x < n) (hys : ∀ y ∈ ys, y < n) (hmx : n / 2 + 1 ≤ xs.length)
    (hmy : n / 2 + 1 ≤ ys.length) : ∃ x, x ∈ xs ∧ x ∈ ys := by
  apply meet (s := Finset.range n) hx hy
  · exact fun x hm => Finset.mem_range.mpr (hxs x hm)
  · exact fun y hm => Finset.mem_range.mpr (hys y hm)
  · rw [Finset.card_range]
    omega

/-- More than half of the set pass. -/
def Of {α : Type} (set : List α) (P : α → Prop) : Prop :=
  ∃ ms : List α, ms.Sublist set ∧ set.length / 2 + 1 ≤ ms.length ∧ ∀ m ∈ ms, P m

theorem of_countP {α : Type} {set : List α} {p : α → Bool} {P : α → Prop}
    (h : set.length / 2 + 1 ≤ set.countP p) (hp : ∀ m ∈ set, p m = true → P m) : Of set P := by
  refine ⟨set.filter p, List.filter_sublist, ?_, fun m hm => ?_⟩
  · rwa [← List.countP_eq_length_filter]
  · obtain ⟨hset, hpm⟩ := List.mem_filter.mp hm
    exact hp m hset hpm

theorem of_meet {set : List α} (hn : set.Nodup) {P Q : α → Prop} (hP : Of set P)
    (hQ : Of set Q) : ∃ m ∈ set, P m ∧ Q m := by
  obtain ⟨xs, hxs, hxl, hxP⟩ := hP
  obtain ⟨ys, hys, hyl, hyQ⟩ := hQ
  have hcard : set.toFinset.card = set.length := List.toFinset_card_of_nodup hn
  obtain ⟨m, hmx, hmy⟩ := meet (s := set.toFinset) (hn.sublist hxs) (hn.sublist hys)
    (fun x hx => List.mem_toFinset.mpr (hxs.mem hx))
    (fun y hy => List.mem_toFinset.mpr (hys.mem hy)) (by omega)
  exact ⟨m, hxs.mem hmx, hxP m hmx, hyQ m hmy⟩

/-- A majority has no more members than pass. -/
theorem of_le_countP {α : Type} {set : List α} {p : α → Bool} {P : α → Prop} (h : Of set P)
    (hp : ∀ m ∈ set, P m → p m = true) : set.length / 2 + 1 ≤ set.countP p := by
  obtain ⟨ms, hms, hlen, hall⟩ := h
  have hsub : ms.countP p = ms.length := List.countP_eq_length.mpr (fun m hm =>
    hp m (hms.mem hm) (hall m hm))
  have := hms.countP_le (p := p)
  omega

end Majority
