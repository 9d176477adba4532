-- A set that grows one element at a time, each time by one whose class is least
-- represented. Of all sets of its size that keep the seed it has the smallest
-- largest class, where an element of no class is a class of its own.
import Mathlib.Algebra.Order.BigOperators.Group.Finset
import Mathlib.Data.Finset.Card
import Mathlib.Data.Finset.Lattice.Fold
import Mathlib.Order.Lattice.Nat

namespace Spread

variable {α δ : Type} [DecidableEq δ]

/-! ## Classes -/

/-- The members of a set that have a label. -/
def classOf (label : α → Option δ) (s : Finset α) (d : δ) : Finset α :=
  s.filter (fun b => label b = some d)

/-- How many members of a set are already in the class of an element. -/
def load (label : α → Option δ) (s : Finset α) (a : α) : Nat :=
  match label a with
  | none => 0
  | some d => (classOf label s d).card

/-- How many members of a set share the label of a member. One without a label shares with
nobody. -/
def share (label : α → Option δ) (s : Finset α) (a : α) : Nat :=
  match label a with
  | none => 1
  | some d => (classOf label s d).card

/-- The size of the largest class of a set. -/
def widest (label : α → Option δ) (s : Finset α) : Nat := s.sup (share label s)

section

variable {label : α → Option δ} {s t : Finset α} {a b : α} {d : δ}

theorem mem_classOf : b ∈ classOf label s d ↔ b ∈ s ∧ label b = some d := by
  simp [classOf]

theorem classOf_mono (h : s ⊆ t) : classOf label s d ⊆ classOf label t d :=
  Finset.filter_subset_filter _ h

theorem share_pos (h : a ∈ s) : 1 ≤ share label s a := by
  unfold share
  split
  · exact Nat.le_refl 1
  · rename_i d hd
    exact Finset.card_pos.mpr ⟨a, mem_classOf.mpr ⟨h, hd⟩⟩

theorem share_mono (h : s ⊆ t) : share label s a ≤ share label t a := by
  unfold share
  split
  · exact Nat.le_refl 1
  · exact Finset.card_le_card (classOf_mono h)

theorem share_le_widest (h : a ∈ s) : share label s a ≤ widest label s :=
  Finset.le_sup (f := share label s) h

theorem widest_mono (h : s ⊆ t) : widest label s ≤ widest label t := by
  apply Finset.sup_le
  intro b hb
  exact le_trans (share_mono h) (share_le_widest (h hb))

end

variable [DecidableEq α]

/-- Sets that grow from a seed, each time by an element of a pool whose class is least
represented. -/
inductive Grown (label : α → Option δ) (pool seed : Finset α) : Finset α → Prop
  | seed : Grown label pool seed seed
  | take {s : Finset α} {a : α} : Grown label pool seed s → a ∈ pool → a ∉ s →
      (∀ b ∈ pool, b ∉ s → load label s a ≤ load label s b) → Grown label pool seed (insert a s)

section

variable {label : α → Option δ} {pool seed s t : Finset α} {a b : α} {d : δ}

theorem share_insert_self (h : a ∉ s) : share label (insert a s) a = load label s a + 1 := by
  unfold share load
  split
  · rfl
  · rename_i d hd
    have hclass : classOf label (insert a s) d = insert a (classOf label s d) := by
      unfold classOf
      rw [Finset.filter_insert, if_pos hd]
    rw [hclass, Finset.card_insert_of_notMem]
    exact fun hmem => h (mem_classOf.mp hmem).1

theorem share_insert (h : a ∉ s) (hb : b ∈ insert a s) :
    share label (insert a s) b ≤ max (widest label s) (load label s a + 1) := by
  rcases Finset.mem_insert.mp hb with rfl | hb
  · rw [share_insert_self h]
    exact le_max_right _ _
  · cases hlabel : label b with
    | none =>
      have hshare : share label (insert a s) b = share label s b := by simp [share, hlabel]
      rw [hshare]
      exact le_trans (share_le_widest hb) (le_max_left _ _)
    | some d =>
      by_cases ha : label a = some d
      · have hshare : share label (insert a s) b = share label (insert a s) a := by
          simp [share, hlabel, ha]
        rw [hshare, share_insert_self h]
        exact le_max_right _ _
      · have hshare : share label (insert a s) b = share label s b := by
          simp [share, hlabel, classOf, Finset.filter_insert, ha]
        rw [hshare]
        exact le_trans (share_le_widest hb) (le_max_left _ _)

theorem widest_insert (h : a ∉ s) :
    widest label (insert a s) ≤ max (widest label s) (load label s a + 1) :=
  Finset.sup_le fun _ hb => share_insert h hb

/-! ## The exchange -/

/-- When all that is left outside a set has a load of `k` or more, a set whose classes are of `k`
at most and which goes outside only there is not larger. -/
theorem card_le_of_loads {k : Nat} (hk : 0 < k) (hout : ∀ b ∈ t \ s, k ≤ load label s b)
    (hwide : ∀ b ∈ t, share label t b ≤ k) : t.card ≤ s.card := by
  -- Each class that goes outside has no fewer members inside.
  have hclass : ∀ c ∈ (t \ s).image label,
      ((t \ s).filter (fun b => label b = c)).card ≤ ((s \ t).filter (fun b => label b = c)).card := by
    intro c hc
    obtain ⟨b, hb, rfl⟩ := Finset.mem_image.mp hc
    have hload := hout b hb
    have hshare := hwide b (Finset.mem_sdiff.mp hb).1
    cases hlabel : label b with
    | none =>
      simp only [load, hlabel] at hload
      omega
    | some d =>
      simp only [load, hlabel] at hload
      simp only [share, hlabel] at hshare
      have hcards : (classOf label t d).card ≤ (classOf label s d).card := le_trans hshare hload
      have hleft : (t \ s).filter (fun b => label b = some d) =
          classOf label t d \ classOf label s d := by
        ext x
        simp only [Finset.mem_filter, Finset.mem_sdiff, mem_classOf]
        tauto
      have hright : (s \ t).filter (fun b => label b = some d) =
          classOf label s d \ classOf label t d := by
        ext x
        simp only [Finset.mem_filter, Finset.mem_sdiff, mem_classOf]
        tauto
      rw [hleft, hright]
      have h₁ := Finset.card_sdiff_add_card_inter (classOf label t d) (classOf label s d)
      have h₂ := Finset.card_sdiff_add_card_inter (classOf label s d) (classOf label t d)
      rw [Finset.inter_comm] at h₂
      omega
  have hsum : (t \ s).card ≤ (s \ t).card := by
    calc (t \ s).card
        = ∑ c ∈ (t \ s).image label, ((t \ s).filter (fun b => label b = c)).card :=
          Finset.card_eq_sum_card_image label (t \ s)
      _ ≤ ∑ c ∈ (t \ s).image label, ((s \ t).filter (fun b => label b = c)).card :=
          Finset.sum_le_sum hclass
      _ = ((s \ t).filter (fun b => label b ∈ (t \ s).image label)).card :=
          Finset.sum_card_fiberwise_eq_card_filter _ _ label
      _ ≤ (s \ t).card := Finset.card_filter_le _ _
  have h₁ := Finset.card_sdiff_add_card_inter t s
  have h₂ := Finset.card_sdiff_add_card_inter s t
  rw [Finset.inter_comm] at h₂
  omega

theorem Grown.seed_subset (h : Grown label pool seed s) : seed ⊆ s := by
  induction h with
  | seed => exact subset_rfl
  | take _ _ _ _ ih => exact ih.trans (Finset.subset_insert _ _)

/-- No set that keeps the seed, takes the rest from the pool and is not smaller has a smaller
largest class. -/
theorem Grown.widest_le (h : Grown label pool seed s) (hseed : seed ⊆ t) (hpool : t ⊆ seed ∪ pool)
    (hcard : s.card ≤ t.card) : widest label s ≤ widest label t := by
  induction h with
  | seed => exact widest_mono hseed
  | @take s a hgrown ha hnot hleast ih =>
    rw [Finset.card_insert_of_notMem hnot] at hcard
    apply le_trans (widest_insert hnot)
    apply max_le (ih (by omega))
    -- Otherwise the classes of `t` are no larger than the load of the element taken.
    by_contra hlt
    have hwide : ∀ b ∈ t, share label t b ≤ load label s a :=
      fun b hb => le_trans (share_le_widest hb) (by omega)
    have hpos : 0 < load label s a := by
      obtain ⟨b, hb⟩ : t.Nonempty := Finset.card_pos.mp (by omega)
      exact lt_of_lt_of_le (share_pos hb) (hwide b hb)
    have hout : ∀ b ∈ t \ s, load label s a ≤ load label s b := by
      intro b hb
      obtain ⟨hbt, hbs⟩ := Finset.mem_sdiff.mp hb
      rcases Finset.mem_union.mp (hpool hbt) with hbseed | hbpool
      · exact absurd (hgrown.seed_subset hbseed) hbs
      · exact hleast b hbpool hbs
    have hle := card_le_of_loads hpos hout hwide
    omega

end

end Spread
