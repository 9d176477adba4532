-- Maps as lists of pairs, for values that are trees of such maps: an ordered
-- map cannot stand inside the type of its own values.
import Mathlib.Data.List.Basic
import Mathlib.Data.List.Nodup

namespace AssocList

variable {κ α : Type} [DecidableEq κ]

/-- The map without a key. -/
def drop (k : κ) (m : List (κ × α)) : List (κ × α) := m.filter (fun p => p.1 ≠ k)

/-- The map with a value put under a key. -/
def put (k : κ) (v : α) (m : List (κ × α)) : List (κ × α) := (k, v) :: drop k m

/-- No key twice. -/
def Distinct (m : List (κ × α)) : Prop := (m.map Prod.fst).Nodup

theorem lookup_cons_if (k key : κ) (v : α) (m : List (κ × α)) :
    List.lookup k ((key, v) :: m) = if k = key then some v else m.lookup k := by
  by_cases hk : k = key
  · subst hk
    simp
  · have hb : (k == key) = false := by simpa using hk
    rw [List.lookup_cons, hb, if_neg hk]

theorem lookup_drop (k key : κ) (m : List (κ × α)) :
    (drop key m).lookup k = if k = key then none else m.lookup k := by
  unfold drop
  induction m with
  | nil => simp
  | cons p m ih =>
    obtain ⟨first, v⟩ := p
    by_cases hf : first = key
    · subst hf
      rw [List.filter_cons_of_neg (by simp), ih, lookup_cons_if]
      by_cases hk : k = first
      · simp [hk]
      · simp [hk]
    · rw [List.filter_cons_of_pos (by simpa using hf), lookup_cons_if, lookup_cons_if, ih]
      by_cases hk : k = first
      · subst hk
        simp [hf]
      · simp [hk]

theorem lookup_put (k key : κ) (v : α) (m : List (κ × α)) :
    (put key v m).lookup k = if k = key then some v else m.lookup k := by
  unfold put
  rw [lookup_cons_if, lookup_drop]
  by_cases hk : k = key
  · simp [hk]
  · simp [hk]

theorem distinct_drop {m : List (κ × α)} (h : Distinct m) (k : κ) : Distinct (drop k m) :=
  h.sublist (List.filter_sublist.map _)

theorem distinct_put {m : List (κ × α)} (h : Distinct m) (k : κ) (v : α) :
    Distinct (put k v m) := by
  unfold Distinct put
  rw [List.map_cons, List.nodup_cons]
  refine ⟨?_, distinct_drop h k⟩
  simp [drop]

/-- The pairs of a map are the ones that a look-up finds. -/
theorem mem_iff_lookup {m : List (κ × α)} (h : Distinct m) (k : κ) (v : α) :
    (k, v) ∈ m ↔ m.lookup k = some v := by
  induction m with
  | nil => simp
  | cons p m ih =>
    obtain ⟨first, w⟩ := p
    unfold Distinct at h
    rw [List.map_cons, List.nodup_cons] at h
    rw [List.mem_cons, lookup_cons_if, ih h.2]
    by_cases hk : k = first
    · subst hk
      have hnone : m.lookup k ≠ some v := by
        intro hv
        exact h.1 (List.mem_map.mpr ⟨(k, v), (ih h.2).mpr hv, rfl⟩)
      simp [hnone, eq_comm]
    · simp [hk]

/-- A key that is there makes the map longer by one. -/
theorem length_drop {m : List (κ × α)} (h : Distinct m) {k : κ} {v : α}
    (hk : m.lookup k = some v) : m.length = (drop k m).length + 1 := by
  induction m with
  | nil => cases hk
  | cons p m ih =>
    obtain ⟨first, w⟩ := p
    unfold Distinct at h
    rw [List.map_cons, List.nodup_cons] at h
    rw [lookup_cons_if] at hk
    by_cases hf : k = first
    · subst hf
      have hsame : drop k m = m := by
        apply List.filter_eq_self.mpr
        intro p hp
        have hne : p.1 ≠ k := fun heq => h.1 (List.mem_map.mpr ⟨p, hp, heq⟩)
        simpa using hne
      unfold drop at hsame ⊢
      rw [List.filter_cons_of_neg (by simp), hsame, List.length_cons]
    · rw [if_neg hf] at hk
      have hlen := ih h.2 hk
      unfold drop at hlen ⊢
      rw [List.filter_cons_of_pos (by simpa using Ne.symm hf), List.length_cons, List.length_cons,
        hlen]

end AssocList
