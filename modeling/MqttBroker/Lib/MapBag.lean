-- The values of an ordered map, counted: what one change of the map adds to them or takes
-- from them, for sums over everything that a map holds.
import Mathlib.Algebra.GroupWithZero.Nat
import Mathlib.Algebra.Order.BigOperators.Group.Multiset
import Mathlib.Data.Finset.Dedup
import Mathlib.Data.Finset.Card
import MqttBroker.Lib.OrderedMap

namespace BTreeMap

variable {κ α : Type} [LinearOrder κ]

/-- The values of a map, each as often as it is there. -/
def bag (m : BTreeMap κ α) : Multiset α := (m.toList.map Prod.snd : List α)

theorem toList_nodup (m : BTreeMap κ α) : m.toList.Nodup :=
  m.toList_sorted.imp (fun h => by
    rintro rfl
    exact absurd h (lt_irrefl _))

variable {m : BTreeMap κ α} {k : κ} {v : α}

/-- A map is one of its pairs and the rest. -/
theorem toList_erase_perm (h : m[k]? = some v) : m.toList.Perm ((k, v) :: (m.erase k).toList) := by
  have hout : (k, v) ∉ (m.erase k).toList := by
    rw [mem_toList, get_erase, if_pos rfl]
    simp
  refine (List.perm_ext_iff_of_nodup m.toList_nodup
    (List.nodup_cons.mpr ⟨hout, toList_nodup _⟩)).mpr (fun x => ?_)
  obtain ⟨k', v'⟩ := x
  rw [List.mem_cons, mem_toList, mem_toList, get_erase, Prod.mk.injEq]
  by_cases hk : k = k'
  · subst hk
    simp [h, eq_comm]
  · simp [hk, Ne.symm hk]

theorem bag_erase (h : m[k]? = some v) : bag m = v ::ₘ bag (m.erase k) := by
  have hperm := (toList_erase_perm h).map Prod.snd
  exact Multiset.coe_eq_coe.mpr hperm

/-- What is put in stands beside everything under other keys. -/
theorem bag_insert (m : BTreeMap κ α) (k : κ) (v : α) :
    bag (m.insert k v) = v ::ₘ bag (m.erase k) := by
  have hget : (m.insert k v)[k]? = some v := by simp
  have herase : (m.insert k v).erase k = m.erase k := by
    ext j x
    rw [get_erase, get_insert, get_erase]
    by_cases hj : k = j <;> simp [hj]
  rw [bag_erase hget, herase]

theorem erase_of_none (h : m[k]? = none) : m.erase k = m := by
  ext j x
  rw [get_erase]
  by_cases hj : k = j
  · subst hj
    simp [h]
  · simp [hj]

theorem bag_insert_new (v : α) (h : m[k]? = none) : bag (m.insert k v) = v ::ₘ bag m := by
  rw [bag_insert, erase_of_none h]

theorem mem_bag : v ∈ bag m ↔ ∃ k : κ, m[k]? = some v := by
  simp only [bag, Multiset.mem_coe, List.mem_map]
  constructor
  · rintro ⟨⟨k, w⟩, hm, rfl⟩
    exact ⟨k, (mem_toList m k w).mp hm⟩
  · rintro ⟨k, hk⟩
    exact ⟨(k, v), (mem_toList m k v).mpr hk, rfl⟩

theorem card_bag (m : BTreeMap κ α) : Multiset.card (bag m) = m.size := by
  simp [bag]

/-! ### Maps of lists -/

/-- What the lists of a map weigh together. -/
def weigh (g : α → Nat) (m : BTreeMap κ (List α)) : Nat :=
  ((bag m).map (fun q => (q.map g).sum)).sum

variable {g : α → Nat}

@[simp] theorem weigh_empty : weigh g (∅ : BTreeMap κ (List α)) = 0 := by
  simp [weigh, bag]

theorem weigh_erase {m : BTreeMap κ (List α)} {q : List α} (h : m[k]? = some q) :
    weigh g m = (q.map g).sum + weigh g (m.erase k) := by
  unfold weigh
  rw [bag_erase h, Multiset.map_cons, Multiset.sum_cons]

theorem weigh_insert (m : BTreeMap κ (List α)) (k : κ) (q : List α) :
    weigh g (m.insert k q) = (q.map g).sum + weigh g (m.erase k) := by
  unfold weigh
  rw [bag_insert, Multiset.map_cons, Multiset.sum_cons]

theorem weigh_push (m : BTreeMap κ (List α)) (k : κ) (a : α) :
    weigh g (m.insert k (m[k]?.getD [] ++ [a])) = weigh g m + g a := by
  rw [weigh_insert]
  rcases h : m[k]? with _ | q
  · rw [erase_of_none h]
    simp [Nat.add_comm]
  · rw [weigh_erase h]
    simp
    omega

variable {rest : List (κ × α)}

/-- The first pair of the walk has the least key. -/
theorem head_le (h : m.toList = (k, v) :: rest) {j : κ} {w : α} (hj : m[j]? = some w) : k ≤ j := by
  have hmem := (mem_toList m j w).mpr hj
  have hsorted := m.toList_sorted
  rw [h] at hmem hsorted
  rcases List.mem_cons.mp hmem with heq | hmem
  · exact le_of_eq (Prod.mk.inj heq).1.symm
  · exact le_of_lt ((List.pairwise_cons.mp hsorted).1 _ hmem)

theorem get_head (h : m.toList = (k, v) :: rest) : m[k]? = some v :=
  (mem_toList m k v).mp (h ▸ List.mem_cons_self)

end BTreeMap

namespace BTreeSet

variable {κ : Type} [LinearOrder κ]

theorem erase_erase (s : BTreeSet κ) (k : κ) : (s.erase k).erase k = s.erase k := by
  refine Std.ExtTreeSet.ext_mem (fun x => ?_)
  rw [mem_erase, mem_erase]
  tauto

variable {s : BTreeSet κ} {k : κ} {rest : List κ}

theorem head_le (h : s.toList = k :: rest) {j : κ} (hj : j ∈ s) : k ≤ j := by
  have hmem : j ∈ s.toList := by simpa using hj
  have hsorted := s.toList_sorted
  rw [h] at hmem hsorted
  rcases List.mem_cons.mp hmem with rfl | hmem
  · exact le_refl _
  · exact le_of_lt ((List.pairwise_cons.mp hsorted).1 _ hmem)

theorem mem_head (h : s.toList = k :: rest) : k ∈ s := by
  have hmem : k ∈ s.toList := h ▸ List.mem_cons_self
  simpa using hmem

theorem not_mem_of_nil (h : s.toList = []) (j : κ) : j ∉ s := by
  intro hj
  have hmem : j ∈ s.toList := by simpa using hj
  rw [h] at hmem
  cases hmem

/-! ## Sets counted -/

/-- The elements of a set, as a finite set. -/
def toFinset (s : BTreeSet κ) : Finset κ := s.toList.toFinset

@[simp] theorem mem_toFinset : k ∈ s.toFinset ↔ k ∈ s := by
  simp [toFinset]

@[simp] theorem card_toFinset (s : BTreeSet κ) : s.toFinset.card = s.size := by
  rw [toFinset, List.toFinset_card_of_nodup s.toList_nodup, Std.ExtTreeSet.length_toList]

@[simp] theorem toFinset_insert (s : BTreeSet κ) (k : κ) :
    toFinset (s.insert k) = insert k s.toFinset := by
  ext x
  rw [mem_toFinset, mem_insert, Finset.mem_insert, mem_toFinset]

variable {t : BTreeSet κ}

theorem toFinset_subset : s.toFinset ⊆ t.toFinset ↔ ∀ k ∈ s, k ∈ t := by
  simp [Finset.subset_iff]

/-- A part of a set that is as large is the whole set. -/
theorem eq_of_size_le (h : ∀ k ∈ s, k ∈ t) (hsize : t.size ≤ s.size) : s = t := by
  have heq : s.toFinset = t.toFinset := by
    apply Finset.eq_of_subset_of_card_le (toFinset_subset.mpr h)
    simpa using hsize
  refine Std.ExtTreeSet.ext_mem (fun k => ?_)
  rw [← mem_toFinset, heq, mem_toFinset]

theorem size_le_of_subset (h : ∀ k ∈ s, k ∈ t) : s.size ≤ t.size := by
  rw [← card_toFinset, ← card_toFinset]
  exact Finset.card_le_card (toFinset_subset.mpr h)

end BTreeSet
