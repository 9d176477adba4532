-- Ordered maps, as the Rust `BTreeMap`: the extensional tree map of the
-- standard library at the order of its keys, and the laws of a look-up
-- after each change. The walks go over the keys in increasing order.
import Mathlib.Order.Lattice.Nat
import Mathlib.Data.Prod.Lex
import Mathlib.Data.String.Basic
import Mathlib.Order.Lattice
import Std.Data.ExtTreeMap
import Std.Data.ExtTreeSet

/-- A map from ordered keys, with one value for each key. -/
abbrev BTreeMap (κ α : Type) [LinearOrder κ] := Std.ExtTreeMap κ α compare

/-- A set of ordered keys. -/
abbrev BTreeSet (κ : Type) [LinearOrder κ] := Std.ExtTreeSet κ compare

namespace BTreeMap

variable {κ α : Type} [LinearOrder κ]

/-- The keys of a linear order can be compared in a tree. -/
instance transCmp : Std.TransCmp (compare : κ → κ → Ordering) := inferInstance

/-! ## One change -/

variable (m : BTreeMap κ α) (k k' : κ) (p : κ → α → Bool)

theorem get_insert (v : α) : (m.insert k v)[k']? = if k = k' then some v else m[k']? := by
  simp [Std.ExtTreeMap.getElem?_insert]

theorem get_erase : (m.erase k)[k']? = if k = k' then none else m[k']? := by
  simp [Std.ExtTreeMap.getElem?_erase]

theorem get_alter (f : Option α → Option α) :
    (m.alter k f)[k']? = if k = k' then f m[k]? else m[k']? := by
  simp [Std.ExtTreeMap.getElem?_alter]

theorem get_filter (k : κ) :
    (m.filter p)[k]? = m[k]?.filter (p k) := Std.ExtTreeMap.getElem?_filter'

/-- A test that every pair passes keeps the map. -/
theorem filter_eq_self (h : ∀ (k : κ) v, m[k]? = some v → p k v = true) : m.filter p = m := by
  refine Std.ExtTreeMap.ext_getElem? (fun k => ?_)
  rw [get_filter]
  rcases hk : m[k]? with _ | v
  · rfl
  · simp [h k v hk]

/-- A test that no pair passes keeps nothing. -/
theorem filter_eq_empty (h : ∀ (k : κ) v, m[k]? = some v → p k v = false) : m.filter p = ∅ := by
  refine Std.ExtTreeMap.ext_getElem? (fun k => ?_)
  rw [get_filter]
  rcases hk : m[k]? with _ | v
  · simp
  · simp [h k v hk]

theorem get_filterMap (f : κ → α → Option α) (k : κ) :
    (m.filterMap f)[k]? = m[k]?.bind (f k) := Std.ExtTreeMap.getElem?_filterMap'

theorem get_map {β : Type} (f : κ → α → β) (k : κ) : (m.map f)[k]? = m[k]?.map (f k) :=
  Std.ExtTreeMap.getElem?_map

@[simp] theorem get_empty : (∅ : BTreeMap κ α)[k]? = none := by simp

/-- A map with more pairs put in, as `extend`: the later pair wins. -/
def extend (m more : BTreeMap κ α) : BTreeMap κ α := m ∪ more

theorem get_extend (more : BTreeMap κ α) (k : κ) : (m.extend more)[k]? = more[k]?.or m[k]? := by
  simp [extend, Std.ExtTreeMap.getElem?_union]

@[ext] theorem ext {m m' : BTreeMap κ α} (h : ∀ k : κ, m[k]? = m'[k]?) : m = m' :=
  Std.ExtTreeMap.ext_getElem? h

/-! ## The walk over a map -/

theorem mem_toList (v : α) : (k, v) ∈ m.toList ↔ m[k]? = some v :=
  Std.ExtTreeMap.mem_toList_iff_getElem?_eq_some

@[simp] theorem toList_empty : (∅ : BTreeMap κ α).toList = [] := by
  apply List.eq_nil_iff_forall_not_mem.mpr
  rintro ⟨k, v⟩ h
  rw [mem_toList] at h
  simp at h

theorem toList_sorted : m.toList.Pairwise (fun a b => a.1 < b.1) :=
  (Std.ExtTreeMap.ordered_keys_toList (t := m)).imp (fun h => by
    simpa [compare_lt_iff_lt] using h)

theorem mem_keys : k ∈ m.keys ↔ ∃ v, m[k]? = some v := by
  rw [Std.ExtTreeMap.mem_keys, Std.ExtTreeMap.mem_iff_isSome_getElem?, Option.isSome_iff_exists]

theorem keys_sorted : m.keys.Pairwise (· < ·) :=
  (Std.ExtTreeMap.ordered_keys (t := m)).imp (fun h => by simpa [compare_lt_iff_lt] using h)

/-! ## Pairs put in one after another -/

/-- Pairs of different keys put in: each is there, and what was there under other keys. -/
theorem get_foldl_insert (ps : List (κ × α)) (hd : ps.Pairwise (fun a b => a.1 ≠ b.1))
    (m : BTreeMap κ α) (k : κ) (v : α) :
    (ps.foldl (fun (m : BTreeMap κ α) p => m.insert p.1 p.2) m)[k]? = some v ↔
      (k, v) ∈ ps ∨ (∀ w, (k, w) ∉ ps) ∧ m[k]? = some v := by
  induction ps generalizing m with
  | nil => simp
  | cons p ps ih =>
    rw [List.pairwise_cons] at hd
    obtain ⟨key, w⟩ := p
    rw [List.foldl_cons, ih hd.2, get_insert]
    simp only [List.mem_cons, Prod.mk.injEq, not_or, not_and]
    by_cases hk : key = k
    · subst hk
      have hnot : ∀ w', (key, w') ∉ ps := fun w' hw' => hd.1 _ hw' rfl
      simp [hnot, eq_comm]
    · simp [hk, Ne.symm hk]

theorem foldl_insert_toList :
    m.toList.foldl (fun (m : BTreeMap κ α) p => m.insert p.1 p.2) ∅ = m := by
  have hd : m.toList.Pairwise (fun a b => a.1 ≠ b.1) := m.toList_sorted.imp (fun h => ne_of_lt h)
  refine ext (fun k => Option.ext (fun v => ?_))
  rw [get_foldl_insert _ hd, mem_toList]
  simp

theorem foldl_insert_filter :
    (m.toList.filter (fun x => p x.1 x.2)).foldl
      (fun (m : BTreeMap κ α) x => m.insert x.1 x.2) ∅ = m.filter p := by
  ext k v
  have hd : (m.toList.filter (fun x => p x.1 x.2)).Pairwise (fun a b => a.1 ≠ b.1) :=
    (m.toList_sorted.imp (fun h => ne_of_lt h)).filter _
  rw [get_foldl_insert _ hd, get_filter, List.mem_filter, mem_toList]
  simp only [get_empty, reduceCtorEq, and_false, or_false, Option.filter_eq_some_iff]

section group

variable {β : Type} (key : β → κ) (f : α → β → α) (d : α)

/-- Elements folded into the value of their group, as `entry(..).or_default()`. -/
def groupFold (xs : List β) (m : BTreeMap κ α) : BTreeMap κ α :=
  xs.foldl (fun (m : BTreeMap κ α) x => m.insert (key x) (f (m[key x]?.getD d) x)) m

theorem get_groupFold (xs : List β) (m : BTreeMap κ α) (k : κ) :
    (groupFold key f d xs m)[k]?.getD d =
      (xs.filter (fun x => decide (key x = k))).foldl f (m[k]?.getD d) := by
  induction xs generalizing m with
  | nil => rfl
  | cons x xs ih =>
    rw [groupFold, List.foldl_cons, ← groupFold, ih, get_insert]
    by_cases hk : key x = k
    · subst hk
      simp
    · simp [hk]

theorem get_groupFold_none (xs : List β) (m : BTreeMap κ α) (k : κ) :
    (groupFold key f d xs m)[k]? = none ↔ m[k]? = none ∧ ∀ x ∈ xs, key x ≠ k := by
  induction xs generalizing m with
  | nil => simp [groupFold]
  | cons x xs ih =>
    rw [groupFold, List.foldl_cons, ← groupFold, ih, get_insert]
    by_cases hk : key x = k
    · simp [hk]
    · simp [hk]

end group

/-! ## Dropping a prefix -/

/-- Pops the first key while it is at most `up_to`. -/
def dropThrough (m : BTreeMap κ α) (up_to : κ) : BTreeMap κ α :=
  (m.keys.takeWhile (fun k => decide (k ≤ up_to))).foldl (fun m k => m.erase k) m

theorem get_foldl_erase (ks : List κ) (m : BTreeMap κ α) (k : κ) :
    (ks.foldl (fun (m : BTreeMap κ α) k => m.erase k) m)[k]? = if k ∈ ks then none else m[k]? := by
  induction ks generalizing m with
  | nil => simp
  | cons a ks ih =>
    rw [List.foldl_cons, ih, get_erase]
    by_cases hk : k ∈ ks
    · simp [hk]
    · by_cases ha : a = k
      · simp [ha]
      · simp [hk, ha, Ne.symm ha]

/-- In an increasing list, the first keys up to a bound are all the keys up to it. -/
theorem mem_takeWhile_le {ks : List κ} (hs : ks.Pairwise (· < ·)) (b k : κ) :
    k ∈ ks.takeWhile (fun a => decide (a ≤ b)) ↔ k ∈ ks ∧ k ≤ b := by
  induction ks with
  | nil => simp
  | cons a ks ih =>
    rw [List.pairwise_cons] at hs
    by_cases ha : a ≤ b
    · rw [List.takeWhile_cons_of_pos (by simpa using ha), List.mem_cons, List.mem_cons, ih hs.2]
      constructor
      · rintro (rfl | ⟨h1, h2⟩)
        · exact ⟨Or.inl rfl, ha⟩
        · exact ⟨Or.inr h1, h2⟩
      · rintro ⟨rfl | h1, h2⟩
        · exact Or.inl rfl
        · exact Or.inr ⟨h1, h2⟩
    · rw [List.takeWhile_cons_of_neg (by simpa using ha)]
      simp only [List.not_mem_nil, List.mem_cons, false_iff, not_and, not_le]
      rintro (rfl | h1)
      · exact not_le.mp ha
      · exact lt_trans (not_le.mp ha) (hs.1 k h1)

/-- What is left above a dropped prefix. -/
theorem get_dropThrough (up_to k : κ) :
    (m.dropThrough up_to)[k]? = if k ≤ up_to then none else m[k]? := by
  rw [dropThrough, get_foldl_erase]
  by_cases hk : k ≤ up_to
  · simp only [hk, if_true, mem_takeWhile_le m.keys_sorted, and_true, ite_eq_left_iff, mem_keys]
    intro hnone
    rcases h : m[k]? with _ | v
    · rfl
    · exact absurd ⟨v, h⟩ hnone
  · simp [hk, mem_takeWhile_le m.keys_sorted]

/-! ## What a change does to the walk -/

/-- The walk is told by its pairs: it is the one list of them in the order of their keys. -/
theorem toList_unique {m : BTreeMap κ α} {l : List (κ × α)}
    (hl : l.Pairwise (fun a b => a.1 < b.1)) (h : ∀ k v, (k, v) ∈ l ↔ m[k]? = some v) :
    m.toList = l := by
  have hirrefl : ∀ a b : κ × α, a.1 < b.1 → a ≠ b := by
    rintro a _ hlt rfl
    exact lt_irrefl _ hlt
  have hperm : m.toList.Perm l := by
    rw [List.perm_ext_iff_of_nodup (m.toList_sorted.imp (hirrefl _ _)) (hl.imp (hirrefl _ _))]
    rintro ⟨k, v⟩
    rw [mem_toList, h]
  apply hperm.eq_of_pairwise _ m.toList_sorted hl
  intro a b _ _ hab hba
  exact absurd (lt_trans hab hba) (lt_irrefl _)

theorem size_eq : m.size = m.toList.length :=
  Std.ExtTreeMap.length_toList.symm

/-- A pair past all others ends the walk. -/
theorem toList_insert_last {m : BTreeMap κ α} {k : κ} {v : α}
    (h : ∀ (j : κ) w, m[j]? = some w → j < k) : (m.insert k v).toList = m.toList ++ [(k, v)] := by
  apply toList_unique
  · apply List.pairwise_append.mpr
    refine ⟨m.toList_sorted, List.pairwise_singleton _ _, ?_⟩
    rintro ⟨j, w⟩ hj b hb
    rw [List.mem_singleton.mp hb]
    exact h j w ((mem_toList m j w).mp hj)
  · intro j w
    rw [get_insert, List.mem_append, mem_toList, List.mem_singleton, Prod.mk.injEq]
    split
    · rename_i heq
      subst heq
      constructor
      · rintro (hj | ⟨-, rfl⟩)
        · exact absurd (h _ w hj) (lt_irrefl _)
        · rfl
      · intro hw
        exact .inr ⟨rfl, (Option.some.inj hw).symm⟩
    · rename_i hne
      constructor
      · rintro (hj | ⟨rfl, -⟩)
        · exact hj
        · exact absurd rfl hne
      · exact .inl

theorem toList_erase_first {m : BTreeMap κ α} {e : κ × α} {rest : List (κ × α)}
    (h : m.toList = e :: rest) : (m.erase e.1).toList = rest := by
  have hsorted := m.toList_sorted
  rw [h] at hsorted
  apply toList_unique hsorted.tail
  intro k v
  have hmem := mem_toList m k v
  rw [h, List.mem_cons] at hmem
  rw [get_erase]
  split
  · rename_i heq
    subst heq
    constructor
    · intro hk
      exact absurd (List.rel_of_pairwise_cons hsorted hk) (lt_irrefl _)
    · nofun
  · rename_i hne
    rw [← hmem]
    constructor
    · exact .inr
    · rintro (rfl | hk)
      · exact absurd rfl hne
      · exact hk

/-- Nothing is left without every key of the walk. -/
theorem foldl_erase_toList :
    (m.toList.map (·.1)).foldl (fun (m : BTreeMap κ α) k => m.erase k) m = ∅ := by
  ext k : 1
  rw [get_foldl_erase, get_empty]
  split
  · rfl
  · rename_i hk
    by_contra hsome
    obtain ⟨v, hv⟩ := Option.ne_none_iff_exists'.mp hsome
    exact hk (List.mem_map.mpr ⟨(k, v), (mem_toList m k v).mpr hv, rfl⟩)

theorem toList_map {β : Type} (f : κ → α → β) :
    (m.map f).toList = m.toList.map (fun e => (e.1, f e.1 e.2)) := by
  apply toList_unique
  · exact List.pairwise_map.mpr m.toList_sorted
  · intro k v
    rw [get_map, List.mem_map, Option.map_eq_some_iff]
    constructor
    · rintro ⟨⟨j, w⟩, hj, heq⟩
      cases heq
      exact ⟨w, (mem_toList m j w).mp hj, rfl⟩
    · rintro ⟨w, hw, rfl⟩
      exact ⟨(k, w), (mem_toList m k w).mpr hw, rfl⟩

/-! ## Emptiness -/

theorem isEmpty_iff : m.isEmpty = true ↔ ∀ k : κ, m[k]? = none := by
  rw [Std.ExtTreeMap.isEmpty_iff]
  constructor
  · rintro rfl k
    simp
  · intro h
    ext k : 1
    simp [h]

end BTreeMap

namespace BTreeSet

variable {κ : Type} [LinearOrder κ]

theorem mem_insert (s : BTreeSet κ) (k k' : κ) : k' ∈ s.insert k ↔ k' = k ∨ k' ∈ s := by
  rw [Std.ExtTreeSet.mem_insert, compare_eq_iff_eq, eq_comm]

theorem mem_erase (s : BTreeSet κ) (k k' : κ) : k' ∈ s.erase k ↔ k' ≠ k ∧ k' ∈ s := by
  rw [Std.ExtTreeSet.mem_erase, ne_eq, compare_eq_iff_eq, ne_eq, eq_comm]

theorem mem_foldl_insert (l : List κ) (s : BTreeSet κ) (k : κ) :
    k ∈ l.foldl (fun (s : BTreeSet κ) k => s.insert k) s ↔ k ∈ l ∨ k ∈ s := by
  induction l generalizing s with
  | nil => simp
  | cons a l ih =>
    rw [List.foldl_cons, ih, mem_insert, List.mem_cons]
    tauto

theorem foldl_insert_toList (s : BTreeSet κ) :
    s.toList.foldl (fun (s : BTreeSet κ) k => s.insert k) ∅ = s := by
  refine Std.ExtTreeSet.ext_mem (fun k => ?_)
  rw [mem_foldl_insert, Std.ExtTreeSet.mem_toList]
  simp

theorem toList_nodup (s : BTreeSet κ) : s.toList.Nodup :=
  (Std.ExtTreeSet.distinct_toList (t := s)).imp (fun h heq => h (compare_eq_iff_eq.mpr heq))

theorem toList_sorted (s : BTreeSet κ) : s.toList.Pairwise (· < ·) :=
  (Std.ExtTreeSet.ordered_toList (t := s)).imp (fun h => compare_lt_iff_lt.mp h)

theorem isEmpty_iff (s : BTreeSet κ) : s.isEmpty = true ↔ ∀ k, k ∉ s := by
  rw [Std.ExtTreeSet.isEmpty_iff]
  constructor
  · rintro rfl k
    exact Std.ExtTreeSet.not_mem_empty
  · intro h
    exact Std.ExtTreeSet.ext_mem (fun k => by simp [h k])

end BTreeSet
