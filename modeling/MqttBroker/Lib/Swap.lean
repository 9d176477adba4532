-- Two elements of a list changed with each other, and an element taken out by
-- the last one, as `swap` and `swap_remove` of the Rust vector.
import Mathlib.Data.List.Basic
import Mathlib.Data.List.Nodup
import Mathlib.Data.List.Perm.Basic

namespace SwapList

variable {α : Type}

/-- The elements at two indices change places. -/
def swap (l : List α) (i j : Nat) : List α :=
  match l[i]?, l[j]? with
  | some a, some b => (l.set i b).set j a
  | _, _ => l

/-- The last element takes the place of one. -/
def swap_remove (l : List α) (i : Nat) : List α :=
  match l.getLast? with
  | some last => (l.set i last).dropLast
  | none => l

@[simp] theorem length_swap (l : List α) (i j : Nat) : (swap l i j).length = l.length := by
  unfold swap
  split <;> simp

variable {i j : Nat}

theorem getElem?_swap (l : List α) (hi : i < l.length) (hj : j < l.length) (k : Nat) :
    (swap l i j)[k]? = if k = j then l[i]? else if k = i then l[j]? else l[k]? := by
  unfold swap
  rw [List.getElem?_eq_getElem hi, List.getElem?_eq_getElem hj]
  dsimp only
  by_cases hkj : k = j
  · subst hkj
    rw [if_pos rfl, List.getElem?_set_self (by simpa using hj)]
  · rw [if_neg hkj, List.getElem?_set_ne (Ne.symm hkj)]
    by_cases hki : k = i
    · subst hki
      rw [if_pos rfl, List.getElem?_set_self hi]
    · rw [if_neg hki, List.getElem?_set_ne (Ne.symm hki)]

variable {l : List α}

theorem mem_swap (hi : i < l.length) (hj : j < l.length) (a : α) : a ∈ swap l i j ↔ a ∈ l := by
  rw [List.mem_iff_getElem?, List.mem_iff_getElem?]
  constructor
  · rintro ⟨k, hk⟩
    rw [getElem?_swap l hi hj] at hk
    split at hk
    · exact ⟨i, hk⟩
    · split at hk
      · exact ⟨j, hk⟩
      · exact ⟨k, hk⟩
  · rintro ⟨k, hk⟩
    by_cases hkj : k = j
    · refine ⟨i, ?_⟩
      rw [getElem?_swap l hi hj]
      by_cases hij : i = j
      · rw [if_pos hij, hij, ← hkj, hk]
      · rw [if_neg hij, if_pos rfl, ← hkj, hk]
    · by_cases hki : k = i
      · refine ⟨j, ?_⟩
        rw [getElem?_swap l hi hj, if_pos rfl, ← hki, hk]
      · refine ⟨k, ?_⟩
        rw [getElem?_swap l hi hj, if_neg hkj, if_neg hki, hk]

variable {β : Type}

theorem swap_map (f : α → β) (l : List α) (i j : Nat) :
    (swap l i j).map f = swap (l.map f) i j := by
  unfold swap
  rw [List.getElem?_map, List.getElem?_map]
  cases l[i]? with
  | none => rfl
  | some a =>
    cases l[j]? with
    | none => rfl
    | some b => simp

/-- Different elements stay different. -/
theorem nodup_swap (hi : i < l.length) (hj : j < l.length) (h : l.Nodup) : (swap l i j).Nodup := by
  have hinj : ∀ {a b : Nat}, a < l.length → b < l.length → l[a]? = l[b]? → a = b := by
    intro a b ha hb heq
    rw [List.getElem?_eq_getElem ha, List.getElem?_eq_getElem hb, Option.some.injEq] at heq
    exact (h.getElem_inj_iff).mp heq
  rw [List.nodup_iff_getElem?_ne_getElem?]
  intro a b hab hb heq
  rw [length_swap] at hb
  rw [getElem?_swap l hi hj, getElem?_swap l hi hj] at heq
  have ha : a < l.length := by omega
  by_cases haj : a = j
  · rw [if_pos haj, if_neg (by omega)] at heq
    split at heq
    · have := hinj hi hj heq
      omega
    · have := hinj hi hb heq
      omega
  · rw [if_neg haj] at heq
    by_cases hai : a = i
    · rw [if_pos hai] at heq
      split at heq
      · have := hinj hj hi heq
        omega
      · rw [if_neg (by omega)] at heq
        have := hinj hj hb heq
        omega
    · rw [if_neg hai] at heq
      split at heq
      · have := hinj ha hi heq
        omega
      · split at heq
        · have := hinj ha hj heq
          omega
        · have := hinj ha hb heq
          omega

theorem getElem?_swap_remove (l : List α) (hi : i < l.length) (k : Nat) :
    (swap_remove l i)[k]? =
      if k + 1 < l.length then l[if k = i then l.length - 1 else k]? else none := by
  unfold swap_remove
  rcases hlast : l.getLast? with _ | last
  · rw [List.getLast?_eq_none_iff] at hlast
    subst hlast
    simp at hi
  · rw [List.getLast?_eq_getElem?] at hlast
    dsimp only
    rw [List.getElem?_dropLast, List.length_set]
    by_cases hk : k + 1 < l.length
    · rw [if_pos (by omega), if_pos hk]
      by_cases hki : k = i
      · subst hki
        rw [if_pos rfl, List.getElem?_set_self hi, hlast]
      · rw [if_neg hki, List.getElem?_set_ne (Ne.symm hki)]
    · rw [if_neg (by omega), if_neg hk]

theorem length_swap_remove (l : List α) (i : Nat) :
    (swap_remove l i).length = l.length - 1 := by
  unfold swap_remove
  rcases hlast : l.getLast? with _ | last
  · rw [List.getLast?_eq_none_iff] at hlast
    subst hlast
    rfl
  · simp

theorem swap_remove_map (f : α → β) (l : List α) (i : Nat) :
    (swap_remove l i).map f = swap_remove (l.map f) i := by
  unfold swap_remove
  rw [List.getLast?_map]
  cases l.getLast? with
  | none => rfl
  | some last => simp

theorem nodup_swap_remove (hi : i < l.length) (h : l.Nodup) : (swap_remove l i).Nodup := by
  rw [List.nodup_iff_getElem?_ne_getElem?]
  intro a b hab hb heq
  rw [length_swap_remove] at hb
  have hka : a + 1 < l.length := by omega
  have hkb : b + 1 < l.length := by omega
  have hlt : (if a = i then l.length - 1 else a) < l.length := by
    split <;> omega
  rw [getElem?_swap_remove l hi, getElem?_swap_remove l hi, if_pos hka, if_pos hkb] at heq
  have hinj := (List.getElem?_inj hlt h).mp heq
  split at hinj
  · split at hinj <;> omega
  · split at hinj <;> omega

/-- What is left without an element is the other ones. -/
theorem mem_swap_remove {a b : α} (h : l.Nodup) (hi : l[i]? = some a) :
    b ∈ swap_remove l i ↔ b ∈ l ∧ b ≠ a := by
  have hlt := (List.getElem?_eq_some_iff.mp hi).1
  rw [List.mem_iff_getElem?, List.mem_iff_getElem?]
  constructor
  · rintro ⟨k, hk⟩
    rw [getElem?_swap_remove l hlt] at hk
    split at hk
    · refine ⟨⟨_, hk⟩, ?_⟩
      rintro rfl
      have hinj := (List.getElem?_inj hlt h).mp (hi.trans hk.symm)
      split at hinj <;> omega
    · cases hk
  · rintro ⟨⟨k, hk⟩, hne⟩
    have hklt := (List.getElem?_eq_some_iff.mp hk).1
    have hki : k ≠ i := by
      rintro rfl
      rw [hi] at hk
      cases hk
      exact hne rfl
    by_cases hlast : k + 1 < l.length
    · refine ⟨k, ?_⟩
      rw [getElem?_swap_remove l hlt, if_pos hlast, if_neg hki, hk]
    · refine ⟨i, ?_⟩
      have hend : l.length - 1 = k := by omega
      rw [getElem?_swap_remove l hlt, if_pos (by omega), if_pos rfl, hend, hk]

end SwapList
