-- The first few of a list that pass a test: which they are, by how many that pass stand
-- before each. And the first few of a list that one element is put into.
import Mathlib.Data.List.Count
import Mathlib.Data.List.Nodup
import Mathlib.Data.List.TakeDrop

namespace Ranks

variable {α : Type} [DecidableEq α] {l : List α} {p q : α → Bool} {k : Nat} {a b e : α}

/-- What stands before an element. -/
def ahead (l : List α) (e : α) : List α := l.take (l.idxOf e)

theorem ahead_cons_self (e : α) (l : List α) : ahead (e :: l) e = [] := by
  simp [ahead]

theorem ahead_cons_ne (h : a ≠ e) : ahead (a :: l) e = a :: ahead l e := by
  simp [ahead, List.idxOf_cons_ne l h]

theorem length_ahead (h : e ∈ l) : (ahead l e).length = l.idxOf e := by
  have := List.idxOf_lt_length_of_mem h
  rw [ahead, List.length_take]
  omega

theorem ahead_nodup (hn : l.Nodup) (e : α) : (ahead l e).Nodup :=
  hn.sublist (List.take_sublist _ _)

theorem mem_ahead (hn : l.Nodup) (ha : a ∈ l) : a ∈ ahead l e ↔ l.idxOf a < l.idxOf e := by
  induction l with
  | nil => cases ha
  | cons b l ih =>
    obtain ⟨hb, hn⟩ := List.nodup_cons.mp hn
    by_cases he : b = e
    · subst he
      simp [ahead_cons_self]
    · rw [ahead_cons_ne he, List.idxOf_cons_ne l he]
      rcases List.mem_cons.mp ha with rfl | ha
      · simp
      · have hne : b ≠ a := by
          rintro rfl
          exact hb ha
        rw [List.mem_cons, List.idxOf_cons_ne l hne, ih hn ha]
        constructor
        · rintro (h | h)
          · exact absurd h.symm hne
          · omega
        · intro h
          right
          omega

/-- An element is among the first few that pass if it passes, and few enough that pass stand
before it. -/
theorem mem_take_filter (hn : l.Nodup) (he : e ∈ l) :
    e ∈ (l.filter p).take k ↔ p e = true ∧ (ahead l e).countP p < k := by
  induction l generalizing k with
  | nil => cases he
  | cons a l ih =>
    obtain ⟨ha, hn⟩ := List.nodup_cons.mp hn
    by_cases hae : a = e
    · subst hae
      rw [ahead_cons_self, List.countP_nil]
      have hno (k : Nat) : a ∉ (l.filter p).take k :=
        fun h => ha (List.mem_of_mem_filter (List.mem_of_mem_take h))
      by_cases hp : p a = true
      · rw [List.filter_cons_of_pos hp]
        cases k with
        | zero => simp
        | succ k => simp [hp]
      · rw [List.filter_cons_of_neg hp]
        simp [hno, hp]
    · have hmem : e ∈ l := (List.mem_cons.mp he).resolve_left (fun h => hae h.symm)
      rw [ahead_cons_ne hae]
      by_cases hp : p a = true
      · rw [List.filter_cons_of_pos hp, List.countP_cons_of_pos hp]
        cases k with
        | zero => simp
        | succ k =>
          rw [List.take_succ_cons, List.mem_cons, ih hn hmem]
          constructor
          · rintro (h | h)
            · exact absurd h.symm hae
            · exact ⟨h.1, by omega⟩
          · intro h
            exact .inr ⟨h.1, by omega⟩
      · rw [List.filter_cons_of_neg hp, List.countP_cons_of_neg hp, ih hn hmem]

theorem mem_take (hn : l.Nodup) (he : e ∈ l) : e ∈ l.take k ↔ l.idxOf e < k := by
  have h := mem_take_filter (p := fun _ => true) (k := k) hn he
  rw [List.filter_true] at h
  rw [h, List.countP_true, length_ahead he]
  simp

/-- One element less passes. -/
theorem countP_and_ne (hn : l.Nodup) (a : α) :
    l.countP (fun n => p n && decide (n ≠ a)) + (if a ∈ l ∧ p a = true then 1 else 0) =
      l.countP p := by
  induction l with
  | nil => simp
  | cons b l ih =>
    obtain ⟨hb, hn⟩ := List.nodup_cons.mp hn
    have ih := ih hn
    rw [List.countP_cons, List.countP_cons]
    by_cases hab : a = b
    · subst hab
      rw [if_neg (fun h => hb h.1), Nat.add_zero] at ih
      by_cases hp : p a = true
      · simpa [hp] using ih
      · simpa [hp] using ih
    · have hba : b ≠ a := fun h => hab h.symm
      simp only [ne_eq] at ih
      simp only [List.mem_cons, hab, false_or, hba, ne_eq, not_false_eq_true, decide_true,
        Bool.and_true]
      omega

theorem countP_ne (hn : l.Nodup) (he : e ∈ l) (a : α) :
    (ahead l e).countP (fun n => decide (n ≠ a)) + (if a ∈ ahead l e then 1 else 0) =
      l.idxOf e := by
  have h := countP_and_ne (p := fun _ => true) (ahead_nodup hn e) a
  simp only [Bool.true_and, and_true, List.countP_true, length_ahead he] at h
  exact h

theorem countP_ne_ne (hn : l.Nodup) (he : e ∈ l) (hab : a ≠ b) :
    (ahead l e).countP (fun n => decide (n ≠ a) && decide (n ≠ b)) +
      (if a ∈ ahead l e then 1 else 0) + (if b ∈ ahead l e then 1 else 0) = l.idxOf e := by
  have h := countP_and_ne (p := fun n => decide (n ≠ a)) (ahead_nodup hn e) b
  have hb : (b ∈ ahead l e ∧ decide (b ≠ a) = true) ↔ b ∈ ahead l e := by
    simp [hab.symm]
  simp only [hb] at h
  have h' := countP_ne hn he a
  omega

/-- A set is led by `o` and filled from the first `w` others; then `x` is left out and `o'` leads,
while `o` is still among the first. The others all stay exactly if `x` or `o'` was among the
first `w + 1`. -/
theorem others_stay_iff {w : Nat} {o o' x : α} (hn : l.Nodup) (ho : o ∈ l) (ho' : o' ∈ l)
    (hox : o' ≠ x)
    (hfirst : (ahead l o).countP (fun n => decide (n ≠ x) && decide (n ≠ o')) < w) :
    (∀ n ∈ l, n ≠ o → n ≠ x → n ≠ o' → (ahead l n).countP (fun m => decide (m ≠ o)) < w →
        (ahead l n).countP (fun m => decide (m ≠ x) && decide (m ≠ o')) < w) ↔
      x ∈ l.take (w + 1) ∨ o' ∈ l.take (w + 1) := by
  have hcount (n : α) (h : n ∈ l) := countP_ne hn h o
  have hcount' (n : α) (h : n ∈ l) := countP_ne_ne hn h hox.symm
  have hahead {m n : α} (h : m ∈ l) := mem_ahead (e := n) hn h
  have hx {n : α} (h : x ∈ ahead l n) : x ∈ l := List.mem_of_mem_take h
  have hlt {n : α} (h : n ∈ l) := List.idxOf_lt_length_of_mem h
  constructor
  · intro h
    by_contra hno
    rw [not_or, mem_take hn ho'] at hno
    obtain ⟨hxno, ho'no⟩ := hno
    have hxidx (hxl : x ∈ l) : w + 1 ≤ l.idxOf x ∧ l.idxOf x ≠ l.idxOf o' := by
      rw [mem_take hn hxl] at hxno
      refine ⟨by omega, fun he => hox ?_⟩
      exact ((List.idxOf_inj hxl).mp he).symm
    -- The last of the first `w + 1` does not stay.
    have hlen : w < l.length := by
      have := hlt ho'
      omega
    have he : l[w] ∈ l := List.getElem_mem hlen
    have hidx : l.idxOf l[w] = w := hn.idxOf_getElem w hlen
    have hidxo : l.idxOf o < w := by
      have ho1 := hcount' o ho
      rw [if_congr (hahead ho') rfl rfl] at ho1
      by_cases hxo : x ∈ ahead l o
      · obtain ⟨hx1, hx2⟩ := hxidx (hx hxo)
        have hx3 := (hahead (hx hxo)).mp hxo
        rw [if_pos hxo] at ho1
        split at ho1 <;> omega
      · rw [if_neg hxo] at ho1
        split at ho1 <;> omega
    have hne {n : α} (h : l.idxOf n ≠ w) : l[w] ≠ n := by
      rintro rfl
      exact h hidx
    have hxe : x ∉ ahead l l[w] := by
      intro hxa
      have h1 := (hahead (hx hxa)).mp hxa
      have h2 := (hxidx (hx hxa)).1
      omega
    have hstay := h l[w] he (hne (by omega)) ?_ (hne (by omega)) ?_
    · have hall := hcount' l[w] he
      rw [if_neg hxe, if_congr (hahead ho') rfl rfl, if_neg (by omega)] at hall
      omega
    · rintro rfl
      have := (hxidx he).1
      omega
    · have hall := hcount l[w] he
      rw [if_congr (hahead ho) rfl rfl, if_pos (by omega)] at hall
      omega
  · intro hroom n hnl hno hnx hno' hin
    have h1 := hcount n hnl
    have h2 := hcount' n hnl
    have hne' : l.idxOf n ≠ l.idxOf o' := fun h => hno' ((List.idxOf_inj hnl).mp h)
    have hnex : l.idxOf n ≠ l.idxOf x := fun h => hnx ((List.idxOf_inj hnl).mp h)
    rw [if_congr (hahead ho') rfl rfl] at h2
    rcases hroom with hroom | hroom
    · have hxl : x ∈ l := List.mem_of_mem_take hroom
      rw [mem_take hn hxl] at hroom
      rw [if_congr (hahead hxl) rfl rfl] at h2
      split at h1 <;> split at h2 <;> split at h2 <;> omega
    · rw [mem_take hn ho'] at hroom
      split at h1 <;> split at h2 <;> split at h2 <;> omega

omit [DecidableEq α] in
/-- One more element leaves the first few as they were, or takes a place among them; then the
last of them is dropped, if there were as many as could be. -/
theorem take_insert (front back : List α) (x : α) (n : Nat) :
    (front ++ x :: back).take n = (front ++ back).take n ∨
      ∃ f b, f ++ b = (if ((front ++ back).take n).length < n then (front ++ back).take n
        else ((front ++ back).take n).dropLast) ∧ (front ++ x :: back).take n = f ++ x :: b := by
  rcases Nat.lt_or_ge front.length n with hlt | hge
  · right
    refine ⟨front, back.take (n - front.length - 1), ?_, ?_⟩
    · split
      · rename_i hroom
        have hall : (front ++ back).length < n := by
          rw [List.length_take] at hroom
          omega
        rw [List.length_append] at hall
        rw [List.take_of_length_le (by omega), List.take_of_length_le (by simp; omega)]
      · rw [List.dropLast_eq_take, List.take_take, List.length_take]
        rename_i hfull
        rw [List.length_take] at hfull
        rw [List.take_append, List.take_of_length_le (l := front) (by omega)]
        congr 2
        omega
    · have hsub : n - front.length = n - front.length - 1 + 1 := by omega
      rw [List.take_append, List.take_of_length_le (Nat.le_of_lt hlt), hsub, List.take_succ_cons]
      simp
  · left
    rw [List.take_append_of_le_length hge, List.take_append_of_le_length hge]

end Ranks
