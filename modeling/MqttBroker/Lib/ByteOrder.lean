-- Byte strings in the order of a dictionary, as the keys of an ordered table:
-- the strings between two with one front share that front, and big-endian
-- numbers of one width stand in the order of the numbers.
import Mathlib.Data.List.Lex
import MqttBroker.Lib.Bytes

namespace ByteOrder

open ByteCodec (toBe)

/-- Bytes in their order as numbers. -/
instance linearOrderUInt8 : LinearOrder UInt8 where
  le_refl a := UInt8.le_refl a
  le_trans _ _ _ := UInt8.le_trans
  le_antisymm _ _ := UInt8.le_antisymm
  le_total a b := UInt8.le_total a b
  lt_iff_le_not_ge a b := by
    simp only [UInt8.lt_iff_toNat_lt, UInt8.le_iff_toNat_le]
    omega
  toDecidableLE := inferInstance

/-! ## Lists -/

section

variable {α : Type} [LinearOrder α]

theorem eq_of_sorted {β : Type} {R : β → β → Prop} {l l' : List β}
    (hirrefl : ∀ a, ¬ R a a) (htrans : ∀ a b c, R a b → R b c → R a c)
    (hl : l.Pairwise R) (hl' : l'.Pairwise R) (h : ∀ a, a ∈ l ↔ a ∈ l') : l = l' := by
  have hne : ∀ a b, R a b → a ≠ b := by
    rintro a _ hab rfl
    exact hirrefl a hab
  have hperm : l.Perm l' := by
    rw [List.perm_ext_iff_of_nodup (hl.imp (hne _ _)) (hl'.imp (hne _ _))]
    exact h
  apply hperm.eq_of_pairwise _ hl hl'
  intro a b _ _ hab hba
  exact absurd (htrans a b a hab hba) (hirrefl a)

theorem append_lt_append (front x y : List α) : front ++ x < front ++ y ↔ x < y := by
  induction front with
  | nil => simp
  | cons a front ih =>
    rw [List.cons_append, List.cons_append, List.cons_lt_cons_iff, ih]
    simp

theorem append_le_append (front x y : List α) : front ++ x ≤ front ++ y ↔ x ≤ y := by
  rw [← not_lt, ← not_lt, append_lt_append]

theorem between_append {front x y e : List α} (hlo : front ++ x ≤ e) (hhi : e ≤ front ++ y) :
    ∃ z, e = front ++ z ∧ x ≤ z ∧ z ≤ y := by
  induction front generalizing e with
  | nil => exact ⟨e, rfl, hlo, hhi⟩
  | cons a front ih =>
    cases e with
    | nil => exact absurd hlo (by simp [← not_lt])
    | cons b e =>
      rw [List.cons_append, ← not_lt, List.cons_lt_cons_iff, not_or] at hlo hhi
      obtain rfl : a = b := le_antisymm (not_lt.mp hlo.1) (not_lt.mp hhi.1)
      simp only [true_and, not_lt] at hlo hhi
      obtain ⟨z, rfl, hz⟩ := ih hlo.2 hhi.2
      exact ⟨z, rfl, hz⟩

theorem append_lt_iff {x y : List α} (h : x.length = y.length) (u v : List α) :
    x ++ u < y ++ v ↔ x < y ∨ x = y ∧ u < v := by
  induction x generalizing y with
  | nil =>
    have hy : y = [] := List.length_eq_zero_iff.mp h.symm
    simp [hy]
  | cons a x ih =>
    cases y with
    | nil => cases h
    | cons b y =>
      rw [List.cons_append, List.cons_append, List.cons_lt_cons_iff, List.cons_lt_cons_iff,
        ih (Nat.succ.inj h), List.cons.injEq]
      tauto

end

/-! ## Big-endian numbers -/

theorem toBe_inj {w a b : Nat} (ha : a < 256 ^ w) (hb : b < 256 ^ w) (h : toBe w a = toBe w b) :
    a = b := by
  rw [← ByteCodec.ofBe_toBe w a ha, h, ByteCodec.ofBe_toBe w b hb]

theorem toBe_lt_iff {w a b : Nat} (ha : a < 256 ^ w) (hb : b < 256 ^ w) :
    toBe w a < toBe w b ↔ a < b := by
  induction w generalizing a b with
  | zero =>
    have hzero : a = 0 ∧ b = 0 := by simpa using And.intro ha hb
    simp [hzero.1, hzero.2]
  | succ w ih =>
    have hdiv : ∀ n, n < 256 ^ (w + 1) → n / 256 < 256 ^ w := by
      intro n hn
      apply Nat.div_lt_of_lt_mul
      rw [Nat.mul_comm, ← Nat.pow_succ]
      exact hn
    have hbyte : ([UInt8.ofNat a] < [UInt8.ofNat b]) ↔ a % 256 < b % 256 := by
      rw [List.cons_lt_cons_iff, UInt8.lt_iff_toNat_lt, UInt8.toNat_ofNat', UInt8.toNat_ofNat']
      simp
    have hsame : toBe w (a / 256) = toBe w (b / 256) ↔ a / 256 = b / 256 :=
      ⟨toBe_inj (hdiv a ha) (hdiv b hb), fun h => by rw [h]⟩
    rw [toBe, toBe, append_lt_iff (by simp), ih (hdiv a ha) (hdiv b hb), hsame, hbyte]
    omega

theorem toBe_le_iff {w a b : Nat} (ha : a < 256 ^ w) (hb : b < 256 ^ w) :
    toBe w a ≤ toBe w b ↔ a ≤ b := by
  rw [← not_lt, toBe_lt_iff hb ha, not_lt]

end ByteOrder
