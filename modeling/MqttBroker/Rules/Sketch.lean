-- The registers of a sketch (`crdt.rs`): listed while few are set, six bits each in
-- an array from then on. Two sketches merge register by register, and the registers
-- decide the form, so a merge is told by the larger of each.
import Mathlib.Algebra.Group.Nat.Defs
import Mathlib.Data.List.Sort
import Mathlib.Data.List.Count
import MqttBroker.Lib.SortedJoin

namespace mqtt_rules

open SortedJoin

def HLL_PRECISION : Nat := 14
def HLL_REGISTERS : Nat := 2 ^ HLL_PRECISION
def HLL_DENSE_BYTES : Nat := HLL_REGISTERS * 6 / 8
def HLL_SPARSE_MAX : Nat := HLL_DENSE_BYTES / 4
def HLL_MAX_RANK : UInt8 := 51

/-- The registers that are set, ascending, each with its value; or every register. -/
inductive Registers
  | Sparse (list : List (Nat × UInt8))
  | Dense (dense : List UInt8)
  deriving DecidableEq

structure Hll where
  registers : Registers
  deriving DecidableEq

/-! ## Six bits a register -/

/-- Two bytes, the lower first. -/
def dense_word (dense : List UInt8) (byte : Nat) : BitVec 16 :=
  (dense.getD (byte + 1) 0).toBitVec ++ (dense.getD byte 0).toBitVec

def dense_get (dense : List UInt8) (index : Nat) : UInt8 :=
  let byte := index * 6 / 8
  let shift := index * 6 % 8
  .ofBitVec ((dense_word dense byte >>> shift).setWidth 8 &&& 0x3f#8)

def dense_set (dense : List UInt8) (index : Nat) (rank : UInt8) : List UInt8 :=
  let byte := index * 6 / 8
  let shift := index * 6 % 8
  let word := (dense_word dense byte &&& ~~~(0x3f#16 <<< shift)) |||
    (rank.toBitVec.setWidth 16 <<< shift)
  (dense.set byte (.ofBitVec (word.setWidth 8))).set (byte + 1)
    (.ofBitVec ((word >>> 8).setWidth 8))

variable {n : Nat}

theorem getD_of_lt {l : List UInt8} (h : n < l.length) : l.getD n 0 = l[n] := by
  rw [List.getD_eq_getElem?_getD, List.getElem?_eq_getElem h, Option.getD_some]

def dense_bit (dense : List UInt8) (k : Nat) : Bool :=
  (dense.getD (k / 8) 0).toBitVec.getLsbD (k % 8)

variable {i : Nat}

theorem getLsbD_dense_word (dense : List UInt8) (byte : Nat) (h : i < 16) :
    (dense_word dense byte).getLsbD i = dense_bit dense (8 * byte + i) := by
  unfold dense_word dense_bit
  rw [BitVec.getLsbD_append]
  by_cases hi : i < 8
  · rw [if_pos hi, show (8 * byte + i) / 8 = byte by omega, show (8 * byte + i) % 8 = i by omega]
  · rw [if_neg hi, show (8 * byte + i) / 8 = byte + 1 by omega,
      show (8 * byte + i) % 8 = i - 8 by omega]

theorem getLsbD_six (i : Nat) : (0x3f#8).getLsbD i = decide (i < 6) := by
  by_cases h : i < 8
  · have hall : ∀ j < 8, (0x3f#8).getLsbD j = decide (j < 6) := by decide
    exact hall i h
  · rw [BitVec.getLsbD_of_ge _ _ (by omega), eq_comm, decide_eq_false_iff_not]
    omega

theorem getLsbD_dense_get (dense : List UInt8) (index i : Nat) :
    (dense_get dense index).toBitVec.getLsbD i =
      (decide (i < 6) && dense_bit dense (6 * index + i)) := by
  unfold dense_get
  dsimp only
  rw [BitVec.getLsbD_and, getLsbD_six, Bool.and_comm]
  by_cases hi : i < 6
  · rw [BitVec.getLsbD_setWidth, BitVec.getLsbD_ushiftRight,
      getLsbD_dense_word _ _ (by omega),
      show 8 * (index * 6 / 8) + (index * 6 % 8 + i) = 6 * index + i by omega,
      decide_eq_true (show i < 8 by omega), Bool.true_and]
  · simp [hi]

variable {rank : UInt8}

theorem getLsbD_rank (h : rank.toNat < 64) (hi : 6 ≤ i) : rank.toBitVec.getLsbD i = false := by
  apply Nat.testBit_lt_two_pow
  calc rank.toBitVec.toNat < 2 ^ 6 := h
    _ ≤ 2 ^ i := Nat.pow_le_pow_right (by omega) hi

theorem getLsbD_mask (shift : Nat) (hi : i < 16) :
    (0x3f#16 <<< shift).getLsbD i = decide (shift ≤ i ∧ i < shift + 6) := by
  have hall : ∀ j < 16, (0x3f#16).getLsbD j = decide (j < 6) := by decide
  rw [BitVec.getLsbD_shiftLeft, hall (i - shift) (by omega)]
  by_cases hs : i < shift
  · simp [hs]
  · rw [decide_eq_false hs, decide_eq_true hi, Bool.true_and, Bool.not_false, Bool.true_and]
    apply decide_eq_decide.mpr
    omega

/-- The two bytes that a register is written to. -/
def set_word (dense : List UInt8) (index : Nat) (rank : UInt8) : BitVec 16 :=
  (dense_word dense (index * 6 / 8) &&& ~~~(0x3f#16 <<< (index * 6 % 8))) |||
    (rank.toBitVec.setWidth 16 <<< (index * 6 % 8))

theorem dense_set_eq (dense : List UInt8) (index : Nat) (rank : UInt8) :
    dense_set dense index rank =
      (dense.set (index * 6 / 8) (.ofBitVec ((set_word dense index rank).setWidth 8))).set
        (index * 6 / 8 + 1) (.ofBitVec ((set_word dense index rank >>> 8).setWidth 8)) := rfl

variable {dense : List UInt8} {index : Nat}

theorem getLsbD_set_word (hrank : rank.toNat < 64) (hi : i < 16) :
    (set_word dense index rank).getLsbD i =
      if index * 6 % 8 ≤ i ∧ i < index * 6 % 8 + 6 then
        rank.toBitVec.getLsbD (i - index * 6 % 8)
      else dense_bit dense (8 * (index * 6 / 8) + i) := by
  unfold set_word
  rw [BitVec.getLsbD_or, BitVec.getLsbD_and, BitVec.getLsbD_not, getLsbD_mask _ hi,
    getLsbD_dense_word _ _ hi, BitVec.getLsbD_shiftLeft, BitVec.getLsbD_setWidth]
  split
  · rename_i hin
    simp only [hin, hi, and_self, decide_true, Bool.not_true, Bool.and_false, Bool.false_or,
      show ¬ i < index * 6 % 8 by omega, decide_false, Bool.not_false, Bool.true_and,
      show i - index * 6 % 8 < 16 by omega]
  · rename_i hout
    have hzero : (decide (i < 16) && !decide (i < index * 6 % 8) &&
        (decide (i - index * 6 % 8 < 16) && rank.toBitVec.getLsbD (i - index * 6 % 8))) =
        false := by
      by_cases hlow : i < index * 6 % 8
      · simp [hlow]
      · rw [getLsbD_rank hrank (by omega)]
        simp
    rw [hzero, decide_eq_false hout]
    simp [hi]

/-- Writing a register writes its six bits and no others. -/
theorem dense_bit_set {k : Nat} (hrank : rank.toNat < 64) (hk : k < 8 * dense.length) :
    dense_bit (dense_set dense index rank) k =
      if 6 * index ≤ k ∧ k < 6 * index + 6 then rank.toBitVec.getLsbD (k - 6 * index)
      else dense_bit dense k := by
  have hbyte : k / 8 < dense.length := by omega
  have hbit : k % 8 < 8 := Nat.mod_lt _ (by omega)
  conv_lhs => rw [dense_set_eq, dense_bit, List.getD_eq_getElem?_getD, List.getElem?_set,
    List.getElem?_set, List.length_set]
  by_cases hlow : index * 6 / 8 = k / 8
  · -- the lower byte
    rw [if_neg (by omega), if_pos hlow, if_pos (by omega), Option.getD_some]
    show ((set_word dense index rank).setWidth 8).getLsbD (k % 8) = _
    rw [BitVec.getLsbD_setWidth, decide_eq_true hbit, Bool.true_and,
      getLsbD_set_word hrank (by omega), show 8 * (index * 6 / 8) + k % 8 = k by omega,
      show k % 8 - index * 6 % 8 = k - 6 * index by omega]
    apply if_congr _ rfl rfl
    omega
  · by_cases hhigh : index * 6 / 8 + 1 = k / 8
    · -- the upper byte
      rw [if_pos hhigh, if_pos (by omega), Option.getD_some]
      show ((set_word dense index rank >>> 8).setWidth 8).getLsbD (k % 8) = _
      rw [BitVec.getLsbD_setWidth, decide_eq_true hbit, Bool.true_and,
        BitVec.getLsbD_ushiftRight, getLsbD_set_word hrank (by omega),
        show 8 * (index * 6 / 8) + (8 + k % 8) = k by omega,
        show 8 + k % 8 - index * 6 % 8 = k - 6 * index by omega]
      apply if_congr _ rfl rfl
      omega
    · rw [if_neg hhigh, if_neg hlow, if_neg (by omega), ← List.getD_eq_getElem?_getD]
      rfl

theorem dense_get_set {j : Nat} (hlen : dense.length = HLL_DENSE_BYTES) (hj : j < HLL_REGISTERS)
    (hrank : rank.toNat < 64) :
    dense_get (dense_set dense index rank) j = if j = index then rank else dense_get dense j := by
  have hbits : ∀ i < 6, 6 * j + i < 8 * dense.length := by
    intro i hi
    rw [hlen]
    unfold HLL_DENSE_BYTES HLL_REGISTERS HLL_PRECISION at *
    omega
  apply UInt8.toBitVec_inj.mp
  apply BitVec.eq_of_getLsbD_eq
  intro i hi
  rw [getLsbD_dense_get]
  by_cases hi6 : i < 6
  · rw [dense_bit_set hrank (hbits i hi6)]
    by_cases hji : j = index
    · subst hji
      rw [if_pos (by omega), if_pos rfl, show 6 * j + i - 6 * j = i by omega]
      simp [hi6]
    · rw [if_neg (by omega), if_neg hji, getLsbD_dense_get]
  · by_cases hji : j = index
    · rw [if_pos hji, getLsbD_rank hrank (by omega)]
      simp [hi6]
    · rw [if_neg hji, getLsbD_dense_get]
      simp [hi6]

/-- An array is told by its registers. -/
theorem dense_ext {d e : List UInt8} (hd : d.length = HLL_DENSE_BYTES)
    (he : e.length = HLL_DENSE_BYTES) (h : ∀ i < HLL_REGISTERS, dense_get d i = dense_get e i) :
    d = e := by
  have hbit : ∀ k < 8 * HLL_DENSE_BYTES, dense_bit d k = dense_bit e k := by
    intro k hk
    have hreg := h (k / 6) (by
      unfold HLL_DENSE_BYTES HLL_REGISTERS HLL_PRECISION at *
      omega)
    have hb := congrArg (fun r : UInt8 => r.toBitVec.getLsbD (k % 6)) hreg
    simp only [getLsbD_dense_get, show 6 * (k / 6) + k % 6 = k by omega,
      Nat.mod_lt k (show 6 > 0 by omega), decide_true, Bool.true_and] at hb
    exact hb
  apply List.ext_getElem (hd.trans he.symm)
  intro n hn hn'
  apply UInt8.toBitVec_inj.mp
  apply BitVec.eq_of_getLsbD_eq
  intro i hi
  have hb := hbit (8 * n + i) (by omega)
  unfold dense_bit at hb
  rw [show (8 * n + i) / 8 = n by omega, show (8 * n + i) % 8 = i by omega,
    getD_of_lt hn, getD_of_lt hn'] at hb
  exact hb

/-! ## The operations -/

/-- Entries of the list stand by their index. -/
def entry_cmp : Nat × UInt8 → Nat × UInt8 → Ordering := compareOn Prod.fst

/-- Raises a register to `rank` when it holds less, and tells whether it rose. -/
def raise (h : Hll) (index : Nat) (rank : UInt8) : Bool × Hll :=
  match h.registers with
  | .Dense dense =>
    if rank ≤ dense_get dense index then (false, h)
    else (true, ⟨.Dense (dense_set dense index rank)⟩)
  | .Sparse list =>
    match search entry_cmp list (index, rank) with
    | .ok at_ =>
      if rank ≤ (list.getD at_ (0, 0)).2 then (false, h)
      else (true, ⟨.Sparse (list.set at_ (index, rank))⟩)
    | .error at_ =>
      if list.length < HLL_SPARSE_MAX then (true, ⟨.Sparse (list.insertIdx at_ (index, rank))⟩)
      else
        let dense := list.foldl (fun d held => dense_set d held.1 held.2)
          (List.replicate HLL_DENSE_BYTES 0)
        (true, ⟨.Dense (dense_set dense index rank)⟩)

/-- One turn of the merge with an array. -/
def raise_from (dense : List UInt8) (h : Hll) (at_ : Nat) : Hll :=
  let rank := dense_get dense at_
  if rank ≠ 0 then (raise h at_ rank).2 else h

def Hll.merge (self other : Hll) : Hll :=
  match other.registers with
  | .Sparse list => list.foldl (fun h held => (raise h held.1 held.2).2) self
  | .Dense dense => (List.range HLL_REGISTERS).foldl (raise_from dense) self

/-! ## What the registers hold -/

def register : Registers → Nat → UInt8
  | .Sparse list, i => match get entry_cmp list (i, 0) with
    | some held => held.2
    | none => 0
  | .Dense dense, i => dense_get dense i

def set_count (r : Registers) : Nat := (List.range HLL_REGISTERS).countP fun i => register r i ≠ 0

def IsEntry (e : Nat × UInt8) : Prop := e.1 < HLL_REGISTERS ∧ 1 ≤ e.2 ∧ e.2 ≤ HLL_MAX_RANK

/-- Registers in the one form that they are written in. -/
inductive Canonical : Registers → Prop
  | sparse {list : List (Nat × UInt8)} : Sorted entry_cmp list → list.length ≤ HLL_SPARSE_MAX →
      (∀ e ∈ list, IsEntry e) → Canonical (.Sparse list)
  | dense {dense : List UInt8} : dense.length = HLL_DENSE_BYTES →
      (∀ i < HLL_REGISTERS, dense_get dense i ≤ HLL_MAX_RANK) →
      HLL_SPARSE_MAX < set_count (.Dense dense) → Canonical (.Dense dense)

def larger (a b : UInt8) : UInt8 := if b ≤ a then a else b

theorem toNat_larger (a b : UInt8) : (larger a b).toNat = max a.toNat b.toNat := by
  unfold larger
  split
  · rename_i h
    have := UInt8.le_iff_toNat_le.mp h
    omega
  · rename_i h
    rw [UInt8.le_iff_toNat_le] at h
    omega

theorem larger_self (a : UInt8) : larger a a = a := by
  apply UInt8.toNat_inj.mp
  rw [toNat_larger, max_self]

theorem larger_comm (a b : UInt8) : larger a b = larger b a := by
  apply UInt8.toNat_inj.mp
  rw [toNat_larger, toNat_larger, max_comm]

theorem larger_assoc (a b c : UInt8) : larger (larger a b) c = larger a (larger b c) := by
  apply UInt8.toNat_inj.mp
  simp only [toNat_larger, max_assoc]

@[simp] theorem larger_zero (a : UInt8) : larger a 0 = a := by
  apply UInt8.toNat_inj.mp
  rw [toNat_larger]
  simp

theorem larger_ne_zero {a : UInt8} (h : a ≠ 0) (b : UInt8) : larger a b ≠ 0 := by
  intro hzero
  apply h
  apply UInt8.toNat_inj.mp
  have hmax := congrArg UInt8.toNat hzero
  rw [toNat_larger] at hmax
  simp at hmax
  simp [hmax.1]

/-- The entry with the larger value. -/
def raised (a b : Nat × UInt8) : Nat × UInt8 := if b.2 ≤ a.2 then a else b

theorem raised_keeps : Keeps entry_cmp raised := by
  intro a b h
  unfold raised
  split
  · exact compareOn_same rfl
  · exact compareOn_same (compare_eq_iff_eq.mp h).symm

instance : Std.TransCmp entry_cmp := inferInstanceAs (Std.TransCmp (compareOn _))

theorem entry_cmp_eq {a b : Nat × UInt8} : entry_cmp a b = .eq ↔ a.1 = b.1 := compare_eq_iff_eq

theorem register_cons (e : Nat × UInt8) (l : List (Nat × UInt8)) (i : Nat) :
    register (.Sparse (e :: l)) i = if e.1 = i then e.2 else register (.Sparse l) i := by
  unfold register
  simp only [get_cons, entry_cmp_eq]
  by_cases h : e.1 = i
  · simp only [if_pos h]
  · simp only [if_neg h]

variable {e : Nat × UInt8} {l : List (Nat × UInt8)}

theorem register_of_lt (h : Sorted entry_cmp (e :: l)) : register (.Sparse l) e.1 = 0 := by
  unfold register
  have hle : entry_cmp (e.1, 0) e = .eq := entry_cmp_eq.mpr rfl
  simp only [get_tail h (show (entry_cmp (e.1, 0) e).isLE = true by rw [hle]; rfl)]

theorem register_union (hl : Sorted entry_cmp l) (index : Nat) (rank : UInt8) (i : Nat) :
    register (.Sparse (union entry_cmp raised l [(index, rank)])) i =
      if i = index then larger (register (.Sparse l) i) rank else register (.Sparse l) i := by
  have hnil : get entry_cmp [] (i, (0 : UInt8)) = none := rfl
  unfold register
  simp only [get_union raised_keeps hl (List.pairwise_singleton _ _), get_cons, entry_cmp_eq, hnil]
  by_cases h : i = index
  · subst h
    rw [if_pos rfl, if_pos rfl]
    rcases get entry_cmp l (i, 0) with _ | held
    · show rank = larger 0 rank
      rw [larger_comm, larger_zero]
    · show (raised held (i, rank)).2 = larger held.2 rank
      unfold raised larger
      split <;> rfl
  · rw [if_neg h, if_neg (Ne.symm h)]
    rcases get entry_cmp l (i, 0) with _ | held <;> rfl

theorem register_mem (hl : Sorted entry_cmp l) (he : e ∈ l) : register (.Sparse l) e.1 = e.2 := by
  induction l with
  | nil => cases he
  | cons d l ih =>
    rw [register_cons]
    rcases List.mem_cons.mp he with rfl | he
    · rw [if_pos rfl]
    · have hlt : compare d.1 e.1 = .lt := List.rel_of_pairwise_cons hl he
      rw [if_neg (by
        intro h
        rw [h, compare_eq_iff_eq.mpr rfl] at hlt
        cases hlt), ih hl.tail he]

theorem register_ne_zero (h : register (.Sparse l) i ≠ 0) : ∃ e ∈ l, e.1 = i := by
  unfold register at h
  rcases hg : get entry_cmp l (i, 0) with _ | held
  · simp only [hg] at h
    exact absurd rfl h
  · obtain ⟨hmem, heq⟩ := get_mem hg
    exact ⟨held, hmem, entry_cmp_eq.mp heq⟩

theorem set_count_sparse (hl : Sorted entry_cmp l) (hv : ∀ e ∈ l, IsEntry e) :
    set_count (.Sparse l) = l.length := by
  have hnodup : (l.map Prod.fst).Nodup := by
    rw [List.Nodup, List.pairwise_map]
    apply hl.imp
    intro a b hab heq
    rw [entry_cmp_eq.mpr heq] at hab
    cases hab
  have hperm : ((List.range HLL_REGISTERS).filter fun i => register (.Sparse l) i ≠ 0).Perm
      (l.map Prod.fst) := by
    apply (List.perm_ext_iff_of_nodup (List.nodup_range.filter _) hnodup).mpr
    intro i
    rw [List.mem_filter, List.mem_range, decide_eq_true_eq, List.mem_map]
    constructor
    · rintro ⟨-, hne⟩
      exact register_ne_zero hne
    · rintro ⟨e, he, rfl⟩
      obtain ⟨hlt, hpos, -⟩ := hv e he
      refine ⟨hlt, ?_⟩
      rw [register_mem hl he]
      intro hzero
      rw [hzero] at hpos
      exact absurd hpos (by decide)
  unfold set_count
  rw [List.countP_eq_length_filter, hperm.length_eq, List.length_map]

variable {r s : Registers}

theorem set_count_congr (h : ∀ i < HLL_REGISTERS, register r i = register s i) :
    set_count r = set_count s := by
  unfold set_count
  apply List.countP_congr
  intro i hi
  rw [h i (List.mem_range.mp hi)]

theorem get_eq_register (hv : ∀ e ∈ l, IsEntry e) (x : Nat × UInt8) :
    get entry_cmp l x = if register (.Sparse l) x.1 = 0 then none
      else some (x.1, register (.Sparse l) x.1) := by
  have hsame : get entry_cmp l x = get entry_cmp l (x.1, 0) := rfl
  rw [hsame]
  rcases hg : get entry_cmp l (x.1, 0) with _ | held
  · simp [register, hg]
  · obtain ⟨hmem, heq⟩ := get_mem hg
    obtain ⟨-, hpos, -⟩ := hv held hmem
    simp only [register, hg]
    rw [if_neg (by
      intro hzero
      rw [hzero] at hpos
      exact absurd hpos (by decide)), ← entry_cmp_eq.mp heq]

theorem register_of_ge (hv : ∀ e ∈ l, IsEntry e) (hi : ¬ i < HLL_REGISTERS) :
    register (.Sparse l) i = 0 := by
  by_contra hne
  obtain ⟨e, he, rfl⟩ := register_ne_zero hne
  exact hi (hv e he).1

theorem registers_ext (hr : Canonical r) (hs : Canonical s)
    (h : ∀ i < HLL_REGISTERS, register r i = register s i) : r = s := by
  have hcount := set_count_congr h
  cases hr with
  | @sparse l hl hlen hv =>
    rw [set_count_sparse hl hv] at hcount
    cases hs with
    | @sparse m hm hlen' hw =>
      rw [sorted_ext hl hm]
      intro x
      have hx : register (.Sparse l) x.1 = register (.Sparse m) x.1 := by
        by_cases hi : x.1 < HLL_REGISTERS
        · exact h x.1 hi
        · rw [register_of_ge hv hi, register_of_ge hw hi]
      rw [get_eq_register hv, get_eq_register hw, hx]
    | dense hm hmax hmany => omega
  | dense hd hmax hmany =>
    cases hs with
    | sparse hm hlen hw =>
      rw [set_count_sparse hm hw] at hcount
      omega
    | dense he hmax' hmany' => rw [dense_ext hd he h]

/-! ## Raising a register -/

theorem length_dense_set (dense : List UInt8) (index : Nat) (rank : UInt8) :
    (dense_set dense index rank).length = dense.length := by
  rw [dense_set_eq, List.length_set, List.length_set]

theorem toNat_rank (h : rank ≤ HLL_MAX_RANK) : rank.toNat < 64 := by
  have := UInt8.le_iff_toNat_le.mp h
  have hmax : HLL_MAX_RANK.toNat = 51 := rfl
  omega

theorem dense_get_zero (i : Nat) : dense_get (List.replicate HLL_DENSE_BYTES 0) i = 0 := by
  apply UInt8.toBitVec_inj.mp
  apply BitVec.eq_of_getLsbD_eq
  intro k hk
  have hbit : dense_bit (List.replicate HLL_DENSE_BYTES 0) (6 * i + k) = false := by
    unfold dense_bit
    rw [List.getD_eq_getElem?_getD, List.getElem?_replicate]
    split <;> simp
  rw [getLsbD_dense_get, hbit]
  simp

/-- The list written as an array. -/
theorem dense_get_foldl (hl : Sorted entry_cmp l) (hv : ∀ e ∈ l, IsEntry e)
    (hd : dense.length = HLL_DENSE_BYTES) :
    (l.foldl (fun d held => dense_set d held.1 held.2) dense).length = HLL_DENSE_BYTES ∧
      ∀ i < HLL_REGISTERS, dense_get (l.foldl (fun d held => dense_set d held.1 held.2) dense) i =
        if register (.Sparse l) i = 0 then dense_get dense i else register (.Sparse l) i := by
  induction l generalizing dense with
  | nil => exact ⟨hd, fun i _ => rfl⟩
  | cons e l ih =>
    obtain ⟨-, hpos, hmax⟩ := hv e (by simp)
    have hlen : (dense_set dense e.1 e.2).length = HLL_DENSE_BYTES := by
      rw [length_dense_set, hd]
    obtain ⟨hlength, hget⟩ := ih hl.tail (fun d hd => hv d (List.mem_cons_of_mem _ hd)) hlen
    refine ⟨hlength, ?_⟩
    intro i hi
    rw [List.foldl_cons, hget i hi, dense_get_set hd hi (toNat_rank hmax), register_cons]
    by_cases hei : e.1 = i
    · subst hei
      have hne : e.2 ≠ 0 := by
        intro hzero
        rw [hzero] at hpos
        exact absurd hpos (by decide)
      rw [register_of_lt hl, if_pos rfl, if_pos rfl, if_pos rfl, if_neg hne]
    · rw [if_neg (Ne.symm hei), if_neg hei]

variable {at_ : Nat}

theorem modify_of_getElem? {α : Type} [Inhabited α] {l : List α} {y : α} (h : l[at_]? = some y)
    (f : α → α) : l.modify at_ f = l.set at_ (f y) := by
  rw [List.modify_eq_set, h, Option.getD_some]

theorem raise_found (h : search entry_cmp l (index, rank) = .ok at_) :
    (raise ⟨.Sparse l⟩ index rank).2 =
      ⟨.Sparse (union entry_cmp raised l [(index, rank)])⟩ := by
  obtain ⟨held, hat, -⟩ := search_ok h
  rw [← place_eq_union]
  unfold raise place
  simp only [h]
  rw [List.getD_eq_getElem?_getD, hat, Option.getD_some, modify_of_getElem? hat]
  unfold raised
  split
  · obtain ⟨hlt, rfl⟩ := List.getElem?_eq_some_iff.mp hat
    rw [List.set_getElem_self]
  · rfl

theorem place_absent (h : search entry_cmp l (index, rank) = .error at_) :
    l.insertIdx at_ (index, rank) = union entry_cmp raised l [(index, rank)] := by
  rw [← place_eq_union]
  unfold place
  rw [h]

theorem isEntry_union (hv : ∀ d ∈ l, IsEntry d) (he : IsEntry e) :
    ∀ d ∈ union entry_cmp raised l [e], IsEntry d := by
  apply mem_union hv
  · intro d hd
    rw [List.mem_singleton.mp hd]
    exact he
  · intro d hd b hb _
    rw [List.mem_singleton.mp hb]
    unfold raised
    split
    · exact hv d hd
    · exact he

structure Raised (r s : Registers) (index : Nat) (rank : UInt8) : Prop where
  canonical : Canonical s
  register : ∀ i < HLL_REGISTERS,
    register s i = if i = index then larger (register r i) rank else register r i

theorem raised_sparse (hl : Sorted entry_cmp l) (hv : ∀ e ∈ l, IsEntry e)
    (he : IsEntry (index, rank))
    (hroom : (union entry_cmp raised l [(index, rank)]).length ≤ HLL_SPARSE_MAX) :
    Raised (.Sparse l) (.Sparse (union entry_cmp raised l [(index, rank)])) index rank :=
  ⟨.sparse (sorted_union raised_keeps hl (List.pairwise_singleton _ _)) hroom
    (isEntry_union hv he), fun i _ => register_union hl index rank i⟩

theorem raised_full (hl : Sorted entry_cmp l) (hv : ∀ e ∈ l, IsEntry e)
    (he : IsEntry (index, rank)) (hat : search entry_cmp l (index, rank) = .error at_)
    (hfull : HLL_SPARSE_MAX ≤ l.length) :
    Raised (.Sparse l) (.Dense (dense_set (l.foldl (fun d held => dense_set d held.1 held.2)
      (List.replicate HLL_DENSE_BYTES 0)) index rank)) index rank := by
  have hzeros : (List.replicate HLL_DENSE_BYTES (0 : UInt8)).length = HLL_DENSE_BYTES :=
    List.length_replicate
  obtain ⟨hlen, hget⟩ := dense_get_foldl hl hv hzeros
  have hrank := toNat_rank he.2.2
  have habsent : register (.Sparse l) index = 0 := by
    have hnone : get entry_cmp l (index, 0) = none := search_error hl hat
    simp [register, hnone]
  have hsorted := sorted_union raised_keeps hl (List.pairwise_singleton _ (index, rank))
  -- The array and the longer list hold the same registers.
  have hreg : ∀ i < HLL_REGISTERS, register (.Dense (dense_set (l.foldl
      (fun d held => dense_set d held.1 held.2) (List.replicate HLL_DENSE_BYTES 0)) index rank)) i =
      register (.Sparse (union entry_cmp raised l [(index, rank)])) i := by
    intro i hi
    rw [register_union hl]
    show dense_get _ i = _
    rw [dense_get_set hlen hi hrank, hget i hi, dense_get_zero]
    by_cases hindex : i = index
    · rw [if_pos hindex, if_pos hindex, hindex, habsent, larger_comm, larger_zero]
    · rw [if_neg hindex, if_neg hindex]
      split
      · rename_i hzero
        exact hzero.symm
      · rfl
  refine ⟨.dense (by rw [length_dense_set, hlen]) ?_ ?_, ?_⟩
  · intro i hi
    have hr := hreg i hi
    by_cases hzero : register (.Sparse (union entry_cmp raised l [(index, rank)])) i = 0
    · rw [show dense_get _ i = 0 from hr.trans hzero]
      decide
    · obtain ⟨e, hmem, rfl⟩ := register_ne_zero hzero
      rw [show dense_get _ e.1 = e.2 from hr.trans (register_mem hsorted hmem)]
      exact (isEntry_union hv he e hmem).2.2
  · rw [set_count_congr hreg, set_count_sparse hsorted (isEntry_union hv he),
      ← place_absent hat, length_insertIdx_search hat]
    omega
  · intro i hi
    rw [hreg i hi, register_union hl]

variable {h : Hll}

theorem raise_spec (hc : Canonical h.registers) (he : IsEntry (index, rank)) :
    Raised h.registers (raise h index rank).2.registers index rank := by
  obtain ⟨r⟩ := h
  cases hc with
  | @sparse l hl hlen hv =>
    rcases hat : search entry_cmp l (index, rank) with at_ | at_
    · by_cases hroom : l.length < HLL_SPARSE_MAX
      · have hlonger := length_insertIdx_search hat
        rw [place_absent hat] at hlonger
        simp only [raise, hat, if_pos hroom, place_absent hat]
        exact raised_sparse hl hv he (by omega)
      · simp only [raise, hat, if_neg hroom]
        exact raised_full hl hv he hat (by omega)
    · rw [raise_found hat]
      apply raised_sparse hl hv he
      rw [← place_eq_union, place, hat, List.length_modify]
      exact hlen
  | @dense dense hlen hmax hcount =>
    have hrank := toNat_rank he.2.2
    simp only [raise]
    split
    · rename_i hle
      refine ⟨.dense hlen hmax hcount, ?_⟩
      intro i hi
      split
      · rename_i hindex
        subst hindex
        show dense_get dense i = larger (dense_get dense i) rank
        rw [larger, if_pos hle]
      · rfl
    · rename_i hlt
      have hreg : ∀ i < HLL_REGISTERS, register (.Dense (dense_set dense index rank)) i =
          if i = index then larger (register (.Dense dense) i) rank
          else register (.Dense dense) i := by
        intro i hi
        show dense_get _ i = _
        rw [dense_get_set hlen hi hrank]
        split
        · rename_i hindex
          subst hindex
          show rank = larger (dense_get dense i) rank
          rw [larger, if_neg hlt]
        · rfl
      refine ⟨.dense (by rw [length_dense_set, hlen]) ?_ ?_, hreg⟩
      · intro i hi
        rw [dense_get_set hlen hi hrank]
        split
        · exact he.2.2
        · exact hmax i hi
      · apply Nat.lt_of_lt_of_le hcount
        unfold set_count
        apply List.countP_mono_left
        intro i hi hne
        rw [decide_eq_true_eq] at hne ⊢
        rw [hreg i (List.mem_range.mp hi)]
        split
        · exact larger_ne_zero hne rank
        · exact hne

/-! ## The merge of two sketches -/

theorem merge_list (hl : Sorted entry_cmp l) (hv : ∀ e ∈ l, IsEntry e)
    (hc : Canonical h.registers) :
    Canonical (l.foldl (fun h held => (raise h held.1 held.2).2) h).registers ∧
      ∀ i < HLL_REGISTERS,
        register (l.foldl (fun h held => (raise h held.1 held.2).2) h).registers i =
          larger (register h.registers i) (register (.Sparse l) i) := by
  induction l generalizing h with
  | nil =>
    refine ⟨hc, fun i _ => ?_⟩
    show register h.registers i = larger (register h.registers i) 0
    rw [larger_zero]
  | cons e l ih =>
    have hraise := raise_spec hc (hv e (by simp))
    obtain ⟨hcanonical, hreg⟩ := ih hl.tail (fun d hd => hv d (List.mem_cons_of_mem _ hd))
      hraise.canonical
    refine ⟨hcanonical, ?_⟩
    intro i hi
    rw [List.foldl_cons, hreg i hi, hraise.register i hi, register_cons]
    by_cases hei : i = e.1
    · subst hei
      rw [if_pos rfl, if_pos rfl, register_of_lt hl, larger_zero]
    · rw [if_neg hei, if_neg (Ne.symm hei)]

theorem isEntry_dense (hi : i < HLL_REGISTERS) (hmax : dense_get dense i ≤ HLL_MAX_RANK)
    (hne : dense_get dense i ≠ 0) : IsEntry (i, dense_get dense i) := by
  refine ⟨hi, ?_, hmax⟩
  show (1 : UInt8) ≤ dense_get dense i
  rw [UInt8.le_iff_toNat_le]
  have hnat : (dense_get dense i).toNat ≠ 0 := fun hz => hne (UInt8.toNat_inj.mp hz)
  have hone : (1 : UInt8).toNat = 1 := rfl
  omega

theorem merge_array (hmax : ∀ i < HLL_REGISTERS, dense_get dense i ≤ HLL_MAX_RANK)
    (hc : Canonical h.registers) (hn : n ≤ HLL_REGISTERS) :
    Canonical ((List.range n).foldl (raise_from dense) h).registers ∧
      ∀ i < HLL_REGISTERS, register ((List.range n).foldl (raise_from dense) h).registers i =
        if i < n then larger (register h.registers i) (dense_get dense i)
        else register h.registers i := by
  induction n with
  | zero => exact ⟨hc, fun i _ => rfl⟩
  | succ n ih =>
    obtain ⟨hcanonical, hreg⟩ := ih (by omega)
    rw [List.range_succ, List.foldl_append, List.foldl_cons, List.foldl_nil, raise_from]
    split
    · rename_i hne
      have hraise := raise_spec hcanonical (isEntry_dense hn (hmax n hn) hne)
      refine ⟨hraise.canonical, ?_⟩
      intro i hi
      rw [hraise.register i hi, hreg i hi]
      by_cases hin : i = n
      · subst hin
        rw [if_pos rfl, if_neg (by omega), if_pos (by omega)]
      · rw [if_neg hin]
        apply if_congr _ rfl rfl
        omega
    · rename_i hzero
      refine ⟨hcanonical, ?_⟩
      intro i hi
      rw [hreg i hi]
      by_cases hin : i = n
      · subst hin
        rw [if_neg (by omega), if_pos (by omega), not_ne_iff.mp hzero, larger_zero]
      · apply if_congr _ rfl rfl
        omega

variable {a b : Hll}

theorem merge_spec (ha : Canonical a.registers) (hb : Canonical b.registers) :
    Canonical (a.merge b).registers ∧ ∀ i < HLL_REGISTERS,
      register (a.merge b).registers i = larger (register a.registers i) (register b.registers i) := by
  obtain ⟨r⟩ := b
  cases hb with
  | sparse hl hlen hv => exact merge_list hl hv ha
  | @dense dense hlen hmax hmany =>
    obtain ⟨hcanonical, hreg⟩ := merge_array hmax ha (le_refl HLL_REGISTERS)
    have hmerge : a.merge ⟨.Dense dense⟩ =
        (List.range HLL_REGISTERS).foldl (raise_from dense) a := by simp only [Hll.merge]
    rw [hmerge]
    refine ⟨hcanonical, ?_⟩
    intro i hi
    rw [hreg i hi, if_pos hi]
    rfl

theorem hll_ext (ha : Canonical a.registers) (hb : Canonical b.registers)
    (h : ∀ i < HLL_REGISTERS, register a.registers i = register b.registers i) : a = b := by
  obtain ⟨r⟩ := a
  obtain ⟨s⟩ := b
  rw [show r = s from registers_ext ha hb h]

theorem hll_merge_comm (ha : Canonical a.registers) (hb : Canonical b.registers) :
    a.merge b = b.merge a := by
  obtain ⟨hab, hreg⟩ := merge_spec ha hb
  obtain ⟨hba, hreg'⟩ := merge_spec hb ha
  apply hll_ext hab hba
  intro i hi
  rw [hreg i hi, hreg' i hi, larger_comm]

theorem hll_merge_assoc {c : Hll} (ha : Canonical a.registers) (hb : Canonical b.registers)
    (hc : Canonical c.registers) : (a.merge b).merge c = a.merge (b.merge c) := by
  obtain ⟨hab, hreg⟩ := merge_spec ha hb
  obtain ⟨hbc, hreg'⟩ := merge_spec hb hc
  obtain ⟨hleft, hregl⟩ := merge_spec hab hc
  obtain ⟨hright, hregr⟩ := merge_spec ha hbc
  apply hll_ext hleft hright
  intro i hi
  rw [hregl i hi, hreg i hi, hregr i hi, hreg' i hi, larger_assoc]

theorem hll_merge_self (ha : Canonical a.registers) : a.merge a = a := by
  obtain ⟨haa, hreg⟩ := merge_spec ha ha
  apply hll_ext haa ha
  intro i hi
  rw [hreg i hi, larger_self]

end mqtt_rules
