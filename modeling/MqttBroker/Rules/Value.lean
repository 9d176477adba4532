-- The values of the rule engine (`value.rs`, `num.rs`, `state.rs`) and the order
-- that replicated state keeps them in (`crdt.rs`): Erlang's term order, then the
-- identity of a value, then the bytes that it is written as.
import Mathlib.Data.Rat.Floor
import Mathlib.Data.List.Sort
import MqttBroker.Lib.Bytes
import MqttBroker.Lib.SortedJoin

namespace mqtt_rules

open ByteCodec SortedJoin

abbrev Bytes := List UInt8
abbrev BigInt := Int

/-! ## Numbers -/

structure F64 where
  bits : UInt64
  finite : bits.toNat / 2 ^ 52 % 2 ^ 11 ≠ 2047
  deriving DecidableEq

namespace F64

def exponent (f : F64) : Nat := f.bits.toNat / 2 ^ 52 % 2 ^ 11

def significand (f : F64) : Nat :=
  f.bits.toNat % 2 ^ 52 + if f.exponent = 0 then 0 else 2 ^ 52

/-- The number that the bits stand for. -/
def value (f : F64) : ℚ :=
  (if 2 ^ 63 ≤ f.bits.toNat then -1 else 1) * f.significand *
    (2 : ℚ) ^ ((max f.exponent 1 : Nat) - 1075 : BigInt)

/-- The integral part, towards zero. -/
def trunc (f : F64) : BigInt := if 0 ≤ f.value then ⌊f.value⌋ else ⌈f.value⌉

end F64

/-- One value of a rule. A map keeps its entries in the order of their insertion. -/
inductive Value
  | Undefined
  | Null
  | Bool (b : Bool)
  | Int (n : Int64)
  | Big (n : BigInt)
  | Float (f : F64)
  | Str (s : String)
  | Bin (b : Bytes)
  | Array (items : List Value)
  | Map (entries : List (String × Value))

def is_number : Value → Bool
  | .Int _ | .Big _ | .Float _ => true
  | _ => false

def is_binary : Value → Bool
  | .Str _ | .Bin _ => true
  | _ => false

def is_undefined : Value → Bool
  | .Undefined => true
  | _ => false

/-- The bytes of a string or a binary; none for another value. -/
def bytes_of : Value → Bytes
  | .Str s => stringBytes s
  | .Bin b => b
  | _ => []

/-- Text when the bytes are UTF-8. -/
def from_bytes (b : Bytes) : Value :=
  match String.fromUTF8? ⟨b.toArray⟩ with
  | some s => .Str s
  | none => .Bin b

def atom_name : Value → Option String
  | .Bool true => some "true"
  | .Bool false => some "false"
  | .Null => some "null"
  | .Undefined => some "undefined"
  | _ => none

def rank : Value → Nat
  | .Int _ | .Big _ | .Float _ => 0
  | .Bool _ | .Null | .Undefined => 1
  | .Map _ => 2
  | .Array _ => 3
  | .Str _ | .Bin _ => 4

def big : Value → Option BigInt
  | .Int n => some n.toInt
  | .Big n => some n
  | _ => none

/-- An integer against a float, exactly. -/
def cmp_int_float (n : Value) (f : F64) : Ordering :=
  let t := f.trunc
  let by_int := match n with
    | .Int i =>
      if -2 ^ 63 ≤ t ∧ t < 2 ^ 63 then compare i.toInt t
      else if 0 < t then .lt
      else .gt
    | _ => match big n with
      | some b => compare b t
      | none => .eq
  by_int.then (if (t : ℚ) < f.value then .lt else if f.value < t then .gt else .eq)

def num_cmp (a b : Value) : Ordering :=
  match a, b with
  | .Int a, .Int b => compare a.toInt b.toInt
  | .Float a, .Float b => compare a.value b.value
  | n, .Float f => cmp_int_float n f
  | .Float f, n => (cmp_int_float n f).swap
  | a, b => match big a, big b with
    | some a, some b => compare a b
    | _, _ => .eq

/-! ## The identity of a value -/

def write_len (n : Nat) : Bytes := toBe 8 n

def bit_length (n : Nat) : Nat := if n = 0 then 0 else n.log2 + 1

/-- The shortest two's complement of an integer, most significant byte first. -/
def to_signed_bytes_be (n : BigInt) : Bytes :=
  let size := bit_length (if 0 ≤ n then n else -n - 1).toNat / 8 + 1
  toBe size (n % 2 ^ (8 * size)).toNat

def bytes_cmp (a b : Bytes) : Ordering := List.compareLex (compareOn UInt8.toNat) a b

mutual

/-- The bytes of a value, the same for values that are exactly equal. -/
def term_key : Value → Bytes
  | .Undefined => [0]
  | .Null => [1]
  | .Bool false => [2]
  | .Bool true => [3]
  | .Int n => 4 :: toBe 8 n.toUInt64.toNat
  | .Big n => 5 :: write_len (to_signed_bytes_be n).length ++ to_signed_bytes_be n
  | .Float f => 6 :: toBe 8 f.bits.toNat
  | .Str s => 7 :: write_len (stringBytes s).length ++ stringBytes s
  | .Bin b => 7 :: write_len b.length ++ b
  | .Array items => 8 :: write_len items.length ++ item_keys items
  | .Map entries => 9 :: write_len entries.length ++
      ((entry_keys entries).insertionSort fun a b => (bytes_cmp a.1 b.1).isLE).flatMap fun e =>
        write_len e.1.length ++ e.1 ++ e.2

def item_keys : List Value → Bytes
  | [] => []
  | v :: l => term_key v ++ item_keys l

/-- The entries of a map, with the bytes of the key and of the value. -/
def entry_keys : List (String × Value) → List (Bytes × Bytes)
  | [] => []
  | (key, v) :: l => (stringBytes key, term_key v) :: entry_keys l

end

/-! ## The orders -/

/-- Erlang's order of two values that are not both arrays or both maps. -/
def term_cmp (a b : Value) : Ordering :=
  if is_number a && is_number b then num_cmp a b
  else if is_binary a && is_binary b then bytes_cmp (bytes_of a) (bytes_of b)
  else match atom_name a, atom_name b with
    | some a, some b => compare a b
    | _, _ => compare (rank a) (rank b)

mutual

/-- The term order. Two maps of one size are ordered by their identity. -/
def term_order : Value → Value → Ordering
  | .Array x, .Array y => item_order x y
  | .Map x, .Map y =>
    (compare x.length y.length).then (bytes_cmp (term_key (.Map x)) (term_key (.Map y)))
  | a, b => term_cmp a b

/-- Item by item, then the shorter first. -/
def item_order : List Value → List Value → Ordering
  | [], [] => .eq
  | [], _ :: _ => .lt
  | _ :: _, [] => .gt
  | a :: x, b :: y => (term_order a b).then (item_order x y)

end

/-! ## The term order is an order -/

instance : Std.TransCmp bytes_cmp := inferInstanceAs (Std.TransCmp (List.compareLex _))

theorem bytes_cmp_eq {a b : Bytes} (h : bytes_cmp a b = .eq) : a = b := by
  have hlawful : Std.LawfulEqCmp (compareOn UInt8.toNat) := by
    constructor
    intro x y hxy
    exact UInt8.toNat_inj.mp (compare_eq_iff_eq.mp hxy)
  have hlists : Std.LawfulEqCmp (List.compareLex (compareOn UInt8.toNat)) := inferInstance
  exact hlists.eq_of_compare h

/-- The number of a value, 0 for what is not a number. -/
def num_value : Value → ℚ
  | .Int n => (n.toInt : ℚ)
  | .Big n => (n : ℚ)
  | .Float f => f.value
  | _ => 0

theorem compare_cast (a b : BigInt) : compare (a : ℚ) (b : ℚ) = compare a b := by
  rcases lt_trichotomy a b with h | h | h
  · rw [compare_lt_iff_lt.mpr h, compare_lt_iff_lt.mpr (Int.cast_lt.mpr h)]
  · subst h
    rw [compare_eq_iff_eq.mpr rfl, compare_eq_iff_eq.mpr rfl]
  · rw [compare_gt_iff_gt.mpr h, compare_gt_iff_gt.mpr (Int.cast_lt.mpr h)]

/-- The integral parts decide, and then the fraction does. -/
theorem compare_trunc (n : BigInt) (f : F64) :
    (compare n f.trunc).then
      (if (f.trunc : ℚ) < f.value then .lt else if f.value < f.trunc then .gt else .eq) =
      compare (n : ℚ) f.value := by
  have hbelow : f.value < f.trunc → f.value > f.trunc - 1 := by
    intro h
    unfold F64.trunc at h ⊢
    split at h
    · exact absurd (Int.floor_le f.value) (not_le.mpr h)
    · rw [if_neg ‹_›]
      have := Int.ceil_lt_add_one f.value
      linarith
  have habove : f.value < f.trunc + 1 := by
    unfold F64.trunc
    split
    · exact Int.lt_floor_add_one f.value
    · have := Int.le_ceil f.value
      linarith
  rcases lt_trichotomy n f.trunc with h | h | h
  · rw [compare_lt_iff_lt.mpr h]
    apply Eq.symm
    apply compare_lt_iff_lt.mpr
    have hcast : (n : ℚ) + 1 ≤ f.trunc := by exact_mod_cast h
    by_cases hf : f.value < f.trunc
    · have := hbelow hf
      linarith
    · linarith [not_lt.mp hf]
  · subst h
    rw [compare_eq_iff_eq.mpr rfl, Ordering.then]
    split
    · rw [compare_lt_iff_lt.mpr ‹_›]
    · split
      · rw [compare_gt_iff_gt.mpr ‹_›]
      · rw [compare_eq_iff_eq.mpr (le_antisymm (not_lt.mp ‹_›) (not_lt.mp ‹_›))]
  · rw [compare_gt_iff_gt.mpr h]
    apply Eq.symm
    apply compare_gt_iff_gt.mpr
    have hcast : (f.trunc : ℚ) + 1 ≤ n := by exact_mod_cast h
    linarith

theorem cmp_int_float_eq {n : Value} {b : BigInt} (hn : big n = some b) (f : F64) :
    cmp_int_float n f = compare (b : ℚ) f.value := by
  rw [← compare_trunc]
  unfold cmp_int_float
  cases n with
  | Int i =>
    cases hn
    dsimp only
    -- Outside of 64 bits the sign of the float decides.
    have hlow : (-9223372036854775808 : Int) ≤ i.toInt := i.le_toInt
    have hhigh : i.toInt < (9223372036854775808 : Int) := i.toInt_lt
    split
    · rfl
    · rename_i hrange
      norm_num at hrange
      split
      · rename_i hpos
        rw [compare_lt_iff_lt.mpr (show i.toInt < f.trunc by
          unfold BigInt at *
          omega)]
      · rename_i hpos
        rw [compare_gt_iff_gt.mpr (show f.trunc < i.toInt by
          unfold BigInt at *
          omega)]
  | Big m =>
    cases hn
    rfl
  | _ => cases hn

theorem num_cmp_eq {a b : Value} (ha : is_number a = true) (hb : is_number b = true) :
    num_cmp a b = compare (num_value a) (num_value b) := by
  have hswap (p q : ℚ) : (compare p q).swap = compare q p :=
    Std.OrientedCmp.eq_swap.symm
  cases a with
  | Int i =>
    cases b with
    | Int j => exact (compare_cast _ _).symm
    | Big j => exact (compare_cast _ _).symm
    | Float f => exact cmp_int_float_eq (n := .Int i) rfl f
    | _ => cases hb
  | Big i =>
    cases b with
    | Int j => exact (compare_cast _ _).symm
    | Big j => exact (compare_cast _ _).symm
    | Float f => exact cmp_int_float_eq (n := .Big i) rfl f
    | _ => cases hb
  | Float f =>
    cases b with
    | Int j =>
      show (cmp_int_float (.Int j) f).swap = _
      rw [cmp_int_float_eq rfl, hswap]
      rfl
    | Big j =>
      show (cmp_int_float (.Big j) f).swap = _
      rw [cmp_int_float_eq rfl, hswap]
      rfl
    | Float g => rfl
    | _ => cases hb
  | _ => cases ha

def items_of : Value → List Value
  | .Array items => items
  | _ => []

def map_size : Value → Nat
  | .Map entries => entries.length
  | _ => 0

def map_key : Value → Bytes
  | .Map entries => term_key (.Map entries)
  | _ => []

/-- The bytes that a function gives, in their order. -/
def by_bytes (f : Value → Bytes) (a b : Value) : Ordering := bytes_cmp (f a) (f b)

instance (f : Value → Bytes) : Std.TransCmp (by_bytes f) := transCmp_on f

theorem by_bytes_same {f : Value → Bytes} {a b : Value} (h : f a = f b) :
    by_bytes f a b = .eq := by
  unfold by_bytes
  rw [h]
  exact Std.ReflCmp.compare_self

/-- What the term order compares before the items of two arrays. -/
def flat_order : Value → Value → Ordering :=
  compareLex (compareOn rank) <| compareLex (compareOn num_value) <|
    compareLex (compareOn atom_name) <| compareLex (compareOn map_size) <|
    compareLex (by_bytes map_key) (by_bytes bytes_of)

instance : Std.TransCmp flat_order := by
  unfold flat_order
  infer_instance

theorem keys_of_rank (a : Value) :
    (rank a ≠ 0 → is_number a = false ∧ num_value a = 0) ∧
      (rank a ≠ 1 → atom_name a = none) ∧
      (rank a ≠ 2 → map_size a = 0 ∧ map_key a = []) ∧
      (rank a ≠ 3 → items_of a = []) ∧
      (rank a ≠ 4 → is_binary a = false ∧ bytes_of a = []) := by
  cases a <;> simp [rank, is_number, num_value, atom_name, map_size, map_key, items_of,
    is_binary, bytes_of]

theorem is_number_of_rank {a : Value} (h : rank a = 0) : is_number a = true := by
  cases a <;> first | rfl | cases h

theorem is_binary_of_rank {a : Value} (h : rank a = 4) : is_binary a = true := by
  cases a <;> first | rfl | cases h

theorem atom_name_of_rank {a : Value} (h : rank a = 1) : ∃ n, atom_name a = some n := by
  cases a with
  | Bool b => cases b <;> exact ⟨_, rfl⟩
  | Null => exact ⟨_, rfl⟩
  | Undefined => exact ⟨_, rfl⟩
  | _ => cases h

theorem term_order_flat {a b : Value} (h : rank a ≠ rank b ∨ (rank a ≠ 2 ∧ rank a ≠ 3)) :
    term_order a b = term_cmp a b := by
  cases a with
  | Array x => cases b <;> first | rfl | simp [rank] at h
  | Map x => cases b <;> first | rfl | simp [rank] at h
  | _ => rfl

theorem term_cmp_of_rank_ne {a b : Value} (h : rank a ≠ rank b) :
    term_cmp a b = compare (rank a) (rank b) := by
  obtain ⟨ha0, ha1, -, -, ha4⟩ := keys_of_rank a
  obtain ⟨hb0, hb1, -, -, hb4⟩ := keys_of_rank b
  unfold term_cmp
  have hnumber : (is_number a && is_number b) = false := by
    by_cases h0 : rank a = 0
    · rw [(hb0 (by omega)).1, Bool.and_false]
    · rw [(ha0 h0).1, Bool.false_and]
  have hbinary : (is_binary a && is_binary b) = false := by
    by_cases h4 : rank a = 4
    · rw [(hb4 (by omega)).1, Bool.and_false]
    · rw [(ha4 h4).1, Bool.false_and]
  rw [hnumber, hbinary, if_neg (by simp), if_neg (by simp)]
  by_cases h1 : rank a = 1
  · rw [hb1 (by omega)]
    cases atom_name a <;> rfl
  · rw [ha1 h1]

theorem term_order_of_rank_eq {a b : Value} (h : rank a = rank b) :
    term_order a b = (flat_order a b).then (item_order (items_of a) (items_of b)) := by
  obtain ⟨ha0, ha1, ha2, ha3, ha4⟩ := keys_of_rank a
  obtain ⟨hb0, hb1, hb2, hb3, hb4⟩ := keys_of_rank b
  have hnum : rank a ≠ 0 → compareOn num_value a b = .eq := fun hr =>
    compareOn_same (by rw [(ha0 hr).2, (hb0 (h ▸ hr)).2])
  have hatom : rank a ≠ 1 → compareOn atom_name a b = .eq := fun hr =>
    compareOn_same (by rw [ha1 hr, hb1 (h ▸ hr)])
  have hsize : rank a ≠ 2 → compareOn map_size a b = .eq := fun hr =>
    compareOn_same (by rw [(ha2 hr).1, (hb2 (h ▸ hr)).1])
  have hmap : rank a ≠ 2 → by_bytes map_key a b = .eq := fun hr =>
    by_bytes_same (by rw [(ha2 hr).2, (hb2 (h ▸ hr)).2])
  have hitems : rank a ≠ 3 → item_order (items_of a) (items_of b) = .eq := fun hr => by
    rw [ha3 hr, hb3 (h ▸ hr)]
    rfl
  have hbytes : rank a ≠ 4 → by_bytes bytes_of a b = .eq := fun hr =>
    by_bytes_same (by rw [(ha4 hr).2, (hb4 (h ▸ hr)).2])
  have hranks : rank a = 0 ∨ rank a = 1 ∨ rank a = 2 ∨ rank a = 3 ∨ rank a = 4 := by
    cases a <;> simp [rank]
  simp only [flat_order, compareLex, compareOn_same h, Ordering.eq_then]
  rcases hranks with hr | hr | hr | hr | hr
  · have ha := is_number_of_rank hr
    have hb := is_number_of_rank (h ▸ hr)
    rw [hatom (by omega), hsize (by omega), hmap (by omega), hbytes (by omega),
      hitems (by omega), term_order_flat (.inr (by omega))]
    simp only [term_cmp, ha, hb, Bool.and_self, if_true, num_cmp_eq ha hb, Ordering.then_eq]
    rfl
  · obtain ⟨m, hm⟩ := atom_name_of_rank hr
    obtain ⟨n, hn⟩ := atom_name_of_rank (h ▸ hr)
    rw [hnum (by omega), hsize (by omega), hmap (by omega), hbytes (by omega),
      hitems (by omega), term_order_flat (.inr (by omega))]
    simp only [term_cmp, (ha0 (by omega)).1, (ha4 (by omega)).1, Bool.false_and, hm, hn,
      compareOn, Ordering.then_eq]
    rfl
  · rw [hnum (by omega), hatom (by omega), hbytes (by omega), hitems (by omega)]
    cases a with
    | Map x =>
      cases b with
      | Map y => simp only [term_order, Ordering.then_eq]; rfl
      | _ => cases h
    | _ => cases hr
  · rw [hnum (by omega), hatom (by omega), hsize (by omega), hmap (by omega), hbytes (by omega)]
    cases a with
    | Array x =>
      cases b with
      | Array y => simp only [term_order]; rfl
      | _ => cases h
    | _ => cases hr
  · have ha := is_binary_of_rank hr
    have hb := is_binary_of_rank (h ▸ hr)
    rw [hnum (by omega), hatom (by omega), hsize (by omega), hmap (by omega),
      hitems (by omega), term_order_flat (.inr (by omega))]
    simp only [term_cmp, (ha0 (by omega)).1, Bool.false_and, ha, hb, Ordering.then_eq]
    rfl

theorem term_order_eq (a b : Value) :
    term_order a b = (flat_order a b).then (item_order (items_of a) (items_of b)) := by
  by_cases h : rank a = rank b
  · exact term_order_of_rank_eq h
  · rw [term_order_flat (.inl h), term_cmp_of_rank_ne h]
    have hne : compare (rank a) (rank b) ≠ .eq := fun heq => h (compare_eq_iff_eq.mp heq)
    simp only [flat_order, compareLex, compareOn]
    cases hcmp : compare (rank a) (rank b) with
    | eq => exact absurd hcmp hne
    | _ => rfl

theorem item_order_nil_swap (y : List Value) : item_order [] y = (item_order y []).swap := by
  cases y <;> rfl

mutual

theorem term_order_swap (a b : Value) : term_order a b = (term_order b a).swap := by
  have hflat : flat_order a b = (flat_order b a).swap := Std.OrientedCmp.eq_swap
  rw [term_order_eq a, term_order_eq b, Ordering.swap_then, hflat]
  congr 1
  cases a with
  | Array items => exact item_order_swap items (items_of b)
  | _ => exact item_order_nil_swap (items_of b)

theorem item_order_swap (x y : List Value) : item_order x y = (item_order y x).swap := by
  cases x with
  | nil => cases y <;> rfl
  | cons a x =>
    cases y with
    | nil => rfl
    | cons b y =>
      simp only [item_order]
      rw [Ordering.swap_then, ← term_order_swap a b, ← item_order_swap x y]

end

theorem item_order_nil_composes (y z : List Value) :
    Composes (item_order [] y) (item_order y z) (item_order [] z) := by
  cases y <;> cases z <;> simp [item_order, Composes]

mutual

theorem term_order_composes (a b c : Value) :
    Composes (term_order a b) (term_order b c) (term_order a c) := by
  rw [term_order_eq a b, term_order_eq b c, term_order_eq a c]
  apply composes_then (composes_of_trans a b c)
  cases a with
  | Array items => exact item_order_composes items (items_of b) (items_of c)
  | _ => exact item_order_nil_composes (items_of b) (items_of c)

theorem item_order_composes (x y z : List Value) :
    Composes (item_order x y) (item_order y z) (item_order x z) := by
  cases x with
  | nil => exact item_order_nil_composes y z
  | cons a x =>
    cases y with
    | nil => cases z <;> simp [item_order, Composes]
    | cons b y =>
      cases z with
      | nil => simp [item_order, Composes]
      | cons c z =>
        exact composes_then (term_order_composes a b c) (item_order_composes x y z)

end

instance : Std.TransCmp term_order where
  eq_swap := term_order_swap _ _
  isLE_trans := (term_order_composes _ _ _).2.2

end mqtt_rules
