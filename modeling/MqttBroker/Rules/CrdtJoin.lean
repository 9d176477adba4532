-- The merge of two key states is a join over what `decode` accepts, but for one tie:
-- two copies of one `lww` write, one that never expires and one that expires at the
-- last millisecond of 64 bits. Each side keeps its own there.
import MqttBroker.Rules.CrdtCodec

namespace mqtt_rules

open ByteCodec SortedJoin

/-! ## The exact order -/

theorem transCmp_written : Std.TransCmp written_cmp := by
  have hkind : Std.TransCmp fun a b : Bool × Bytes => compare a.1 b.1 := transCmp_on Prod.fst
  have hbytes : Std.TransCmp fun a b : Bool × Bytes => bytes_cmp a.2 b.2 := transCmp_on Prod.snd
  exact inferInstanceAs (Std.TransCmp (compareLex _ _))

instance (json : Json) : Std.TransCmp (exact_order json) := by
  have hwritten := transCmp_written
  have hlast : Std.TransCmp fun a b => written_cmp (written json a) (written json b) :=
    transCmp_on (written json)
  exact inferInstanceAs (Std.TransCmp (compareLex term_order (compareLex (by_bytes term_key) _)))

theorem exact_order_eq {json : Json} {m n : Nat} {v w : Value} (hv : Storable json m v)
    (hw : Storable json n w) (h : exact_order json v w = .eq) : v = w := by
  unfold exact_order written_cmp at h
  obtain ⟨-, -, hkind, hbytes⟩ : term_order v w = .eq ∧ bytes_cmp (term_key v) (term_key w) = .eq ∧
      compare (written json v).1 (written json w).1 = .eq ∧
      bytes_cmp (written json v).2 (written json w).2 = .eq := by
    simpa only [Ordering.then_eq_eq] using h
  have hsame : (written json v).1 = (written json w).1 := compare_eq_iff_eq.mp hkind
  have htext := bytes_cmp_eq hbytes
  cases hb : is_binary v with
  | true =>
    have hb' : is_binary w = true := by
      cases hc : is_binary w with
      | true => rfl
      | false => simp [written, hb, hc] at hsame
    simp only [written, hb, hb', if_true] at htext
    rw [← hv.binary hb, ← hw.binary hb', htext]
  | false =>
    have hb' : is_binary w = false := by
      cases hc : is_binary w with
      | false => rfl
      | true => simp [written, hb, hc] at hsame
    obtain ⟨-, text, hjson, hdecode⟩ := hv.text hb
    obtain ⟨-, text', hjson', hdecode'⟩ := hw.text hb'
    simp only [written, hb, hb', hjson, hjson', Bool.false_eq_true, if_false,
      Option.getD_some] at htext
    rw [htext] at hdecode
    exact Option.some.inj (hdecode.symm.trans hdecode')

/-! ## Counters -/

theorem row_max_keeps : Keeps row_cmp row_max := fun _ _ _ => Std.ReflCmp.compare_self

theorem row_max_assoc (a b c : Row) : row_max (row_max a b) c = row_max a (row_max b c) := by
  simp only [row_max, Nat.max_assoc]

theorem counts_merge_eq {a b : Counts} (ha : CountsOk a) (hb : CountsOk b) :
    a.merge b = ⟨unionUpTo row_cmp row_max MAX_COUNTER_NODES a.rows b.rows⟩ := by
  rw [Counts.merge, foldl_place row_max_keeps ha.sorted hb.sorted row_max_assoc, unionUpTo_eq]

theorem counts_merge_ok {a b : Counts} (ha : CountsOk a) (hb : CountsOk b) :
    CountsOk (a.merge b) := by
  rw [counts_merge_eq ha hb]
  refine ⟨sorted_unionUpTo row_max_keeps _ ha.sorted hb.sorted, length_unionUpTo _ _ _, ?_⟩
  apply mem_unionUpTo ha.rows hb.rows
  intro r hr q hq _
  have har := ha.rows r hr
  have hbq := hb.rows q hq
  exact ⟨har.node, max_lt har.up hbq.up, max_lt har.down hbq.down⟩

theorem counts_merge_comm {a b : Counts} (ha : CountsOk a) (hb : CountsOk b) :
    a.merge b = b.merge a := by
  rw [counts_merge_eq ha hb, counts_merge_eq hb ha,
    unionUpTo_comm row_max_keeps _ ha.sorted hb.sorted]
  intro r _ q _ heq
  have hnode : r.node = q.node := stringBytes_inj (bytes_cmp_eq heq)
  simp only [row_max, hnode, Nat.max_comm]

theorem counts_merge_assoc {a b c : Counts} (ha : CountsOk a) (hb : CountsOk b)
    (hc : CountsOk c) : (a.merge b).merge c = a.merge (b.merge c) := by
  rw [counts_merge_eq (counts_merge_ok ha hb) hc, counts_merge_eq ha (counts_merge_ok hb hc),
    counts_merge_eq ha hb, counts_merge_eq hb hc,
    unionUpTo_assoc row_max_keeps _ ha.sorted hb.sorted hc.sorted row_max_assoc]

theorem counts_merge_self {a : Counts} (ha : CountsOk a) : a.merge a = a := by
  rw [counts_merge_eq ha ha, unionUpTo_self row_max_keeps ha.sorted _ ha.bound]
  intro r _
  simp only [row_max, Nat.max_self]

/-! ## Sets -/

section sets

variable {json : Json} {a b c : Elements}

theorem first_of_eq (x y : Bytes × Value) :
    Elements.first_of json x y = least (fun p q => exact_order json p.2 q.2) x y := rfl

theorem first_of_keeps : Keeps element_cmp (Elements.first_of json) := by
  intro x y h
  rw [first_of_eq]
  rcases least_cases x y with hl | hl
  · rw [hl]
    exact Std.ReflCmp.compare_self
  · rw [hl]
    exact Std.OrientedCmp.eq_symm h

theorem first_of_assoc (x y z : Bytes × Value) :
    Elements.first_of json (Elements.first_of json x y) z =
      Elements.first_of json x (Elements.first_of json y z) := by
  have htrans : Std.TransCmp fun p q : Bytes × Value => exact_order json p.2 q.2 :=
    transCmp_on Prod.snd
  simp only [first_of_eq]
  exact least_assoc x y z

/-- The elements of a set stand in order, up to the bound, each with its identity. -/
structure ElementsIn (P : Nat → Value → Prop) (e : Elements) : Prop where
  sorted : Sorted element_cmp e.items
  bound : e.items.length ≤ MAX_SET_ELEMENTS
  items : ∀ item ∈ e.items, item.1 = term_key item.2 ∧ P MAX_ELEMENT_BYTES item.2

theorem elementsOk_iff : ElementsOk json a ↔ ElementsIn (Storable json) a := by
  constructor
  · intro h
    exact ⟨h.sorted, h.bound, fun item hi => ⟨(h.items item hi).identity, (h.items item hi).storable⟩⟩
  · intro h
    exact ⟨h.sorted, h.bound, fun item hi => ⟨(h.items item hi).1, (h.items item hi).2⟩⟩

variable {P : Nat → Value → Prop}

theorem elements_merge_in (ha : ElementsIn P a) (hb : ElementsIn P b) :
    ElementsIn P (a.merge json b) := by
  refine ⟨sorted_unionUpTo first_of_keeps _ ha.sorted hb.sorted, length_unionUpTo _ _ _, ?_⟩
  apply mem_unionUpTo ha.items hb.items
  intro x hx y hy _
  unfold Elements.first_of
  split
  · exact hb.items y hy
  · exact ha.items x hx

theorem elements_merge_comm (ha : ElementsOk json a) (hb : ElementsOk json b) :
    a.merge json b = b.merge json a := by
  unfold Elements.merge
  rw [unionUpTo_comm first_of_keeps _ ha.sorted hb.sorted]
  intro x hx y hy _
  have htrans : Std.TransCmp fun p q : Bytes × Value => exact_order json p.2 q.2 :=
    transCmp_on Prod.snd
  simp only [first_of_eq]
  apply least_comm
  intro heq
  have hval := exact_order_eq (ha.items x hx).storable (hb.items y hy).storable heq
  apply Prod.ext _ hval
  rw [(ha.items x hx).identity, (hb.items y hy).identity, hval]

theorem elements_merge_assoc (ha : ElementsIn P a) (hb : ElementsIn P b) (hc : ElementsIn P c) :
    (a.merge json b).merge json c = a.merge json (b.merge json c) := by
  unfold Elements.merge
  rw [unionUpTo_assoc first_of_keeps _ ha.sorted hb.sorted hc.sorted first_of_assoc]

theorem elements_merge_self (ha : ElementsIn P a) : a.merge json a = a := by
  unfold Elements.merge
  rw [unionUpTo_self first_of_keeps ha.sorted _ ha.bound]
  intro x _
  rw [first_of_eq, least_self]

end sets

/-! ## Expiries -/

theorem later_self (a : UInt64) : later a a = a := by
  unfold later
  split
  · rename_i h
    rcases h with h | h <;> exact h.symm
  · split <;> rfl

theorem later_comm (a b : UInt64) : later a b = later b a := by
  unfold later
  by_cases h : a = 0 ∨ b = 0
  · rw [if_pos h, if_pos h.symm]
  · rw [if_neg h, if_neg (show ¬ (b = 0 ∨ a = 0) from fun hc => h hc.symm)]
    apply UInt64.toNat_inj.mp
    simp only [apply_ite UInt64.toNat, UInt64.le_iff_toNat_le]
    split <;> split <;> omega

theorem later_assoc (a b c : UInt64) : later (later a b) c = later a (later b c) := by
  by_cases h : a = 0 ∨ b = 0 ∨ c = 0
  · rcases h with h | h | h <;> simp [later, h]
  · obtain ⟨ha, hb, hc⟩ : a ≠ 0 ∧ b ≠ 0 ∧ c ≠ 0 := by
      simpa only [not_or] using h
    have hnz : ∀ x y : UInt64, x ≠ 0 → y ≠ 0 → later x y ≠ 0 := by
      intro x y hx hy
      unfold later
      rw [if_neg (by simp [hx, hy])]
      split <;> assumption
    have hnat : ∀ x y : UInt64, x ≠ 0 → y ≠ 0 → (later x y).toNat = max x.toNat y.toNat := by
      intro x y hx hy
      unfold later
      rw [if_neg (by simp [hx, hy])]
      simp only [apply_ite UInt64.toNat, UInt64.le_iff_toNat_le]
      split <;> omega
    apply UInt64.toNat_inj.mp
    rw [hnat _ _ (hnz a b ha hb) hc, hnat a b ha hb, hnat _ _ ha (hnz b c hb hc), hnat b c hb hc,
      Nat.max_assoc]

/-- Two expiries that the tie break of `lww` cannot tell apart. -/
def SameEnd (e f : UInt64) : Prop :=
  (e = 0 ∧ f = 18446744073709551615) ∨ (e = 18446744073709551615 ∧ f = 0)

theorem never_last_eq {e f : UInt64} (h : never_last e = never_last f) : e = f ∨ SameEnd e f := by
  unfold never_last at h
  split at h <;> split at h
  · rename_i he hf
    exact .inl (he.trans hf.symm)
  · rename_i he hf
    exact .inr (.inl ⟨he, h.symm⟩)
  · rename_i he hf
    exact .inr (.inr ⟨h, hf⟩)
  · exact .inl h

/-! ## Two things of one type -/

/-- What a key holds, with its expiry. -/
abbrev Held := Data × UInt64

def stamp_of : Data → Stamp
  | .Lww stamp _ | .First stamp _ => stamp
  | _ => Stamp.ZERO

def value_of : Data → Value
  | .Lww _ v | .First _ v | .Max v | .Min v => v
  | _ => .Undefined

/-- A surviving `lww` write wins, then the type with the higher tag. -/
def precedence (p : Held) : Nat :=
  match p.1 with
  | .Lww _ _ => 8
  | d => (tag d).toNat

section held

variable (json : Json)

/-- The later write, then the later value, then the later expiry. -/
def lww_order (p q : Held) : Ordering :=
  (compare (stamp_of p.1) (stamp_of q.1)).then ((exact_order json (value_of p.1) (value_of q.1)).then
    (compare (never_last p.2).toNat (never_last q.2).toNat))

/-- The earlier write, then the earlier value. -/
def first_order (p q : Data) : Ordering :=
  (compare (stamp_of p) (stamp_of q)).then (exact_order json (value_of p) (value_of q))

/-- The larger number, then the one that `min` keeps. -/
def max_order (v w : Value) : Ordering := (term_order v w).then (exact_order json w v)

instance : Std.TransCmp (lww_order json) := by
  have hstamp : Std.TransCmp fun p q : Held => compare (stamp_of p.1) (stamp_of q.1) :=
    transCmp_on fun p : Held => stamp_of p.1
  have hvalue : Std.TransCmp fun p q : Held => exact_order json (value_of p.1) (value_of q.1) :=
    transCmp_on fun p : Held => value_of p.1
  have hexpiry : Std.TransCmp fun p q : Held =>
      compare (never_last p.2).toNat (never_last q.2).toNat :=
    transCmp_on fun p : Held => (never_last p.2).toNat
  exact inferInstanceAs (Std.TransCmp (compareLex _ (compareLex _ _)))

instance : Std.TransCmp (first_order json) := by
  have hstamp : Std.TransCmp fun p q : Data => compare (stamp_of p) (stamp_of q) :=
    transCmp_on stamp_of
  have hvalue : Std.TransCmp fun p q : Data => exact_order json (value_of p) (value_of q) :=
    transCmp_on value_of
  exact inferInstanceAs (Std.TransCmp (compareLex _ _))

instance : Std.TransCmp (max_order json) := by
  have hflip : Std.TransCmp fun v w => exact_order json w v := inferInstance
  exact inferInstanceAs (Std.TransCmp (compareLex term_order _))

/-- What two things of one type become. -/
def same (p q : Held) : Held :=
  match p.1, q.1 with
  | .Lww _ _, .Lww _ _ => if lww_order json p q = .lt then q else p
  | a, b => (join_same json a b, later p.2 q.2)

theorem join_eq (p q : Held) :
    join json p.1 p.2 q.1 q.2 = layered precedence (same json) p q := by
  obtain ⟨d, e⟩ := p
  obtain ⟨d', f⟩ := q
  cases d <;> cases d' <;> rfl

end held

section laws

variable {json : Json} {deleted : Stamp} {P : Nat → Value → Prop}

/-- What a state that has seen `deleted` may hold, of values that `P` allows. -/
def DataIn (P : Nat → Value → Prop) (deleted : Stamp) : Data → Prop
  | .Lww stamp v | .First stamp v => deleted < stamp ∧ P MAX_VALUE_BYTES v
  | .Max v | .Min v => is_number v = true ∧ P MAX_VALUE_BYTES v
  | .Sum counts => CountsOk counts
  | .Union elements => ElementsIn P elements
  | .Hll sketch => Canonical sketch.registers

variable {d : Data}

theorem dataOk_iff : DataOk json deleted d ↔ DataIn (Storable json) deleted d := by
  cases d with
  | Union e => exact elementsOk_iff
  | _ => exact Iff.rfl

/-- Two things of one type. -/
inductive SameType : Data → Data → Prop
  | lww {s v t w} : SameType (.Lww s v) (.Lww t w)
  | first {s v t w} : SameType (.First s v) (.First t w)
  | max {v w} : SameType (.Max v) (.Max w)
  | min {v w} : SameType (.Min v) (.Min w)
  | sum {c d} : SameType (.Sum c) (.Sum d)
  | union {x y} : SameType (.Union x) (.Union y)
  | hll {x y} : SameType (.Hll x) (.Hll y)

def IsLww (d : Data) : Prop := ∃ s v, d = .Lww s v

variable {p q : Held}

theorem sameType_of_precedence (h : precedence p = precedence q) : SameType p.1 q.1 := by
  obtain ⟨d, e⟩ := p
  obtain ⟨d', f⟩ := q
  cases d <;> cases d' <;> first | constructor | simp [precedence, tag] at h

variable {e : Data}

theorem isLww_iff (h : SameType d e) : IsLww d ↔ IsLww e := by
  cases h <;> simp [IsLww]

variable {f : Data}

theorem sameType_of_both (h : SameType d e) (h' : SameType d f) : SameType e f := by
  cases h <;> cases h' <;> constructor

theorem sameType_trans (h : SameType d e) (h' : SameType e f) : SameType d f := by
  cases h <;> cases h' <;> constructor

theorem sameType_refl (d : Data) : SameType d d := by
  cases d <;> constructor

theorem precedence_of_sameType (h : SameType p.1 q.1) : precedence p = precedence q := by
  obtain ⟨d, e⟩ := p
  obtain ⟨d', f⟩ := q
  cases h <;> rfl

theorem first_of_least (s t : Stamp) (v w : Value) :
    SameType (.First s v) (least (first_order json) (.First s v) (.First t w)) := by
  rcases least_cases (Data.First s v) (Data.First t w) with h | h
  · rw [h]
    exact .first
  · rw [h]
    exact .first

theorem join_max_eq (v w : Value) :
    join_same json (.Max v) (.Max w) = .Max (least (fun x y => max_order json y x) v w) := by
  rw [← greatest_eq_least]
  rfl

theorem join_min_eq (v w : Value) :
    join_same json (.Min v) (.Min w) = .Min (least (exact_order json) v w) := rfl

theorem join_first_eq {s : Stamp} {v : Value} (h : SameType (.First s v) d) (h' : SameType d e) :
    join_same json d e = least (first_order json) d e := by
  cases h
  cases h'
  rfl

theorem sameType_join_same (h : SameType d e) : SameType d (join_same json d e) := by
  cases h with
  | first => exact first_of_least _ _ _ _
  | lww => exact .lww
  | max => exact .max
  | min => exact .min
  | sum => exact .sum
  | union => exact .union
  | hll => exact .hll

theorem same_lww (h : SameType p.1 q.1) (hp : IsLww p.1) :
    same json p q = least (fun x y => lww_order json y x) p q := by
  obtain ⟨d, e⟩ := p
  obtain ⟨d', f⟩ := q
  obtain ⟨s, v, rfl⟩ := hp
  cases h
  rw [← greatest_eq_least]
  rfl

theorem same_other (h : SameType p.1 q.1) (hp : ¬ IsLww p.1) :
    same json p q = (join_same json p.1 q.1, later p.2 q.2) := by
  obtain ⟨d, e⟩ := p
  obtain ⟨d', f⟩ := q
  cases h with
  | lww => exact absurd ⟨_, _, rfl⟩ hp
  | _ => rfl

theorem sameType_same (h : SameType p.1 q.1) : SameType p.1 (same json p q).1 := by
  by_cases hp : IsLww p.1
  · rw [same_lww h hp]
    rcases least_cases p q with hl | hl
    · rw [hl]
      obtain ⟨s, v, hd⟩ := hp
      rw [hd]
      exact .lww
    · rw [hl]
      exact h
  · rw [same_other h hp]
    exact sameType_join_same h

theorem join_same_assoc (hde : SameType d e) (hef : SameType e f) (hd : DataIn P deleted d)
    (he : DataIn P deleted e) (hf : DataIn P deleted f) :
    join_same json (join_same json d e) f = join_same json d (join_same json e f) := by
  cases hde with
  | lww => rfl
  | @first s v t w =>
    cases hef with
    | @first _ _ u x =>
      have hde : SameType (.First s v) (join_same json (.First s v) (.First t w)) :=
        sameType_join_same .first
      have hef : SameType (.First t w) (join_same json (.First t w) (.First u x)) :=
        sameType_join_same .first
      rw [join_first_eq hde (sameType_of_both hde .first),
        join_first_eq (.first (s := s) (v := v)) (sameType_of_both .first hef),
        join_first_eq (.first (s := s) (v := v)) .first,
        join_first_eq (.first (s := s) (v := v)) .first, least_assoc]
  | max =>
    cases hef with
    | max => simp only [join_max_eq, least_assoc]
  | min =>
    cases hef with
    | min => simp only [join_min_eq, least_assoc]
  | sum =>
    cases hef with
    | sum => simp only [join_same, counts_merge_assoc hd he hf]
  | union =>
    cases hef with
    | union => simp only [join_same, elements_merge_assoc hd he hf]
  | hll =>
    cases hef with
    | hll => simp only [join_same, hll_merge_assoc hd he hf]

theorem join_same_comm (hde : SameType d e) (hlww : ¬ IsLww d) (hd : DataOk json deleted d)
    (he : DataOk json deleted e) : join_same json d e = join_same json e d := by
  cases hde with
  | lww => exact absurd ⟨_, _, rfl⟩ hlww
  | @first s v t w =>
    rw [join_first_eq (.first (s := s) (v := v)) .first,
      join_first_eq (.first (s := s) (v := v)) .first]
    apply least_comm
    intro heq
    obtain ⟨hstamp, hvalue⟩ : compare s t = .eq ∧ exact_order json v w = .eq :=
      Ordering.then_eq_eq.mp heq
    rw [compare_eq_iff_eq.mp hstamp, exact_order_eq hd.2 he.2 hvalue]
  | @max v w =>
    rw [join_max_eq, join_max_eq, least_comm]
    intro heq
    have hvalue : exact_order json v w = .eq := (Ordering.then_eq_eq.mp heq).2
    exact exact_order_eq hd.2 he.2 hvalue
  | min =>
    rw [join_min_eq, join_min_eq, least_comm]
    exact exact_order_eq hd.2 he.2
  | sum => simp only [join_same, counts_merge_comm hd he]
  | union => simp only [join_same, elements_merge_comm hd he]
  | hll => simp only [join_same, hll_merge_comm hd he]

theorem join_same_self (hd : DataIn P deleted d) : join_same json d d = d := by
  cases d with
  | Lww s v => rfl
  | First s v => rw [join_first_eq (.first (s := s) (v := v)) .first, least_self]
  | Max v => rw [join_max_eq, least_self]
  | Min v => rw [join_min_eq, least_self]
  | Sum c => simp only [join_same, counts_merge_self hd]
  | Union e => simp only [join_same, elements_merge_self hd]
  | Hll h => simp only [join_same, hll_merge_self hd]

theorem join_same_in (hde : SameType d e) (hd : DataIn P deleted d) (he : DataIn P deleted e) :
    DataIn P deleted (join_same json d e) := by
  cases hde with
  | lww => exact hd
  | @first s v t w =>
    rw [join_first_eq (.first (s := s) (v := v)) .first]
    rcases least_cases (Data.First s v) (Data.First t w) with h | h
    · rw [h]
      exact hd
    · rw [h]
      exact he
  | @max v w =>
    rw [join_max_eq]
    rcases least_cases v w with h | h
    · rw [h]
      exact hd
    · rw [h]
      exact he
  | @min v w =>
    rw [join_min_eq]
    rcases least_cases v w with h | h
    · rw [h]
      exact hd
    · rw [h]
      exact he
  | sum => exact counts_merge_ok hd he
  | union => exact elements_merge_in hd he
  | hll => exact (merge_spec hd he).1

variable {r : Held}

theorem same_assoc (hpq : SameType p.1 q.1) (hqr : SameType q.1 r.1) (hp : DataIn P deleted p.1)
    (hq : DataIn P deleted q.1) (hr : DataIn P deleted r.1) :
    same json (same json p q) r = same json p (same json q r) := by
  have hpq' : SameType p.1 (same json p q).1 := sameType_same hpq
  have hqr' : SameType q.1 (same json q r).1 := sameType_same hqr
  have hleft : SameType (same json p q).1 r.1 :=
    sameType_of_both hpq' (sameType_trans hpq hqr)
  have hright : SameType p.1 (same json q r).1 := sameType_trans hpq hqr'
  by_cases hlww : IsLww p.1
  · have hq' : IsLww q.1 := (isLww_iff hpq).mp hlww
    have hs : IsLww (same json p q).1 := (isLww_iff hpq').mp hlww
    rw [same_lww hleft hs, same_lww hright hlww, same_lww hpq hlww, same_lww hqr hq', least_assoc]
  · have hq' : ¬ IsLww q.1 := fun h => hlww ((isLww_iff hpq).mpr h)
    have hs : ¬ IsLww (same json p q).1 := fun h => hlww ((isLww_iff hpq').mpr h)
    rw [same_other hleft hs, same_other hright hlww, same_other hpq hlww, same_other hqr hq',
      join_same_assoc hpq hqr hp hq hr, later_assoc]

/-- Two copies of one write, told apart only by expiries that tie. -/
def Tie (p q : Held) : Prop := IsLww p.1 ∧ p.1 = q.1 ∧ SameEnd p.2 q.2

theorem same_comm (hpq : SameType p.1 q.1) (hp : DataOk json deleted p.1)
    (hq : DataOk json deleted q.1) (htie : ¬ Tie p q) : same json p q = same json q p := by
  have hqp : SameType q.1 p.1 := sameType_of_both hpq (sameType_refl p.1)
  by_cases hlww : IsLww p.1
  · rw [same_lww hpq hlww, same_lww hqp ((isLww_iff hpq).mp hlww)]
    apply least_comm
    intro heq
    obtain ⟨d, e⟩ := p
    obtain ⟨d', f⟩ := q
    cases hpq with
    | @lww s v t w =>
      obtain ⟨hstamp, hrest⟩ := Ordering.then_eq_eq.mp heq
      obtain ⟨hvalue, hexpiry⟩ := Ordering.then_eq_eq.mp hrest
      have hd : Data.Lww s v = Data.Lww t w := by
        rw [(compare_eq_iff_eq.mp hstamp : t = s), exact_order_eq hq.2 hp.2 hvalue]
      have hend := never_last_eq (UInt64.toNat_inj.mp (compare_eq_iff_eq.mp hexpiry))
      rcases hend with hend | hend
      · exact Prod.ext hd hend.symm
      · exact absurd ⟨hlww, hd, Or.symm (by simpa [SameEnd, and_comm] using hend)⟩ htie
    | _ => simp [IsLww] at hlww
  · rw [same_other hpq hlww, same_other hqp (fun h => hlww ((isLww_iff hpq).mpr h)),
      join_same_comm hpq hlww hp hq, later_comm]

theorem same_self (hp : DataIn P deleted p.1) : same json p p = p := by
  by_cases hlww : IsLww p.1
  · rw [same_lww (sameType_refl p.1) hlww, least_self]
  · rw [same_other (sameType_refl p.1) hlww, join_same_self hp, later_self]

theorem same_in (hpq : SameType p.1 q.1) (hp : DataIn P deleted p.1) (hq : DataIn P deleted q.1) :
    DataIn P deleted (same json p q).1 := by
  by_cases hlww : IsLww p.1
  · rw [same_lww hpq hlww]
    rcases least_cases p q with h | h
    · rw [h]
      exact hp
    · rw [h]
      exact hq
  · rw [same_other hpq hlww]
    exact join_same_in hpq hp hq

/-! ## The join of two things -/

/-- `join` on what two states hold. -/
def joined (json : Json) (p q : Held) : Held := join json p.1 p.2 q.1 q.2

theorem joined_assoc (hp : DataIn P deleted p.1) (hq : DataIn P deleted q.1)
    (hr : DataIn P deleted r.1) :
    joined json (joined json p q) r = joined json p (joined json q r) := by
  unfold joined
  rw [join_eq, join_eq, join_eq, join_eq]
  apply layered_assoc
  · intro a b h
    exact (precedence_of_sameType (sameType_same (sameType_of_precedence h))).symm
  · intro hpq hqr
    exact same_assoc (sameType_of_precedence hpq) (sameType_of_precedence hqr) hp hq hr

theorem joined_comm (hp : DataOk json deleted p.1) (hq : DataOk json deleted q.1)
    (htie : ¬ Tie p q) : joined json p q = joined json q p := by
  unfold joined
  rw [join_eq, join_eq]
  apply layered_comm
  intro h
  exact same_comm (sameType_of_precedence h) hp hq htie

theorem joined_self (hp : DataIn P deleted p.1) : joined json p p = p := by
  unfold joined
  rw [join_eq, layered_same rfl, same_self hp]

theorem joined_in (hp : DataIn P deleted p.1) (hq : DataIn P deleted q.1) :
    DataIn P deleted (joined json p q).1 := by
  unfold joined
  rw [join_eq, layered]
  split
  · exact hq
  · split
    · exact hp
    · exact same_in (sameType_of_precedence (by omega)) hp hq

end laws

/-! ## The merge of two states -/

section states

variable {json : Json} {a b c : KeyState} {P : Nat → Value → Prop}

/-- A state as the writes and the merges build it, of values that `P` allows. -/
structure StateIn (P : Nat → Value → Prop) (s : KeyState) : Prop where
  expires : s.data = none → s.expires_ms = 0
  data : ∀ d ∈ s.data, DataIn P s.deleted d

theorem stateOk_iff : StateOk json a ↔ StateIn (Storable json) a := by
  constructor
  · intro h
    exact ⟨h.expires, fun d hd => dataOk_iff.mp (h.data d hd)⟩
  · intro h
    exact ⟨h.expires, fun d hd => dataOk_iff.mpr (h.data d hd)⟩

def held (s : KeyState) : Option Held := s.data.map fun d => (d, s.expires_ms)

def alive (s : KeyState) (deleted : Stamp) : Option Held :=
  (held s).filter fun p => outlives p.1 s.deleted deleted

theorem state_ext (ha : StateIn P a) (hb : StateIn P b) (hdeleted : a.deleted = b.deleted)
    (hheld : held a = held b) : a = b := by
  obtain ⟨deleted, data, expires⟩ := a
  obtain ⟨deleted', data', expires'⟩ := b
  cases hdeleted
  cases data with
  | none =>
    cases data' with
    | none =>
      have he : expires = 0 := ha.expires rfl
      have he' : expires' = 0 := hb.expires rfl
      rw [he, he']
    | some d' => cases hheld
  | some d =>
    cases data' with
    | none => cases hheld
    | some d' =>
      cases hheld
      rfl

theorem deleted_merge (a b : KeyState) :
    (a.merge json b).deleted = max a.deleted b.deleted := by
  unfold KeyState.merge
  dsimp only
  split <;> rfl

theorem held_merge (a b : KeyState) :
    held (a.merge json b) = either (joined json) (alive a (max a.deleted b.deleted))
      (alive b (max a.deleted b.deleted)) := by
  obtain ⟨deleted, data, expires⟩ := a
  obtain ⟨deleted', data', expires'⟩ := b
  unfold KeyState.merge alive held
  cases data with
  | none =>
    cases data' with
    | none => rfl
    | some d' =>
      dsimp only [Option.map_some, Option.filter_some]
      cases outlives d' deleted' (max deleted deleted') <;> rfl
  | some d =>
    cases data' with
    | none =>
      dsimp only [Option.map_some, Option.filter_some]
      cases outlives d deleted (max deleted deleted') <;> rfl
    | some d' =>
      dsimp only [Option.map_some, Option.filter_some]
      cases outlives d deleted (max deleted deleted') <;>
        cases outlives d' deleted' (max deleted deleted') <;> rfl

variable {d : Data}

theorem outlives_other (h : ¬ IsLww d) (own deleted : Stamp) :
    outlives d own deleted = decide (own = deleted) := by
  cases d with
  | Lww s v => exact absurd ⟨s, v, rfl⟩ h
  | _ => rfl

variable {own deleted : Stamp}

/-- What outlives a delete may be held by a state that has seen it. -/
theorem dataIn_of_outlives (hd : DataIn P own d) (h : outlives d own deleted = true) :
    DataIn P deleted d := by
  cases d with
  | Lww s v => exact ⟨of_decide_eq_true h, hd.2⟩
  | _ =>
    cases of_decide_eq_true h
    exact hd

variable {p : Held}

theorem alive_in (ha : StateIn P a) (hp : alive a deleted = some p) : DataIn P deleted p.1 := by
  obtain ⟨hheld, hlives⟩ := Option.filter_eq_some_iff.mp hp
  obtain ⟨d, hdata, rfl⟩ := Option.map_eq_some_iff.mp hheld
  exact dataIn_of_outlives (ha.data d hdata) hlives

variable {x y : Option Held}

theorem either_in (hx : ∀ p ∈ x, DataIn P deleted p.1) (hy : ∀ q ∈ y, DataIn P deleted q.1) :
    ∀ r ∈ either (joined json) x y, DataIn P deleted r.1 := by
  intro r hr
  cases x with
  | none => exact hy r hr
  | some p =>
    cases y with
    | none => exact hx r hr
    | some q =>
      cases hr
      exact joined_in (hx p rfl) (hy q rfl)

theorem expires_merge (h : (a.merge json b).data = none) : (a.merge json b).expires_ms = 0 := by
  unfold KeyState.merge at h ⊢
  dsimp only at h ⊢
  split at h
  · rfl
  · cases h
  · cases h
  · cases h

theorem merge_in (ha : StateIn P a) (hb : StateIn P b) : StateIn P (a.merge json b) := by
  refine ⟨expires_merge, ?_⟩
  intro d hd
  have hmem : (d, (a.merge json b).expires_ms) ∈ held (a.merge json b) := by
    rw [held, hd]
    rfl
  rw [held_merge] at hmem
  rw [deleted_merge]
  exact either_in (fun p hp => alive_in ha hp) (fun q hq => alive_in hb hq) _ hmem

theorem merge_ok (ha : StateOk json a) (hb : StateOk json b) : StateOk json (a.merge json b) :=
  stateOk_iff.mpr (merge_in (stateOk_iff.mp ha) (stateOk_iff.mp hb))

variable {mid : Stamp}

theorem outlives_step (hmid : own ≤ mid) (hdeleted : mid ≤ deleted) :
    (outlives d own mid && outlives d mid deleted) = outlives d own deleted := by
  by_cases hlww : IsLww d
  · obtain ⟨s, v, rfl⟩ := hlww
    show (decide (mid < s) && decide (deleted < s)) = decide (deleted < s)
    by_cases h : deleted < s
    · rw [decide_eq_true h, decide_eq_true (lt_of_le_of_lt hdeleted h)]
      rfl
    · rw [decide_eq_false h, Bool.and_false]
  · rw [outlives_other hlww, outlives_other hlww, outlives_other hlww, ← Bool.decide_and,
      decide_eq_decide]
    constructor
    · rintro ⟨rfl, rfl⟩
      rfl
    · rintro rfl
      have hsame := le_antisymm hmid hdeleted
      exact ⟨hsame, hsame.symm⟩

variable {q : Held}

theorem joined_lww_left (hp : IsLww p.1) (hq : ¬ IsLww q.1) : joined json p q = p := by
  obtain ⟨d, e⟩ := p
  obtain ⟨d', f⟩ := q
  obtain ⟨s, v, rfl⟩ := hp
  cases d' with
  | Lww t w => exact absurd ⟨t, w, rfl⟩ hq
  | _ => rfl

theorem joined_lww_right (hp : ¬ IsLww p.1) (hq : IsLww q.1) : joined json p q = q := by
  obtain ⟨d, e⟩ := p
  obtain ⟨d', f⟩ := q
  obtain ⟨t, w, rfl⟩ := hq
  cases d with
  | Lww s v => exact absurd ⟨s, v, rfl⟩ hp
  | _ => rfl

theorem joined_other (hp : ¬ IsLww p.1) (hq : ¬ IsLww q.1) : ¬ IsLww (joined json p q).1 := by
  unfold joined
  rw [join_eq, layered]
  split
  · exact hq
  · split
    · exact hp
    · have hsame : precedence p = precedence q := by omega
      intro h
      exact hp ((isLww_iff (sameType_same (sameType_of_precedence hsame))).mpr h)

/-- Of two `lww` writes one is kept, the later one when one is later. -/
theorem joined_lww (s t : Stamp) (v w : Value) (e f : UInt64) :
    (joined json (.Lww s v, e) (.Lww t w, f) = (.Lww s v, e) ∧ t ≤ s) ∨
      (joined json (.Lww s v, e) (.Lww t w, f) = (.Lww t w, f) ∧ s ≤ t) := by
  have hjoined : joined json (.Lww s v, e) (.Lww t w, f) =
      if lww_order json (.Lww s v, e) (.Lww t w, f) = .lt then (.Lww t w, f)
      else (.Lww s v, e) := rfl
  rw [hjoined]
  rcases lt_trichotomy s t with h | h | h
  · have hlt : lww_order json (.Lww s v, e) (.Lww t w, f) = .lt := by
      show (compare s t).then _ = _
      rw [compare_lt_iff_lt.mpr h]
      rfl
    rw [if_pos hlt]
    exact .inr ⟨rfl, h.le⟩
  · split
    · exact .inr ⟨rfl, h.le⟩
    · exact .inl ⟨rfl, h.ge⟩
  · have hgt : lww_order json (.Lww s v, e) (.Lww t w, f) = .gt := by
      show (compare s t).then _ = _
      rw [compare_gt_iff_gt.mpr h]
      rfl
    rw [if_neg (by rw [hgt]; decide)]
    exact .inl ⟨rfl, h.le⟩

theorem outlives_lww (h : IsLww d) (own own' deleted : Stamp) :
    outlives d own deleted = outlives d own' deleted := by
  obtain ⟨s, v, rfl⟩ := h
  rfl

variable {own' : Stamp}

/-- What a later delete leaves of the join of two things, by what it leaves of each. -/
theorem outlives_cases (json : Json) (deleted : Stamp) (hp : outlives p.1 own mid = true)
    (hq : outlives q.1 own' mid = true) :
    (outlives p.1 mid deleted = outlives q.1 mid deleted ∧
      outlives (joined json p q).1 mid deleted = outlives p.1 mid deleted) ∨
    (outlives q.1 mid deleted = false ∧ joined json p q = p) ∨
    (outlives p.1 mid deleted = false ∧ joined json p q = q) := by
  by_cases hpl : IsLww p.1
  · by_cases hql : IsLww q.1
    · obtain ⟨d, e⟩ := p
      obtain ⟨d', f⟩ := q
      obtain ⟨s, v, rfl⟩ := hpl
      obtain ⟨t, w, rfl⟩ := hql
      rcases joined_lww s t v w e f with ⟨h, hle⟩ | ⟨h, hle⟩
      · by_cases ht : deleted < t
        · refine .inl ⟨?_, by rw [h]⟩
          show decide (deleted < s) = decide (deleted < t)
          rw [decide_eq_true ht, decide_eq_true (lt_of_lt_of_le ht hle)]
        · exact .inr (.inl ⟨decide_eq_false ht, h⟩)
      · by_cases hs : deleted < s
        · have hst : decide (deleted < s) = decide (deleted < t) := by
            rw [decide_eq_true hs, decide_eq_true (lt_of_lt_of_le hs hle)]
          refine .inl ⟨hst, ?_⟩
          rw [h]
          exact hst.symm
        · exact .inr (.inr ⟨decide_eq_false hs, h⟩)
    · by_cases hmid : mid = deleted
      · subst hmid
        have hpm : outlives p.1 mid mid = true := (outlives_lww hpl mid own mid).trans hp
        refine .inl ⟨?_, by rw [joined_lww_left hpl hql]⟩
        rw [hpm, outlives_other hql, decide_eq_true rfl]
      · refine .inr (.inl ⟨?_, joined_lww_left hpl hql⟩)
        rw [outlives_other hql, decide_eq_false hmid]
  · by_cases hql : IsLww q.1
    · by_cases hmid : mid = deleted
      · subst hmid
        have hqm : outlives q.1 mid mid = true := (outlives_lww hql mid own' mid).trans hq
        have hpm : outlives p.1 mid mid = true := by rw [outlives_other hpl, decide_eq_true rfl]
        refine .inl ⟨hpm.trans hqm.symm, ?_⟩
        rw [joined_lww_right hpl hql, hqm, hpm]
      · refine .inr (.inr ⟨?_, joined_lww_right hpl hql⟩)
        rw [outlives_other hpl, decide_eq_false hmid]
    · refine .inl ⟨?_, ?_⟩
      · rw [outlives_other hpl, outlives_other hql]
      · rw [outlives_other (joined_other hpl hql), outlives_other hpl]

/-- A later delete covers the join of two things as it covers the two. -/
theorem outlives_joined (hp : outlives p.1 own mid = true) (hq : outlives q.1 own' mid = true) :
    (some (joined json p q)).filter (fun r => outlives r.1 mid deleted) =
      either (joined json) ((some p).filter fun r => outlives r.1 mid deleted)
        ((some q).filter fun r => outlives r.1 mid deleted) := by
  simp only [Option.filter_some]
  rcases outlives_cases json deleted hp hq with ⟨hpq, hj⟩ | ⟨hq', hj⟩ | ⟨hp', hj⟩
  · rw [hj, ← hpq]
    cases outlives p.1 mid deleted <;> rfl
  · rw [hj, hq']
    cases outlives p.1 mid deleted <;> rfl
  · rw [hj, hp']
    cases outlives q.1 mid deleted <;> rfl

theorem alive_merge (h : max a.deleted b.deleted ≤ deleted) :
    alive (a.merge json b) deleted = either (joined json) (alive a deleted) (alive b deleted) := by
  have ha := le_max_left a.deleted b.deleted
  have hb := le_max_right a.deleted b.deleted
  have hstep (s : KeyState) (hs : s.deleted ≤ max a.deleted b.deleted) :
      alive s deleted = (alive s (max a.deleted b.deleted)).filter fun r =>
        outlives r.1 (max a.deleted b.deleted) deleted := by
    unfold alive
    rw [Option.filter_filter]
    congr 1
    funext p
    rw [← outlives_step hs h]
  rw [hstep a ha, hstep b hb]
  conv_lhs => unfold alive
  rw [deleted_merge, held_merge]
  rcases hx : alive a (max a.deleted b.deleted) with _ | p
  · rfl
  · rcases hy : alive b (max a.deleted b.deleted) with _ | q
    · rw [either_none, Option.filter_none, either_none]
    · obtain ⟨-, hp⟩ := Option.filter_eq_some_iff.mp hx
      obtain ⟨-, hq⟩ := Option.filter_eq_some_iff.mp hy
      exact outlives_joined hp hq

theorem either_assoc {z : Option Held} (hx : ∀ p ∈ x, DataIn P deleted p.1)
    (hy : ∀ q ∈ y, DataIn P deleted q.1) (hz : ∀ r ∈ z, DataIn P deleted r.1) :
    either (joined json) (either (joined json) x y) z =
      either (joined json) x (either (joined json) y z) := by
  cases x with
  | none => rfl
  | some p =>
    cases y with
    | none => rfl
    | some q =>
      cases z with
      | none => rfl
      | some r => exact congrArg some (joined_assoc (hx p rfl) (hy q rfl) (hz r rfl))

theorem merge_assoc (ha : StateIn P a) (hb : StateIn P b) (hc : StateIn P c) :
    (a.merge json b).merge json c = a.merge json (b.merge json c) := by
  have hab : StateIn P (a.merge json b) := merge_in ha hb
  have hbc : StateIn P (b.merge json c) := merge_in hb hc
  apply state_ext (merge_in hab hc) (merge_in ha hbc)
  · simp only [deleted_merge, max_assoc]
  · rw [held_merge, held_merge, deleted_merge, deleted_merge, ← max_assoc,
      alive_merge (le_max_left _ _), alive_merge (by rw [max_assoc]; exact le_max_right _ _)]
    exact either_assoc (fun p hp => alive_in ha hp) (fun q hq => alive_in hb hq)
      (fun r hr => alive_in hc hr)

theorem held_eq_some : held a = some p ↔ a.data = some p.1 ∧ a.expires_ms = p.2 := by
  unfold held
  constructor
  · intro h
    obtain ⟨d, hd, rfl⟩ := Option.map_eq_some_iff.mp h
    exact ⟨hd, rfl⟩
  · rintro ⟨hd, he⟩
    rw [hd, he]
    rfl

theorem alive_eq_some :
    alive a deleted = some p ↔
      (a.data = some p.1 ∧ a.expires_ms = p.2) ∧ outlives p.1 a.deleted deleted = true := by
  unfold alive
  rw [Option.filter_eq_some_iff, held_eq_some]

theorem outlives_own (hd : DataIn P own d) : outlives d own own = true := by
  cases d with
  | Lww s v => exact decide_eq_true hd.1
  | _ => exact decide_eq_true rfl

theorem merge_self (ha : StateIn P a) : a.merge json a = a := by
  apply state_ext (merge_in ha ha) ha
  · rw [deleted_merge, max_self]
  · rw [held_merge, max_self]
    rcases hp : held a with _ | p
    · unfold alive
      rw [hp]
      rfl
    · have hd : DataIn P a.deleted p.1 := ha.data p.1 (held_eq_some.mp hp).1
      rw [alive_eq_some.mpr ⟨held_eq_some.mp hp, outlives_own hd⟩]
      exact congrArg some (joined_self hd)

/-- One `lww` write on both sides, that never expires on one and expires at the last
millisecond on the other. -/
def Clash (a b : KeyState) : Prop :=
  ∃ stamp v, a.data = some (.Lww stamp v) ∧ b.data = some (.Lww stamp v) ∧
    SameEnd a.expires_ms b.expires_ms

theorem merge_comm (ha : StateOk json a) (hb : StateOk json b) (h : ¬ Clash a b) :
    a.merge json b = b.merge json a := by
  have ha' := stateOk_iff.mp ha
  have hb' := stateOk_iff.mp hb
  apply state_ext (merge_in ha' hb') (merge_in hb' ha')
  · rw [deleted_merge, deleted_merge, max_comm]
  · rw [held_merge, held_merge, max_comm b.deleted]
    rcases hp : alive a (max a.deleted b.deleted) with _ | p
    · rw [none_either, either_none]
    · rcases hq : alive b (max a.deleted b.deleted) with _ | q
      · rfl
      · apply congrArg some
        apply joined_comm (dataOk_iff.mpr (alive_in ha' hp)) (dataOk_iff.mpr (alive_in hb' hq))
        rintro ⟨⟨s, v, hd⟩, hsame, hend⟩
        obtain ⟨⟨hdata, hexpires⟩, -⟩ := alive_eq_some.mp hp
        obtain ⟨⟨hdata', hexpires'⟩, -⟩ := alive_eq_some.mp hq
        apply h
        refine ⟨s, v, by rw [hdata, hd], by rw [hdata', ← hsame, hd], ?_⟩
        rw [hexpires, hexpires']
        exact hend

theorem merge_clash (ha : StateOk json a) (hb : StateOk json b) (h : Clash a b) :
    (a.merge json b).expires_ms = a.expires_ms := by
  obtain ⟨s, v, hdata, hdata', hend⟩ := h
  have hs : max a.deleted b.deleted < s :=
    max_lt (ha.data _ hdata).1 (hb.data _ hdata').1
  have hp : alive a (max a.deleted b.deleted) = some (.Lww s v, a.expires_ms) :=
    alive_eq_some.mpr ⟨⟨hdata, rfl⟩, decide_eq_true hs⟩
  have hq : alive b (max a.deleted b.deleted) = some (.Lww s v, b.expires_ms) :=
    alive_eq_some.mpr ⟨⟨hdata', rfl⟩, decide_eq_true hs⟩
  have htie : never_last a.expires_ms = never_last b.expires_ms := by
    rcases hend with ⟨he, hf⟩ | ⟨he, hf⟩ <;> rw [he, hf] <;> rfl
  have horder : lww_order json (.Lww s v, a.expires_ms) (.Lww s v, b.expires_ms) ≠ .lt := by
    have hstamp : compare s s = .eq := compare_eq_iff_eq.mpr rfl
    have hvalue : exact_order json v v = .eq := Std.ReflCmp.compare_self
    have hexpiry : compare (never_last b.expires_ms).toNat (never_last b.expires_ms).toNat = .eq :=
      compare_eq_iff_eq.mpr rfl
    simp only [lww_order, stamp_of, value_of, htie, hstamp, hvalue, hexpiry]
    decide
  have hheld : held (a.merge json b) = some (.Lww s v, a.expires_ms) := by
    rw [held_merge, hp, hq]
    exact congrArg some (if_neg horder)
  exact (held_eq_some.mp hheld).2

theorem clash_symm (h : Clash a b) : Clash b a := by
  obtain ⟨s, v, ha, hb, hend⟩ := h
  refine ⟨s, v, hb, ha, ?_⟩
  rcases hend with ⟨he, hf⟩ | ⟨he, hf⟩
  · exact .inr ⟨hf, he⟩
  · exact .inl ⟨hf, he⟩

theorem not_comm_of_clash (ha : StateOk json a) (hb : StateOk json b) (h : Clash a b) :
    (a.merge json b).encoded json ≠ (b.merge json a).encoded json := by
  intro heq
  have hread := decode_encoded (merge_ok ha hb)
  rw [heq, decode_encoded (merge_ok hb ha)] at hread
  have hstate : b.merge json a = a.merge json b := Except.ok.inj hread
  have hexpires := congrArg KeyState.expires_ms hstate
  rw [merge_clash hb ha (clash_symm h), merge_clash ha hb h] at hexpires
  obtain ⟨s, v, -, -, hend⟩ := h
  rcases hend with ⟨he, hf⟩ | ⟨he, hf⟩
  · rw [he, hf] at hexpires
    cases hexpires
  · rw [he, hf] at hexpires
    cases hexpires

end states

/-- Over the states that `decode` accepts the merge is commutative, associative and
idempotent up to the bytes, and its bytes are accepted again, exactly when the two states
do not hold one `lww` write with the two expiries that tie. -/
theorem merge_is_a_join (json : Json) (x y z : Bytes) (a b c : KeyState)
    (hx : KeyState.decode json x = .ok a) (hy : KeyState.decode json y = .ok b)
    (hz : KeyState.decode json z = .ok c) :
    ((a.merge json b).encoded json = (b.merge json a).encoded json ∧
      ((a.merge json b).merge json c).encoded json =
        (a.merge json (b.merge json c)).encoded json ∧
      (a.merge json a).encoded json = a.encoded json ∧
      KeyState.decode json ((a.merge json b).encoded json) = .ok (a.merge json b)) ↔
      ¬ Clash a b := by
  have ha := decode_ok hx
  have hb := decode_ok hy
  have hc := decode_ok hz
  constructor
  · rintro ⟨hcomm, -⟩ hclash
    exact not_comm_of_clash ha hb hclash hcomm
  · intro hclash
    refine ⟨?_, ?_, ?_, decode_encoded (merge_ok ha hb)⟩
    · rw [merge_comm ha hb hclash]
    · rw [merge_assoc (stateOk_iff.mp ha) (stateOk_iff.mp hb) (stateOk_iff.mp hc)]
    · rw [merge_self (stateOk_iff.mp ha)]

def constants : Json where
  to_json
    | .Null => some "null"
    | .Bool true => some "true"
    | .Bool false => some "false"
    | _ => none
  json_decode bytes :=
    if bytes = stringBytes "null" then some .Null
    else if bytes = stringBytes "true" then some (.Bool true)
    else if bytes = stringBytes "false" then some (.Bool false)
    else none

theorem storable_str {json : Json} {max : Nat} {s : String}
    (h : (stringBytes s).length ≤ max) : Storable json max (.Str s) := by
  refine ⟨h, fun _ => ?_, nofun⟩
  show from_bytes (stringBytes s) = .Str s
  unfold from_bytes
  rw [fromUTF8_stringBytes]

/-- A copy of one `lww` write, with an expiry of its own. -/
def copy_until (expires_ms : UInt64) : KeyState :=
  ⟨Stamp.ZERO, some (.Lww ⟨5, 1⟩ (.Str "v")), expires_ms⟩

theorem copy_until_ok (expires_ms : UInt64) : StateOk constants (copy_until expires_ms) := by
  refine ⟨nofun, ?_⟩
  rintro d ⟨⟩
  have hstamp : Stamp.ZERO < ⟨5, 1⟩ := by decide
  exact ⟨hstamp, storable_str (by decide)⟩

/-- A later delete with a `first` write since. -/
def since_delete : KeyState := ⟨⟨6, 2⟩, some (.First ⟨7, 2⟩ .Null), 9⟩

theorem since_delete_ok : StateOk constants since_delete := by
  refine ⟨nofun, ?_⟩
  rintro d ⟨⟩
  have htext : constants.json_decode (stringBytes "null") = some .Null := by
    simp only [constants, if_true]
  exact ⟨by decide, ⟨by decide, nofun, fun _ => ⟨rfl, "null", rfl, htext⟩⟩⟩

theorem copies_of_a_write_join :
    ((copy_until 0).merge constants (copy_until 9)).encoded constants =
        ((copy_until 9).merge constants (copy_until 0)).encoded constants ∧
      (((copy_until 0).merge constants (copy_until 9)).merge constants since_delete).encoded
          constants =
        ((copy_until 0).merge constants ((copy_until 9).merge constants since_delete)).encoded
          constants ∧
      ((copy_until 0).merge constants (copy_until 0)).encoded constants =
        (copy_until 0).encoded constants ∧
      KeyState.decode constants (((copy_until 0).merge constants (copy_until 9)).encoded constants) =
        .ok ((copy_until 0).merge constants (copy_until 9)) := by
  refine (merge_is_a_join constants _ _ _ _ _ _ (decode_encoded (copy_until_ok 0))
    (decode_encoded (copy_until_ok 9)) (decode_encoded since_delete_ok)).mpr ?_
  rintro ⟨s, v, -, -, ⟨-, h⟩ | ⟨h, -⟩⟩
  · exact absurd h (by decide)
  · exact absurd h (by decide)

/-- A copy that never expires and one that expires at the last millisecond keep each its
own expiry. -/
theorem copies_that_tie_do_not_commute :
    ¬ ∀ (json : Json) (x y : Bytes) (a b : KeyState), KeyState.decode json x = .ok a →
      KeyState.decode json y = .ok b →
      (a.merge json b).encoded json = (b.merge json a).encoded json := by
  intro h
  have hclash : Clash (copy_until 0) (copy_until 18446744073709551615) :=
    ⟨⟨5, 1⟩, .Str "v", rfl, rfl, .inl ⟨rfl, rfl⟩⟩
  exact not_comm_of_clash (copy_until_ok _) (copy_until_ok _) hclash
    (h constants _ _ _ _ (decode_encoded (copy_until_ok _)) (decode_encoded (copy_until_ok _)))

end mqtt_rules
