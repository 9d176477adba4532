-- The sketch with its histogram (`crdt.rs`): how many registers hold each value, kept as
-- registers change. Registers, form and histogram are told by the set of the hashes that
-- were added, so that sketches can be merged in any order.
import MqttBroker.Rules.CrdtWrites

namespace mqtt_rules

open SortedJoin Wire

/-- The values that a register can hold, from 0 on. -/
def HLL_RANKS : Nat := 52

/-- A sketch: its registers, and how many of them hold each value. -/
structure CountedHll where
  registers : Registers
  histogram : List UInt16
  deriving DecidableEq

namespace CountedHll

/-! ## The operations -/

def new : CountedHll :=
  ⟨.Sparse [], (List.replicate HLL_RANKS 0).set 0 (UInt16.ofNat HLL_REGISTERS)⟩

/-- A register that held one value holds another. -/
def moved (histogram : List UInt16) (held rank : UInt8) : List UInt16 :=
  (histogram.modify held.toNat (· - 1)).modify rank.toNat (· + 1)

/-- Raises a register to `rank` when it holds less, and tells whether it rose. -/
def raise (s : CountedHll) (index : Nat) (rank : UInt8) : Bool × CountedHll :=
  let rose (held : UInt8) (registers : Registers) : Bool × CountedHll :=
    (true, ⟨registers, moved s.histogram held rank⟩)
  match s.registers with
  | .Dense dense =>
    let held := dense_get dense index
    if rank ≤ held then (false, s) else rose held (.Dense (dense_set dense index rank))
  | .Sparse list =>
    match search entry_cmp list (index, rank) with
    | .ok at_ =>
      let held := (list.getD at_ (0, 0)).2
      if rank ≤ held then (false, s) else rose held (.Sparse (list.set at_ (index, rank)))
    | .error at_ =>
      if list.length < HLL_SPARSE_MAX then rose 0 (.Sparse (list.insertIdx at_ (index, rank)))
      else
        let dense := list.foldl (fun d held => dense_set d held.1 held.2)
          (List.replicate HLL_DENSE_BYTES 0)
        rose 0 (.Dense (dense_set dense index rank))

/-- Adds the value with the hash, and tells whether a register rose. -/
def add (s : CountedHll) (hash : UInt64) : Bool × CountedHll :=
  let index := (hash >>> 50).toNat
  let rest := (hash <<< 14) ||| ((1 : UInt64) <<< 13)
  s.raise index (UInt8.ofNat (leading_zeros rest + 1))

/-- One turn of the merge with an array. -/
def raise_from (dense : List UInt8) (s : CountedHll) (at_ : Nat) : CountedHll :=
  let rank := dense_get dense at_
  if rank ≠ 0 then (s.raise at_ rank).2 else s

def merge (s other : CountedHll) : CountedHll :=
  match other.registers with
  | .Sparse list => list.foldl (fun s held => (s.raise held.1 held.2).2) s
  | .Dense dense => (List.range HLL_REGISTERS).foldl (raise_from dense) s

def count_read (registers : Registers) : List UInt16 :=
  match registers with
  | .Sparse list => list.foldl (fun histogram held => moved histogram 0 held.2) new.histogram
  | .Dense dense => (List.range HLL_REGISTERS).foldl (fun histogram at_ =>
      let rank := dense_get dense at_
      if rank ≠ 0 then moved histogram 0 rank else histogram) new.histogram

def read : StateReader CountedHll := do
  let h ← Hll.read
  return ⟨h.registers, count_read h.registers⟩

end CountedHll

/-! ## What the histogram counts -/

def countOf (f : Nat → UInt8) (value : Nat) : Nat :=
  (List.range HLL_REGISTERS).countP (fun i => (f i).toNat = value)

def histogramOf (f : Nat → UInt8) : List UInt16 :=
  (List.range HLL_RANKS).map (fun value => UInt16.ofNat (countOf f value))

theorem countOf_le (f : Nat → UInt8) (value : Nat) : countOf f value ≤ HLL_REGISTERS := by
  have hle := List.countP_le_length (p := fun i => decide ((f i).toNat = value))
    (l := List.range HLL_REGISTERS)
  rwa [List.length_range] at hle

theorem zero_histogram (n k : Nat) : (List.replicate k (0 : UInt16)).set 0 (UInt16.ofNat n) =
    (List.range k).map (fun value => UInt16.ofNat (if value = 0 then n else 0)) := by
  apply List.ext_getElem
  · simp
  · intro value h h'
    rw [List.getElem_set, List.getElem_replicate, List.getElem_map, List.getElem_range]
    by_cases hv : value = 0
    · rw [if_pos hv.symm, if_pos hv]
    · rw [if_neg (Ne.symm hv), if_neg hv]
      rfl

theorem histogramOf_congr {f g : Nat → UInt8} (h : ∀ i < HLL_REGISTERS, f i = g i) :
    histogramOf f = histogramOf g := by
  have hcount : ∀ value, countOf f value = countOf g value := by
    intro value
    apply List.countP_congr
    intro i hi
    rw [h i (List.mem_range.mp hi)]
  unfold histogramOf
  simp only [hcount]

theorem countP_split {l : List Nat} (p : Nat → Bool) {index : Nat} (h : index ∈ l) :
    l.countP p = (l.erase index).countP p + if p index then 1 else 0 := by
  rw [(List.perm_cons_erase h).countP_eq p, List.countP_cons]

theorem countOf_update (f : Nat → UInt8) {index : Nat} (hindex : index < HLL_REGISTERS)
    (rank : UInt8) (value : Nat) :
    countOf (Function.update f index rank) value + (if (f index).toNat = value then 1 else 0) =
      countOf f value + if rank.toNat = value then 1 else 0 := by
  have hmem : index ∈ List.range HLL_REGISTERS := List.mem_range.mpr hindex
  have hrest : ((List.range HLL_REGISTERS).erase index).countP
      (fun i => decide ((Function.update f index rank i).toNat = value)) =
      ((List.range HLL_REGISTERS).erase index).countP (fun i => decide ((f i).toNat = value)) := by
    apply List.countP_congr
    intro i hi
    have hne : i ≠ index := (List.nodup_range.mem_erase_iff.mp hi).1
    rw [Function.update_of_ne hne]
  unfold countOf
  rw [countP_split _ hmem, countP_split (fun i => decide ((f i).toNat = value)) hmem, hrest]
  simp only [Function.update_self, decide_eq_true_eq]
  omega

theorem ofNat_sub_one {n : Nat} (h : 1 ≤ n) : UInt16.ofNat n - 1 = UInt16.ofNat (n - 1) := by
  have hsum : UInt16.ofNat (n - 1) + 1 = UInt16.ofNat n := by
    rw [show n = n - 1 + 1 by omega, UInt16.ofNat_add]
    rfl
  rw [← hsum, UInt16.add_sub_cancel]

theorem moved_histogramOf {f : Nat → UInt8} {index : Nat} (hindex : index < HLL_REGISTERS)
    {rank : UInt8} (hne : f index ≠ rank) :
    CountedHll.moved (histogramOf f) (f index) rank =
      histogramOf (Function.update f index rank) := by
  have hnat : (f index).toNat ≠ rank.toNat := fun h => hne (UInt8.toNat_inj.mp h)
  apply List.ext_getElem
  · simp [CountedHll.moved, histogramOf]
  · intro value hlt hlt'
    have hcount := countOf_update f hindex rank value
    simp only [CountedHll.moved, histogramOf, List.getElem_modify, List.getElem_map,
      List.getElem_range]
    generalize countOf (Function.update f index rank) value = after at hcount ⊢
    generalize countOf f value = before at hcount ⊢
    by_cases hto : rank.toNat = value
    · have hfrom : ¬ (f index).toNat = value := fun h => hnat (h.trans hto.symm)
      rw [if_neg hfrom, if_pos hto] at hcount
      rw [if_pos hto, if_neg hfrom, show after = before + 1 by omega, UInt16.ofNat_add]
      rfl
    · by_cases hfrom : (f index).toNat = value
      · rw [if_pos hfrom, if_neg hto] at hcount
        rw [if_neg hto, if_pos hfrom, ofNat_sub_one (by omega), show after = before - 1 by omega]
      · rw [if_neg hfrom, if_neg hto] at hcount
        rw [if_neg hto, if_neg hfrom, show after = before by omega]

namespace CountedHll

/-! ## Raising a register -/

/-- A sketch in its one form, whose histogram counts its registers. -/
structure Exact (s : CountedHll) : Prop where
  canonical : Canonical s.registers
  counts : s.histogram = histogramOf (register s.registers)

theorem exact_new : Exact new := by
  refine ⟨.sparse List.Pairwise.nil (Nat.zero_le _) (by simp), ?_⟩
  have hzero : ∀ i, register new.registers i = 0 := fun _ => rfl
  have hcount : ∀ value, countOf (register new.registers) value =
      if value = 0 then HLL_REGISTERS else 0 := by
    intro value
    unfold countOf
    simp only [hzero]
    by_cases hv : value = 0
    · subst hv
      rw [if_pos rfl, List.countP_eq_length.mpr (by simp), List.length_range]
    · rw [if_neg hv, List.countP_eq_zero.mpr]
      intro i _
      simpa using Ne.symm hv
  unfold histogramOf
  simp only [hcount]
  exact zero_histogram HLL_REGISTERS HLL_RANKS

theorem raise_registers (s : CountedHll) (index : Nat) (rank : UInt8) :
    (s.raise index rank).2.registers =
      (mqtt_rules.raise ⟨s.registers⟩ index rank).2.registers := by
  unfold raise mqtt_rules.raise
  cases hr : s.registers with
  | Dense dense =>
    dsimp only
    split
    · exact hr
    · rfl
  | Sparse list =>
    dsimp only
    cases search entry_cmp list (index, rank) with
    | ok at_ =>
      dsimp only
      split
      · exact hr
      · rfl
    | error at_ =>
      dsimp only
      split
      · rfl
      · rfl

variable {s : CountedHll} {index : Nat} {rank : UInt8}

theorem raise_histogram (hc : Canonical s.registers) (he : IsEntry (index, rank)) :
    (s.raise index rank).2.histogram =
      if rank ≤ register s.registers index then s.histogram
      else moved s.histogram (register s.registers index) rank := by
  unfold raise
  cases hr : s.registers with
  | Dense dense =>
    dsimp only
    show _ = if rank ≤ dense_get dense index then _ else moved _ (dense_get dense index) rank
    split <;> rfl
  | Sparse list =>
    rw [hr] at hc
    cases hc with
    | sparse hl hlen hv =>
      dsimp only
      cases hat : search entry_cmp list (index, rank) with
      | ok at_ =>
        obtain ⟨held, hget, hkey⟩ := search_ok hat
        have hheld : register (.Sparse list) index = held.2 := by
          have hindex : held.1 = index := entry_cmp_eq.mp hkey
          rw [← hindex]
          exact register_mem hl (List.mem_of_getElem? hget)
        dsimp only
        rw [List.getD_eq_getElem?_getD, hget, Option.getD_some, hheld]
        split <;> rfl
      | error at_ =>
        have hnone : get entry_cmp list (index, 0) = none := search_error hl hat
        have hzero : register (.Sparse list) index = 0 := by simp [register, hnone]
        have hpos : ¬ rank ≤ 0 := by
          intro hle
          exact absurd (UInt8.le_trans he.2.1 hle) (by decide)
        rw [hzero, if_neg hpos]
        dsimp only
        split <;> rfl

theorem exact_raise (h : Exact s) (he : IsEntry (index, rank)) : Exact (s.raise index rank).2 := by
  have hraised := raise_spec (h := ⟨s.registers⟩) h.canonical he
  rw [← raise_registers] at hraised
  refine ⟨hraised.canonical, ?_⟩
  have hupdate : histogramOf (register (s.raise index rank).2.registers) = histogramOf
      (Function.update (register s.registers) index (larger (register s.registers index) rank)) := by
    apply histogramOf_congr
    intro i hi
    rw [hraised.register i hi, Function.update_apply]
    split
    · rename_i hindex
      rw [hindex]
    · rfl
  rw [raise_histogram h.canonical he, hupdate, h.counts]
  by_cases hle : rank ≤ register s.registers index
  · rw [if_pos hle, larger, if_pos hle, Function.update_eq_self]
  · rw [if_neg hle, larger, if_neg hle]
    have hne : register s.registers index ≠ rank := by
      intro heq
      rw [heq] at hle
      exact hle (UInt8.le_refl rank)
    exact moved_histogramOf he.1 hne

theorem exact_add (h : Exact s) (hash : UInt64) : Exact (s.add hash).2 :=
  exact_raise h (isEntry_of_hash hash)

/-! ## The merge -/

variable {l : List (Nat × UInt8)}

theorem exact_list (hv : ∀ e ∈ l, IsEntry e) (h : Exact s) :
    Exact (l.foldl (fun s held => (s.raise held.1 held.2).2) s) := by
  induction l generalizing s with
  | nil => exact h
  | cons e l ih =>
    exact ih (fun d hd => hv d (List.mem_cons_of_mem _ hd)) (exact_raise h (hv e (by simp)))

variable {dense : List UInt8}

theorem exact_array {indices : List Nat}
    (hmax : ∀ i ∈ indices, i < HLL_REGISTERS ∧ dense_get dense i ≤ HLL_MAX_RANK) (h : Exact s) :
    Exact (indices.foldl (raise_from dense) s) := by
  induction indices generalizing s with
  | nil => exact h
  | cons i rest ih =>
    refine ih (fun j hj => hmax j (List.mem_cons_of_mem _ hj)) ?_
    obtain ⟨hi, hle⟩ := hmax i (by simp)
    unfold raise_from
    dsimp only
    split
    · rename_i hne
      exact exact_raise h (isEntry_dense hi hle hne)
    · exact h

variable {other : CountedHll}

theorem exact_merge (h : Exact s) (ho : Exact other) : Exact (s.merge other) := by
  have hc := ho.canonical
  unfold merge
  cases hr : other.registers with
  | Sparse list =>
    rw [hr] at hc
    cases hc with
    | sparse hl hlen hv => exact exact_list hv h
  | Dense dense =>
    rw [hr] at hc
    cases hc with
    | dense hlen hmax hmany =>
      refine exact_array ?_ h
      intro i hi
      exact ⟨List.mem_range.mp hi, hmax i (List.mem_range.mp hi)⟩

theorem list_registers (l : List (Nat × UInt8)) (s : CountedHll) :
    (l.foldl (fun s held => (s.raise held.1 held.2).2) s).registers =
      (l.foldl (fun h held => (mqtt_rules.raise h held.1 held.2).2) ⟨s.registers⟩).registers := by
  induction l generalizing s with
  | nil => rfl
  | cons e l ih =>
    rw [List.foldl_cons, List.foldl_cons, ih, raise_registers]

theorem array_registers (dense : List UInt8) (indices : List Nat) (s : CountedHll) :
    (indices.foldl (raise_from dense) s).registers =
      (indices.foldl (mqtt_rules.raise_from dense) ⟨s.registers⟩).registers := by
  induction indices generalizing s with
  | nil => rfl
  | cons i rest ih =>
    have hone : (raise_from dense s i).registers =
        (mqtt_rules.raise_from dense ⟨s.registers⟩ i).registers := by
      unfold raise_from mqtt_rules.raise_from
      dsimp only
      split
      · exact raise_registers s i _
      · rfl
    rw [List.foldl_cons, List.foldl_cons, ih, hone]

/-- The registers of a sketch are merged as those of a sketch without a histogram. -/
theorem merge_registers (s other : CountedHll) :
    (s.merge other).registers = (Hll.merge ⟨s.registers⟩ ⟨other.registers⟩).registers := by
  unfold merge Hll.merge
  cases other.registers with
  | Sparse list => exact list_registers list s
  | Dense dense => exact array_registers dense _ s

/-! ## What is read -/

theorem zeros_counted : new.histogram = histogramOf (fun _ => 0) := exact_new.counts

theorem entry_ne_zero {e : Nat × UInt8} (he : IsEntry e) : e.2 ≠ 0 := by
  intro hzero
  have hpos := he.2.1
  rw [hzero] at hpos
  exact absurd hpos (by decide)

theorem count_list (hl : Sorted entry_cmp l) (hv : ∀ e ∈ l, IsEntry e) {f : Nat → UInt8}
    (hf : ∀ e ∈ l, f e.1 = 0) :
    l.foldl (fun histogram held => moved histogram 0 held.2) (histogramOf f) =
      histogramOf (fun i => if register (.Sparse l) i = 0 then f i else register (.Sparse l) i) := by
  induction l generalizing f with
  | nil => rfl
  | cons e l ih =>
    have he := hv e (by simp)
    have hne := entry_ne_zero he
    have hzero := hf e (by simp)
    have hlater : ∀ d ∈ l, d.1 ≠ e.1 := by
      intro d hd heq
      have hlt : entry_cmp e d = .lt := List.rel_of_pairwise_cons hl hd
      rw [entry_cmp_eq.mpr heq.symm] at hlt
      cases hlt
    have hmoved : moved (histogramOf f) 0 e.2 = histogramOf (Function.update f e.1 e.2) := by
      rw [← hzero]
      exact moved_histogramOf he.1 (by rw [hzero]; exact Ne.symm hne)
    rw [List.foldl_cons, hmoved, ih hl.tail (fun d hd => hv d (List.mem_cons_of_mem _ hd))]
    · apply histogramOf_congr
      intro i _
      rw [register_cons]
      by_cases hi : e.1 = i
      · subst hi
        rw [register_of_lt hl, if_pos rfl, if_pos rfl, if_neg hne, Function.update_self]
      · rw [if_neg hi, Function.update_of_ne (Ne.symm hi)]
    · intro d hd
      rw [Function.update_of_ne (hlater d hd)]
      exact hf d (List.mem_cons_of_mem _ hd)

/-- The first registers of an array. -/
def firstOf (dense : List UInt8) (n i : Nat) : UInt8 := if i < n then dense_get dense i else 0

theorem firstOf_succ (dense : List UInt8) (n : Nat) :
    firstOf dense (n + 1) = Function.update (firstOf dense n) n (dense_get dense n) := by
  funext i
  rw [Function.update_apply]
  unfold firstOf
  by_cases hi : i = n
  · subst hi
    simp
  · rw [if_neg hi]
    apply if_congr _ rfl rfl
    omega

theorem count_array {n : Nat} (hn : n ≤ HLL_REGISTERS) :
    (List.range n).foldl (fun histogram at_ =>
      let rank := dense_get dense at_
      if rank ≠ 0 then moved histogram 0 rank else histogram) new.histogram =
      histogramOf (firstOf dense n) := by
  induction n with
  | zero => exact zeros_counted
  | succ n ih =>
    have hheld : firstOf dense n n = 0 := by simp [firstOf]
    rw [List.range_succ, List.foldl_append, ih (by omega), List.foldl_cons, List.foldl_nil,
      firstOf_succ]
    dsimp only
    split
    · rename_i hne
      have hother : firstOf dense n n ≠ dense_get dense n := by
        rw [hheld]
        exact Ne.symm hne
      have hmoved := moved_histogramOf (show n < HLL_REGISTERS by omega) hother
      rw [hheld] at hmoved
      exact hmoved
    · rename_i hzero
      rw [not_ne_iff.mp hzero, ← hheld, Function.update_eq_self]

theorem exact_count_read {r : Registers} (hc : Canonical r) : Exact ⟨r, count_read r⟩ := by
  refine ⟨hc, ?_⟩
  show count_read r = histogramOf (register r)
  unfold count_read
  cases hc with
  | @sparse l hl hlen hv =>
    dsimp only
    rw [zeros_counted, count_list hl hv (fun _ _ => rfl)]
    apply histogramOf_congr
    intro i _
    split
    · rename_i hzero
      exact hzero.symm
    · rfl
  | @dense dense hlen hmax hmany =>
    dsimp only
    rw [count_array (le_refl HLL_REGISTERS)]
    apply histogramOf_congr
    intro i hi
    rw [firstOf, if_pos hi]
    rfl

/-! ## Every sketch -/

/-- The sketches there are: what was added, merged and read. -/
inductive Built : CountedHll → Prop
  | new : Built new
  | add {s : CountedHll} (h : Built s) (hash : UInt64) : Built (s.add hash).2
  | merge {s other : CountedHll} (h : Built s) (ho : Built other) : Built (s.merge other)
  | read {bytes rest : Bytes} {s : CountedHll} (h : Gives read bytes s rest) : Built s

theorem exact_built (h : Built s) : Exact s := by
  induction h with
  | new => exact exact_new
  | add _ hash ih => exact exact_add ih hash
  | merge _ _ ih iho => exact exact_merge ih iho
  | read h =>
    obtain ⟨sketch, left, hread, h1⟩ := gives_bind.mp h
    obtain ⟨rfl, -⟩ := gives_pure.mp h1
    exact exact_count_read (oneForm_hll.front hread)

def ofHashes (hashes : List UInt64) : CountedHll :=
  hashes.foldl (fun s hash => (s.add hash).2) new

theorem built_ofHashes (hashes : List UInt64) : Built (ofHashes hashes) := by
  have hall : ∀ s : CountedHll, Built s →
      Built (hashes.foldl (fun s hash => (s.add hash).2) s) := by
    induction hashes with
    | nil => exact fun s hs => hs
    | cons hash rest ih => exact fun s hs => ih _ (.add hs hash)
  exact hall new .new

/-- The register of a hash, and the value that it raises it to. -/
def indexOf (hash : UInt64) : Nat := (hash >>> 50).toNat

def rankOf (hash : UInt64) : UInt8 :=
  UInt8.ofNat (leading_zeros ((hash <<< 14) ||| ((1 : UInt64) <<< 13)) + 1)

variable {a b : UInt8}

theorem larger_le {v : UInt8} : larger a b ≤ v ↔ a ≤ v ∧ b ≤ v := by
  rw [UInt8.le_iff_toNat_le, UInt8.le_iff_toNat_le, UInt8.le_iff_toNat_le, toNat_larger,
    Nat.max_le]

variable {i : Nat}

theorem register_adds (h : Built s) (hashes : List UInt64) (hi : i < HLL_REGISTERS) (v : UInt8) :
    register (hashes.foldl (fun s hash => (s.add hash).2) s).registers i ≤ v ↔
      register s.registers i ≤ v ∧ ∀ hash ∈ hashes, indexOf hash = i → rankOf hash ≤ v := by
  induction hashes generalizing s with
  | nil => simp
  | cons hash rest ih =>
    have hraised := raise_spec (h := ⟨s.registers⟩) (exact_built h).canonical
      (isEntry_of_hash hash)
    rw [← raise_registers] at hraised
    have hadd : register (s.add hash).2.registers i =
        if i = indexOf hash then larger (register s.registers i) (rankOf hash)
        else register s.registers i := hraised.register i hi
    rw [List.foldl_cons, ih (.add h hash), hadd, List.forall_mem_cons]
    by_cases hindex : i = indexOf hash
    · rw [if_pos hindex, larger_le]
      simp only [hindex, true_implies, and_assoc]
    · rw [if_neg hindex]
      simp only [Ne.symm hindex, false_implies, true_and]

theorem register_ofHashes (hashes : List UInt64) (hi : i < HLL_REGISTERS) (v : UInt8) :
    register (ofHashes hashes).registers i ≤ v ↔
      ∀ hash ∈ hashes, indexOf hash = i → rankOf hash ≤ v := by
  have hzero : register new.registers i ≤ v := by
    rw [UInt8.le_iff_toNat_le]
    exact Nat.zero_le _
  rw [ofHashes, register_adds .new hashes hi, and_iff_right hzero]

theorem eq_of_bounds (h : ∀ v, a ≤ v ↔ b ≤ v) : a = b :=
  UInt8.le_antisymm ((h b).mpr (UInt8.le_refl b)) ((h a).mp (UInt8.le_refl a))

theorem ext_registers (h : Exact s) (ho : Exact other)
    (hr : ∀ i < HLL_REGISTERS, register s.registers i = register other.registers i) :
    s = other := by
  have hregisters := registers_ext h.canonical ho.canonical hr
  have hcounts : s.histogram = other.histogram := by
    rw [h.counts, ho.counts, hregisters]
  obtain ⟨r, counts⟩ := s
  obtain ⟨r', counts'⟩ := other
  dsimp only at hregisters hcounts
  rw [hregisters, hcounts]

/-- A merge is the sketch of everything that either side saw. -/
theorem merge_ofHashes {left right whole : List UInt64}
    (h : ∀ hash, hash ∈ whole ↔ hash ∈ left ∨ hash ∈ right) :
    (ofHashes left).merge (ofHashes right) = ofHashes whole := by
  have hleft := exact_built (built_ofHashes left)
  have hright := exact_built (built_ofHashes right)
  refine ext_registers (exact_merge hleft hright) (exact_built (built_ofHashes whole)) ?_
  intro i hi
  have hmerge := (merge_spec (a := ⟨(ofHashes left).registers⟩) (b := ⟨(ofHashes right).registers⟩)
    hleft.canonical hright.canonical).2 i hi
  rw [merge_registers, hmerge]
  apply eq_of_bounds
  intro v
  rw [larger_le, register_ofHashes left hi, register_ofHashes right hi,
    register_ofHashes whole hi]
  refine ⟨?_, ?_⟩
  · rintro ⟨hl, hr⟩ hash hmem
    rcases (h hash).mp hmem with hmem | hmem
    · exact hl hash hmem
    · exact hr hash hmem
  · intro hall
    exact ⟨fun hash hmem => hall hash ((h hash).mpr (.inl hmem)),
      fun hash hmem => hall hash ((h hash).mpr (.inr hmem))⟩

/-- The list of the registers that are set, and not the array. -/
def isSparse (s : CountedHll) : Bool :=
  match s.registers with
  | .Sparse _ => true
  | .Dense _ => false

theorem isSparse_iff (h : Canonical s.registers) :
    s.isSparse = true ↔ set_count s.registers ≤ HLL_SPARSE_MAX := by
  unfold isSparse
  cases hr : s.registers with
  | Sparse list =>
    rw [hr] at h
    cases h with
    | sparse hl hlen hv => simpa [set_count_sparse hl hv] using hlen
  | Dense dense =>
    rw [hr] at h
    cases h with
    | dense hlen hmax hmany => simpa using hmany

theorem histogram_toNat (h : Exact s) {value : Nat} (hv : value < HLL_RANKS) :
    (s.histogram.getD value 0).toNat = countOf (register s.registers) value := by
  have hle := countOf_le (register s.registers) value
  have hregisters : HLL_REGISTERS = 16384 := rfl
  rw [h.counts, histogramOf, List.getD_eq_getElem?_getD, List.getElem?_map,
    List.getElem?_range hv, Option.map_some, Option.getD_some, UInt16.toNat_ofNat']
  exact Nat.mod_eq_of_lt (by omega)

/-- Two sketches merge, either way, to the sketch of all that was added to one of them; the
histogram of every sketch counts its registers of each value; and a sketch is a list exactly
while few of them are set. -/
theorem sketches_merge_and_count :
    (∀ left right whole : List UInt64,
      (∀ hash, hash ∈ whole ↔ hash ∈ left ∨ hash ∈ right) →
        (ofHashes left).merge (ofHashes right) = ofHashes whole ∧
          (ofHashes right).merge (ofHashes left) = ofHashes whole) ∧
    ∀ s : CountedHll, Built s →
      (s.histogram.length = HLL_RANKS ∧ ∀ value < HLL_RANKS,
        (s.histogram.getD value 0).toNat = countOf (register s.registers) value) ∧
      (s.isSparse = true ↔ set_count s.registers ≤ HLL_SPARSE_MAX) := by
  refine ⟨?_, ?_⟩
  · intro left right whole h
    refine ⟨merge_ofHashes h, merge_ofHashes ?_⟩
    intro hash
    rw [h, or_comm]
  · intro s hs
    have hexact := exact_built hs
    refine ⟨⟨?_, fun value hv => histogram_toNat hexact hv⟩, isSparse_iff hexact.canonical⟩
    rw [hexact.counts, histogramOf, List.length_map, List.length_range]

theorem two_sketches_merge_to_one :
    (ofHashes [1, 2]).merge (ofHashes [2, 3]) = ofHashes [3, 2, 1] ∧
      ((ofHashes [3, 2, 1]).isSparse = true ↔
        set_count (ofHashes [3, 2, 1]).registers ≤ HLL_SPARSE_MAX) := by
  refine ⟨(sketches_merge_and_count.1 [1, 2] [2, 3] [3, 2, 1] ?_).1,
    (sketches_merge_and_count.2 _ (built_ofHashes _)).2⟩
  intro hash
  simp only [List.mem_cons, List.not_mem_nil, or_false]
  tauto

end CountedHll

end mqtt_rules
