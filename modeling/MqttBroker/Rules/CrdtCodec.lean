-- The replicated form of a key's state is read back as it was written. What `decode`
-- accepts is in the one form that is written, and every state in that form is accepted.
import MqttBroker.Rules.Crdt

namespace mqtt_rules

open ByteCodec SortedJoin Wire

/-! ## Bytes and numbers -/

variable {n : Nat} {bytes rest : Bytes}

theorem gives_take {a : Bytes} :
    Gives (read.take n) bytes a rest ↔ bytes = a ++ rest ∧ a.length = n := by
  show (if bytes.length < n then _ else _) = _ ↔ _
  constructor
  · intro h
    split at h
    · cases h
    · cases h
      exact ⟨(List.take_append_drop n bytes).symm, List.length_take_of_le (by omega)⟩
  · rintro ⟨rfl, rfl⟩
    rw [if_neg (by simp)]
    simp

theorem gives_byte {b : UInt8} : Gives read.byte bytes b rest ↔ bytes = b :: rest := by
  unfold read.byte
  rw [gives_bind]
  constructor
  · rintro ⟨a, left, ha, hb⟩
    obtain ⟨rfl, hlen⟩ := gives_take.mp ha
    obtain ⟨x, rfl⟩ := List.length_eq_one_iff.mp hlen
    obtain ⟨rfl, rfl⟩ := gives_pure.mp hb
    rfl
  · rintro rfl
    exact ⟨[b], rest, gives_take.mpr ⟨rfl, rfl⟩, gives_pure.mpr ⟨rfl, rfl⟩⟩

theorem oneForm_u64 : OneForm read.u64 (fun n => toBe 8 n.toNat) (fun _ => True) := by
  apply OneForm.intro
  · intro n _ rest
    apply (gives_take.mpr ⟨rfl, length_toBe 8 _⟩).bind
    rw [ofBe_toBe 8 _ (by simpa using n.toNat_lt), UInt64.ofNat_toNat]
    simp
  · intro bytes n rest h
    obtain ⟨b, left, htake, h1⟩ := gives_bind.mp h
    obtain ⟨rfl, rfl⟩ := gives_pure.mp h1
    obtain ⟨rfl, hlen⟩ := gives_take.mp htake
    have hlt := ofBe_lt b
    rw [hlen] at hlt
    have hback : (UInt64.ofNat (ofBe b)).toNat = ofBe b := by
      rw [UInt64.toNat_ofNat']
      exact Nat.mod_eq_of_lt hlt
    refine ⟨trivial, ?_⟩
    rw [hback, ← hlen, toBe_ofBe]

theorem oneForm_stamp : OneForm read.stamp Stamp.put (fun _ => True) := by
  apply OneForm.intro
  · intro s _ rest
    unfold Stamp.put
    rw [List.append_assoc]
    apply (oneForm_u64.back trivial _).bind
    apply (oneForm_u64.back trivial _).bind
    simp
  · intro bytes s rest h
    obtain ⟨time, left, htime, h1⟩ := gives_bind.mp h
    obtain ⟨node, left2, hnode, h2⟩ := gives_bind.mp h1
    obtain ⟨rfl, rfl⟩ := gives_pure.mp h2
    refine ⟨trivial, ?_⟩
    rw [oneForm_u64.exact htime, oneForm_u64.exact hnode, Stamp.put, List.append_assoc]

variable {k : Nat}

/-- A group of seven bits is added above the ones before it. -/
theorem or_shift (bits : Nat) (h : n < 2 ^ k) : n ||| bits <<< k = n + bits * 2 ^ k := by
  rw [Nat.or_comm, Nat.shiftLeft_eq, Nat.mul_comm, ← Nat.two_pow_add_eq_or_of_lt h]
  omega

variable {turns at_ acc : Nat}

theorem varint_loop_back (hturns : turns + at_ = 19) (hacc : acc < 2 ^ (7 * at_))
    (hn : n * 2 ^ (7 * at_) < 2 ^ 128) (hpos : at_ = 0 ∨ 0 < n) (rest : Bytes) :
    Gives (read.varint_loop turns at_ acc) (put_varint_loop turns n ++ rest)
      (acc + n * 2 ^ (7 * at_)) rest := by
  induction turns generalizing at_ n acc with
  | zero =>
    obtain rfl : at_ = 19 := by omega
    omega
  | succ turns ih =>
    have hmod : n % 128 < 128 := Nat.mod_lt _ (by omega)
    -- The last group of 128 bits has two bits.
    have hlast : at_ = 18 → n < 4 := by
      rintro rfl
      omega
    unfold put_varint_loop read.varint_loop
    split
    · rename_i hshort
      have hn128 : n % 128 = n := by omega
      rw [hn128]
      apply (gives_byte.mpr rfl).bind
      have hbits : (UInt8.ofNat n &&& 0x7f).toNat = n := by
        rw [low_bits, last_byte n (by omega)]
        omega
      have hend : UInt8.ofNat n &&& 0x80 = 0 := by
        rw [high_bit, last_byte n (by omega)]
        omega
      have hzero : ¬ (UInt8.ofNat n = 0 ∧ 0 < at_) := by
        rintro ⟨hb, hat⟩
        have := congrArg UInt8.toNat hb
        rw [last_byte n (by omega)] at this
        have hz : (0 : UInt8).toNat = 0 := rfl
        omega
      simp only [hbits]
      rw [if_neg (by omega), if_pos hend, if_neg hzero, or_shift n hacc]
      simp
    · rename_i hlong
      rw [List.cons_append]
      apply (gives_byte.mpr rfl).bind
      have hbits : ((UInt8.ofNat (n % 128) ||| 0x80) &&& 0x7f).toNat = n % 128 := by
        rw [low_bits, more_byte _ hmod]
        omega
      have hmore : ¬ (UInt8.ofNat (n % 128) ||| 0x80) &&& 0x80 = 0 := by
        rw [high_bit, more_byte _ hmod]
        omega
      have hpow : 2 ^ (7 * (at_ + 1)) = 128 * 2 ^ (7 * at_) := by
        rw [Nat.mul_add, Nat.pow_add, Nat.mul_comm]
      have hsplit : n % 128 * 2 ^ (7 * at_) + n / 128 * (128 * 2 ^ (7 * at_)) =
          n * 2 ^ (7 * at_) := by
        rw [← Nat.mul_assoc, ← Nat.add_mul]
        congr 1
        omega
      have hlow : acc + n % 128 * 2 ^ (7 * at_) < 128 * 2 ^ (7 * at_) := by
        have : n % 128 * 2 ^ (7 * at_) ≤ 127 * 2 ^ (7 * at_) := Nat.mul_le_mul_right _ (by omega)
        omega
      simp only [hbits]
      rw [if_neg (by omega), if_neg hmore, or_shift _ hacc, ← hsplit, ← Nat.add_assoc, ← hpow]
      rw [← hpow] at hlow hsplit
      apply ih (by omega) hlow (by omega) (.inr (by omega))

/-- The groups that the loop reads are those that the writer writes, and not more than 128
bits. After the first group the number is not zero, or the last byte would have been
needless. -/
theorem varint_loop_front (hturns : turns + at_ = 19) (hacc : acc < 2 ^ (7 * at_))
    (h : Gives (read.varint_loop turns at_ acc) bytes n rest) :
    n < 2 ^ 128 ∧ ∃ m, n = acc + m * 2 ^ (7 * at_) ∧ bytes = put_varint_loop turns m ++ rest ∧
      (0 < at_ → 0 < m) := by
  induction turns generalizing at_ acc bytes with
  | zero => exact absurd h gives_throw
  | succ turns ih =>
    rw [read.varint_loop] at h
    obtain ⟨b, left, hb, h1⟩ := gives_bind.mp h
    rw [gives_byte] at hb
    subst hb
    clear h
    have hsize := b.toNat_lt
    rcases gives_ite.mp h1 with ⟨-, h2⟩ | ⟨hlast, h2⟩
    · exact absurd h2 gives_throw
    have hbits : (b &&& 0x7f).toNat < 128 := by
      rw [low_bits]
      omega
    have hpow : 2 ^ (7 * (at_ + 1)) = 128 * 2 ^ (7 * at_) := by
      rw [Nat.mul_add, Nat.pow_add, Nat.mul_comm]
    have hlow : acc + (b &&& 0x7f).toNat * 2 ^ (7 * at_) < 2 ^ (7 * (at_ + 1)) := by
      have : (b &&& 0x7f).toNat * 2 ^ (7 * at_) ≤ 127 * 2 ^ (7 * at_) :=
        Nat.mul_le_mul_right _ (by omega)
      omega
    rw [or_shift _ hacc] at h2
    rcases gives_ite.mp h2 with ⟨hend, h3⟩ | ⟨hmore, h3⟩
    · rcases gives_ite.mp h3 with ⟨-, h4⟩ | ⟨hlong, h4⟩
      · exact absurd h4 gives_throw
      · obtain ⟨rfl, rfl⟩ := gives_pure.mp h4
        have hshort := (high_bit b).mp hend
        have hmod : b.toNat % 128 = b.toNat := Nat.mod_eq_of_lt hshort
        refine ⟨?_, b.toNat, by rw [low_bits, hmod], ?_, ?_⟩
        · rcases Nat.lt_or_ge at_ 18 with hat | hat
          · apply Nat.lt_of_lt_of_le hlow
            exact Nat.pow_le_pow_right (by omega) (by omega)
          · obtain rfl : at_ = 18 := by omega
            omega
        · rw [put_varint_loop, if_pos (by omega), hmod, UInt8.ofNat_toNat]
          rfl
        · intro hat
          by_contra hzero
          apply hlong
          refine ⟨UInt8.toNat_inj.mp ?_, hat⟩
          have hz : (0 : UInt8).toNat = 0 := rfl
          omega
    · have hhigh : 128 ≤ b.toNat := by
        by_contra hless
        exact hmore ((high_bit b).mpr (by omega))
      obtain ⟨hlt, m, rfl, rfl, hm⟩ := ih (by omega) hlow h3
      have hpos : 0 < m := hm (by omega)
      have hbyte : UInt8.ofNat ((b.toNat - 128) % 128) ||| 0x80 = b := by
        rw [← UInt8.toNat_inj, more_byte _ (by omega)]
        omega
      refine ⟨hlt, b.toNat - 128 + 128 * m, ?_, ?_, fun _ => by omega⟩
      · rw [low_bits, show b.toNat % 128 = b.toNat - 128 by omega, hpow, Nat.add_mul,
          Nat.mul_comm 128 m, Nat.mul_assoc, Nat.add_assoc]
      · rw [put_varint_loop, if_neg (by omega),
          show (b.toNat - 128 + 128 * m) % 128 = (b.toNat - 128) % 128 by omega, hbyte,
          show (b.toNat - 128 + 128 * m) / 128 = m by omega]
        rfl

theorem oneForm_varint : OneForm read.varint put_varint (fun n => n < 2 ^ 128) := by
  apply OneForm.intro
  · intro n hn rest
    have h : Gives (read.varint_loop 19 0 0) (put_varint_loop 19 n ++ rest)
        (0 + n * 2 ^ (7 * 0)) rest :=
      varint_loop_back rfl (by simp) (by simpa using hn) (.inl rfl) rest
    simp only [Nat.mul_zero, Nat.pow_zero, Nat.mul_one, Nat.zero_add] at h
    exact h
  · intro bytes n rest h
    obtain ⟨hlt, m, hn, rfl, -⟩ := varint_loop_front (show 19 + 0 = 19 from rfl) (by simp) h
    rw [Nat.mul_zero, Nat.pow_zero, Nat.mul_one, Nat.zero_add] at hn
    exact ⟨hlt, by rw [hn, put_varint]⟩

theorem length_put_varint_loop (h : n < 128 ^ k) (hk : 0 < k) :
    (put_varint_loop turns n).length ≤ k := by
  induction turns generalizing n k with
  | zero => simp [put_varint_loop]
  | succ turns ih =>
    unfold put_varint_loop
    split
    · exact hk
    · rename_i hmore
      obtain ⟨k, rfl⟩ : ∃ j, k = j + 1 := ⟨k - 1, by omega⟩
      have hdiv : n / 128 < 128 ^ k := by
        rw [Nat.div_lt_iff_lt_mul (by omega), ← Nat.pow_succ]
        exact h
      have hk' : 0 < k := by
        rcases Nat.eq_zero_or_pos k with rfl | hpos
        · simp at hdiv
          omega
        · exact hpos
      have := ih hdiv hk'
      simp only [List.length_cons]
      omega

theorem length_put_varint (h : n < 128 ^ k) (hk : 0 < k) :
    (put_varint n).length ≤ k := length_put_varint_loop h hk

variable {max : Nat}

theorem oneForm_len (hmax : max < 2 ^ 128) (what : String) :
    OneForm (read.len max what) put_len (fun n => n ≤ max) := by
  apply OneForm.intro
  · intro n hn rest
    apply (oneForm_varint.back (by omega) rest).bind
    apply (Gives.check hn rest).bind
    simp
  · intro bytes n rest h
    obtain ⟨m, left, hm, h⟩ := gives_bind.mp h
    obtain ⟨u, left', hcheck, h⟩ := gives_bind.mp h
    obtain ⟨hle, rfl⟩ := gives_check.mp hcheck
    obtain ⟨rfl, rfl⟩ := gives_pure.mp h
    exact ⟨hle, oneForm_varint.exact hm⟩

theorem oneForm_u64_varint :
    OneForm read.u64_varint (fun n => put_varint n.toNat) (fun _ => True) := by
  apply OneForm.intro
  · intro n _ rest
    have hn : n.toNat < 2 ^ 64 := n.toNat_lt
    apply (oneForm_varint.back (by omega) rest).bind
    apply (Gives.check hn rest).bind
    simp
  · intro bytes n rest h
    obtain ⟨m, left, hm, h⟩ := gives_bind.mp h
    obtain ⟨u, left', hcheck, h⟩ := gives_bind.mp h
    obtain ⟨hlt, rfl⟩ := gives_check.mp hcheck
    obtain ⟨rfl, rfl⟩ := gives_pure.mp h
    have hback : (UInt64.ofNat m).toNat = m := by
      rw [UInt64.toNat_ofNat']
      exact Nat.mod_eq_of_lt hlt
    refine ⟨trivial, ?_⟩
    rw [hback, oneForm_varint.exact hm]

/-! ## Values -/

/-- A value of at most `max` bytes that reads back as it is. -/
structure Storable (json : Json) (max : Nat) (v : Value) : Prop where
  bound : (written json v).2.length ≤ max
  binary : is_binary v = true → from_bytes (bytes_of v) = v
  text : is_binary v = false → is_undefined v = false ∧
    ∃ text, json.to_json v = some text ∧ json.json_decode (stringBytes text) = some v

theorem bytes_of_from_bytes (b : Bytes) :
    is_binary (from_bytes b) = true ∧ bytes_of (from_bytes b) = b := by
  unfold from_bytes
  split
  · rename_i s hs
    exact ⟨rfl, stringBytes_fromUTF8 hs⟩
  · exact ⟨rfl, rfl⟩

variable {json : Json}

theorem oneForm_value (hmax : max < 2 ^ 128) :
    OneForm (read.value json max) (put_value json) (Storable json max) := by
  apply OneForm.intro
  · intro v hv rest
    have hbound := hv.bound
    unfold put_value
    simp only [List.cons_append, List.append_assoc]
    cases hb : is_binary v with
    | true =>
      have hw : written json v = (true, bytes_of v) := by rw [written, if_pos hb]
      rw [hw] at hbound ⊢
      apply (gives_byte.mpr rfl).bind
      apply ((oneForm_len hmax _).back hbound _).bind
      apply (gives_take.mpr ⟨rfl, rfl⟩).bind
      rw [if_pos rfl, hv.binary hb]
      simp
    | false =>
      obtain ⟨hdefined, text, htext, hback⟩ := hv.text hb
      have hw : written json v = (false, stringBytes text) := by
        rw [written, if_neg (by simp [hb]), htext, Option.getD_some]
      simp only [hw, Bool.false_eq_true, if_false] at hbound ⊢
      apply (gives_byte.mpr rfl).bind
      apply ((oneForm_len hmax _).back hbound _).bind
      apply (gives_take.mpr ⟨rfl, rfl⟩).bind
      rw [if_neg (by decide), if_pos rfl, hback]
      apply (Gives.orThrow rfl rest).bind
      apply (Gives.check ⟨hb, hdefined, by simp [htext]⟩ rest).bind
      simp
  · intro bytes v rest h
    obtain ⟨tag, left, htag, h1⟩ := gives_bind.mp h
    obtain ⟨n, left2, hlen, h2⟩ := gives_bind.mp h1
    obtain ⟨data, left3, htake, h3⟩ := gives_bind.mp h2
    obtain rfl := gives_byte.mp htag
    obtain ⟨rfl, rfl⟩ := gives_take.mp htake
    have hn := (oneForm_len hmax _).front hlen
    rw [(oneForm_len hmax _).exact hlen]
    rcases gives_ite.mp h3 with ⟨rfl, h4⟩ | ⟨-, h4⟩
    · obtain ⟨rfl, rfl⟩ := gives_pure.mp h4
      obtain ⟨hb, hbytes⟩ := bytes_of_from_bytes data
      have hw : written json (from_bytes data) = (true, data) := by
        rw [written, if_pos hb, hbytes]
      refine ⟨⟨by rw [hw]; exact hn, fun _ => by rw [hbytes], fun hfalse => ?_⟩, ?_⟩
      · rw [hb] at hfalse
        cases hfalse
      · simp only [put_value, hw, if_true, List.cons_append, List.append_assoc]
    · rcases gives_ite.mp h4 with ⟨rfl, h5⟩ | ⟨-, h5⟩
      · obtain ⟨w, left4, hw, h6⟩ := gives_bind.mp h5
        obtain ⟨hdecode, rfl⟩ := gives_orThrow.mp hw
        obtain ⟨u, left5, hcheck, h7⟩ := gives_bind.mp h6
        obtain ⟨⟨hb, hdefined, htext⟩, rfl⟩ := gives_check.mp hcheck
        obtain ⟨rfl, rfl⟩ := gives_pure.mp h7
        obtain ⟨text, hjson, rfl⟩ := Option.map_eq_some_iff.mp htext
        have hw : written json w = (false, stringBytes text) := by
          simp only [written, hb, hjson, Bool.false_eq_true, if_false, Option.getD_some]
        refine ⟨⟨by rw [hw]; exact hn, fun htrue => ?_, fun _ => ?_⟩, ?_⟩
        · rw [hb] at htrue
          cases htrue
        · exact ⟨hdefined, text, hjson, hdecode⟩
        · simp only [put_value, hw, Bool.false_eq_true, if_false, List.cons_append,
            List.append_assoc]
      · exact absurd h5 gives_throw

theorem length_put_value {v : Value} (hv : Storable json max v) (hmax : max < 128 ^ 2) :
    (put_value json v).length ≤ value_max max := by
  have hbound := hv.bound
  have hlen : (put_len (written json v).2.length).length ≤ 2 :=
    length_put_varint (by omega) (by omega)
  unfold put_value value_max
  simp only [List.length_cons, List.length_append]
  omega

/-! ## Counters, sets and sketches -/

structure RowOk (row : Row) : Prop where
  node : (stringBytes row.node).length ≤ MAX_NODE_ID_BYTES
  up : row.up < 2 ^ 128
  down : row.down < 2 ^ 128

theorem oneForm_row (last : Option Row) :
    OneForm (Counts.read_row last) Counts.put_row
      (fun row => RowOk row ∧ ∀ b ∈ last, row_cmp b row = .lt) := by
  apply OneForm.intro
  · rintro row ⟨hrow, hlast⟩ rest
    have hnode := hrow.node
    unfold MAX_NODE_ID_BYTES at hnode
    have hn : (UInt8.ofNat (min (stringBytes row.node).length 255)).toNat =
        (stringBytes row.node).length := by
      rw [UInt8.toNat_ofNat']
      omega
    unfold Counts.put_row
    simp only [List.cons_append, List.append_assoc]
    apply (gives_byte.mpr rfl).bind
    apply (gives_take.mpr ⟨rfl, hn.symm⟩).bind
    apply (Gives.orThrow (fromUTF8_stringBytes row.node) _).bind
    apply (Gives.check hlast _).bind
    apply (oneForm_varint.back hrow.up _).bind
    apply (oneForm_varint.back hrow.down _).bind
    simp
  · intro bytes row rest h
    obtain ⟨n, left, hn, h1⟩ := gives_bind.mp h
    obtain ⟨data, left2, htake, h2⟩ := gives_bind.mp h1
    obtain ⟨node, left3, hnode, h3⟩ := gives_bind.mp h2
    obtain ⟨u, left4, hcheck, h4⟩ := gives_bind.mp h3
    obtain ⟨up, left5, hup, h5⟩ := gives_bind.mp h4
    obtain ⟨down, left6, hdown, h6⟩ := gives_bind.mp h5
    obtain ⟨rfl, rfl⟩ := gives_pure.mp h6
    obtain ⟨hutf8, rfl⟩ := gives_orThrow.mp hnode
    obtain ⟨hlast, rfl⟩ := gives_check.mp hcheck
    obtain ⟨rfl, hlen⟩ := gives_take.mp htake
    have hlt : n.toNat < 256 := n.toNat_lt
    refine ⟨⟨⟨?_, oneForm_varint.front hup, oneForm_varint.front hdown⟩, hlast⟩, ?_⟩
    · rw [stringBytes_fromUTF8 hutf8]
      unfold MAX_NODE_ID_BYTES
      omega
    · rw [gives_byte.mp hn, oneForm_varint.exact hup, oneForm_varint.exact hdown]
      have hbyte : UInt8.ofNat (min data.length 255) = n := by
        rw [hlen, Nat.min_eq_left (by omega), UInt8.ofNat_toNat]
      simp only [Counts.put_row, stringBytes_fromUTF8 hutf8, hbyte, List.cons_append,
        List.append_assoc]

instance : Std.TransCmp row_cmp := transCmp_on fun row : Row => stringBytes row.node

/-- The rows of a counter stand by their nodes, up to the bound. -/
structure CountsOk (c : Counts) : Prop where
  sorted : Sorted row_cmp c.rows
  bound : c.rows.length ≤ MAX_COUNTER_NODES
  rows : ∀ row ∈ c.rows, RowOk row

theorem oneForm_counts : OneForm Counts.read Counts.put CountsOk := by
  have hmax : MAX_COUNTER_NODES < 2 ^ 128 := by decide
  apply OneForm.intro
  · intro c hc rest
    unfold Counts.put
    rw [List.append_assoc]
    apply ((oneForm_len hmax _).back hc.bound _).bind
    apply (ascending_back oneForm_row hc.sorted hc.rows none (by simp) rest).bind
    simp
  · intro bytes c rest h
    obtain ⟨n, left, hlen, h1⟩ := gives_bind.mp h
    obtain ⟨rows, left2, hrows, h2⟩ := gives_bind.mp h1
    obtain ⟨rfl, rfl⟩ := gives_pure.mp h2
    obtain ⟨rfl, hvalid, hsorted, -, rfl⟩ :=
      ascending_front oneForm_row Std.TransCmp.lt_trans hrows
    refine ⟨⟨hsorted, (oneForm_len hmax _).front hlen, hvalid⟩, ?_⟩
    rw [(oneForm_len hmax _).exact hlen, Counts.put, List.append_assoc]

instance : Std.TransCmp element_cmp := by
  have hterm : Std.TransCmp fun a b : Bytes × Value => term_order a.2 b.2 := transCmp_on Prod.snd
  have hkey : Std.TransCmp fun a b : Bytes × Value => bytes_cmp a.1 b.1 := transCmp_on Prod.fst
  exact inferInstanceAs (Std.TransCmp (compareLex _ _))

structure ItemOk (json : Json) (item : Bytes × Value) : Prop where
  identity : item.1 = term_key item.2
  storable : Storable json MAX_ELEMENT_BYTES item.2

theorem oneForm_item (json : Json) (last : Option (Bytes × Value)) :
    OneForm (Elements.read_item json last) (fun item => put_value json item.2)
      (fun item => ItemOk json item ∧ ∀ b ∈ last, element_cmp b item = .lt) := by
  have hmax : MAX_ELEMENT_BYTES < 2 ^ 128 := by decide
  apply OneForm.intro
  · rintro ⟨identity, v⟩ ⟨⟨hid, hv⟩, hlast⟩ rest
    dsimp only at hid hv
    subst hid
    apply ((oneForm_value hmax).back hv rest).bind
    apply (Gives.check hlast rest).bind
    simp
  · intro bytes item rest h
    obtain ⟨v, left, hv, h1⟩ := gives_bind.mp h
    obtain ⟨u, left2, hcheck, h2⟩ := gives_bind.mp h1
    obtain ⟨hlast, rfl⟩ := gives_check.mp hcheck
    obtain ⟨rfl, rfl⟩ := gives_pure.mp h2
    exact ⟨⟨⟨rfl, (oneForm_value hmax).front hv⟩, hlast⟩, (oneForm_value hmax).exact hv⟩

/-- The elements of a set stand in order, up to the bound. -/
structure ElementsOk (json : Json) (e : Elements) : Prop where
  sorted : Sorted element_cmp e.items
  bound : e.items.length ≤ MAX_SET_ELEMENTS
  items : ∀ item ∈ e.items, ItemOk json item

theorem oneForm_elements (json : Json) :
    OneForm (Elements.read json) (Elements.put json) (ElementsOk json) := by
  have hmax : MAX_SET_ELEMENTS < 2 ^ 128 := by decide
  apply OneForm.intro
  · intro e he rest
    unfold Elements.put
    rw [List.append_assoc]
    apply ((oneForm_len hmax _).back he.bound _).bind
    apply (ascending_back (oneForm_item json) he.sorted he.items none (by simp) rest).bind
    simp
  · intro bytes e rest h
    obtain ⟨n, left, hlen, h1⟩ := gives_bind.mp h
    obtain ⟨items, left2, hitems, h2⟩ := gives_bind.mp h1
    obtain ⟨rfl, rfl⟩ := gives_pure.mp h2
    obtain ⟨rfl, hvalid, hsorted, -, rfl⟩ :=
      ascending_front (oneForm_item json) Std.TransCmp.lt_trans hitems
    refine ⟨⟨hsorted, (oneForm_len hmax _).front hlen, hvalid⟩, ?_⟩
    rw [(oneForm_len hmax _).exact hlen, Elements.put, List.append_assoc]

theorem oneForm_entry (last : Option (Nat × UInt8)) :
    OneForm (Hll.read_entry last) Hll.put_entry
      (fun e => IsEntry e ∧ ∀ b ∈ last, entry_cmp b e = .lt) := by
  apply OneForm.intro
  · rintro ⟨index, rank⟩ ⟨⟨hindex, hrank⟩, hlast⟩ rest
    have hsize : index < 65536 := by
      unfold HLL_REGISTERS HLL_PRECISION at hindex
      dsimp only at hindex
      omega
    have hread : (UInt8.ofNat (index / 256)).toNat * 256 + (UInt8.ofNat index).toNat = index := by
      rw [UInt8.toNat_ofNat', UInt8.toNat_ofNat']
      omega
    have htake : Gives (read.take 3) (Hll.put_entry (index, rank) ++ rest)
        (Hll.put_entry (index, rank)) rest := gives_take.mpr ⟨rfl, rfl⟩
    apply htake.bind
    show Gives (check _ _ >>= _) rest _ _
    rw [hread]
    apply (Gives.check ⟨hindex, hrank, fun b hb => compare_lt_iff_lt.mp (hlast b hb)⟩ rest).bind
    simp
  · intro bytes e rest h
    obtain ⟨b, left, htake, h1⟩ := gives_bind.mp h
    obtain ⟨rfl, hlen⟩ := gives_take.mp htake
    obtain ⟨high, low, rank, rfl⟩ := List.length_eq_three.mp hlen
    obtain ⟨u, left2, hcheck, h2⟩ := gives_bind.mp h1
    obtain ⟨⟨hindex, hrank, hlast⟩, rfl⟩ := gives_check.mp hcheck
    obtain ⟨rfl, rfl⟩ := gives_pure.mp h2
    refine ⟨⟨⟨hindex, hrank⟩, fun b hb => compare_lt_iff_lt.mpr (hlast b hb)⟩, ?_⟩
    have hlow : low.toNat < 256 := low.toNat_lt
    have hhigh : UInt8.ofNat ((high.toNat * 256 + low.toNat) / 256) = high := by
      rw [show (high.toNat * 256 + low.toNat) / 256 = high.toNat by omega, UInt8.ofNat_toNat]
    have hrest : UInt8.ofNat (high.toNat * 256 + low.toNat) = low := by
      rw [← UInt8.toNat_inj, UInt8.toNat_ofNat']
      omega
    simp only [Hll.put_entry, hhigh, hrest]

theorem oneForm_hll : OneForm Hll.read Hll.put (fun h => Canonical h.registers) := by
  have hmax : HLL_SPARSE_MAX < 2 ^ 128 := by decide
  apply OneForm.intro
  · rintro ⟨r⟩ hr rest
    cases hr with
    | sparse hl hlen hv =>
      unfold Hll.put
      simp only [List.cons_append, List.append_assoc]
      apply (gives_byte.mpr rfl).bind
      rw [if_pos rfl]
      apply ((oneForm_len hmax _).back hlen _).bind
      apply (ascending_back oneForm_entry hl hv none (by simp) rest).bind
      simp
    | dense hd hranks hmany =>
      apply (gives_byte.mpr rfl).bind
      rw [if_neg (by decide), if_pos rfl]
      apply (gives_take.mpr ⟨rfl, hd⟩).bind
      apply (Gives.check hranks rest).bind
      apply (Gives.check hmany rest).bind
      simp
  · intro bytes s rest h
    obtain ⟨form, left, hform, h1⟩ := gives_bind.mp h
    rw [gives_byte.mp hform]
    rcases gives_ite.mp h1 with ⟨rfl, h2⟩ | ⟨-, h2⟩
    · obtain ⟨n, left2, hlen, h3⟩ := gives_bind.mp h2
      obtain ⟨list, left3, hlist, h4⟩ := gives_bind.mp h3
      obtain ⟨rfl, rfl⟩ := gives_pure.mp h4
      obtain ⟨rfl, hvalid, hsorted, -, rfl⟩ :=
        ascending_front oneForm_entry Std.TransCmp.lt_trans hlist
      refine ⟨.sparse hsorted ((oneForm_len hmax _).front hlen) hvalid, ?_⟩
      rw [(oneForm_len hmax _).exact hlen]
      simp only [Hll.put, List.cons_append, List.append_assoc]
    · rcases gives_ite.mp h2 with ⟨rfl, h3⟩ | ⟨-, h3⟩
      · obtain ⟨dense, left2, htake, h4⟩ := gives_bind.mp h3
        obtain ⟨u, left3, hranks, h5⟩ := gives_bind.mp h4
        obtain ⟨hsmall, rfl⟩ := gives_check.mp hranks
        obtain ⟨u', left4, hmany, h6⟩ := gives_bind.mp h5
        obtain ⟨hfull, rfl⟩ := gives_check.mp hmany
        obtain ⟨rfl, rfl⟩ := gives_pure.mp h6
        obtain ⟨rfl, hlen⟩ := gives_take.mp htake
        refine ⟨.dense hlen hsmall hfull, ?_⟩
        simp only [Hll.put, List.cons_append]
      · exact absurd h3 gives_throw

/-! ## States -/

/-- What a state that has seen `deleted` may hold. -/
def DataOk (json : Json) (deleted : Stamp) : Data → Prop
  | .Lww stamp v | .First stamp v => deleted < stamp ∧ Storable json MAX_VALUE_BYTES v
  | .Max v | .Min v => is_number v = true ∧ Storable json MAX_VALUE_BYTES v
  | .Sum counts => CountsOk counts
  | .Union elements => ElementsOk json elements
  | .Hll sketch => Canonical sketch.registers

structure StateOk (json : Json) (s : KeyState) : Prop where
  expires : s.data = none → s.expires_ms = 0
  data : ∀ d ∈ s.data, DataOk json s.deleted d

theorem oneForm_stamped (json : Json) (deleted : Stamp) :
    OneForm (KeyState.stamped json deleted) (fun p => p.1.put ++ put_value json p.2)
      (fun p => deleted < p.1 ∧ Storable json MAX_VALUE_BYTES p.2) := by
  have hmax : MAX_VALUE_BYTES < 2 ^ 128 := by decide
  apply OneForm.intro
  · rintro ⟨stamp, v⟩ ⟨hstamp, hv⟩ rest
    rw [List.append_assoc]
    apply (oneForm_stamp.back trivial _).bind
    apply (Gives.check hstamp _).bind
    apply ((oneForm_value hmax).back hv rest).bind
    simp
  · intro bytes p rest h
    obtain ⟨stamp, left, hstamp, h1⟩ := gives_bind.mp h
    obtain ⟨u, left2, hcheck, h2⟩ := gives_bind.mp h1
    obtain ⟨hafter, rfl⟩ := gives_check.mp hcheck
    obtain ⟨v, left3, hv, h3⟩ := gives_bind.mp h2
    obtain ⟨rfl, rfl⟩ := gives_pure.mp h3
    refine ⟨⟨hafter, (oneForm_value hmax).front hv⟩, ?_⟩
    rw [oneForm_stamp.exact hstamp, (oneForm_value hmax).exact hv, List.append_assoc]

theorem oneForm_number (json : Json) :
    OneForm (KeyState.number json) (put_value json)
      (fun v => is_number v = true ∧ Storable json MAX_VALUE_BYTES v) := by
  have hmax : MAX_VALUE_BYTES < 2 ^ 128 := by decide
  apply OneForm.intro
  · rintro v ⟨hnumber, hv⟩ rest
    apply ((oneForm_value hmax).back hv rest).bind
    apply (Gives.check hnumber rest).bind
    simp
  · intro bytes v rest h
    obtain ⟨w, left, hv, h1⟩ := gives_bind.mp h
    obtain ⟨u, left2, hcheck, h2⟩ := gives_bind.mp h1
    obtain ⟨hnumber, rfl⟩ := gives_check.mp hcheck
    obtain ⟨rfl, rfl⟩ := gives_pure.mp h2
    exact ⟨⟨hnumber, (oneForm_value hmax).front hv⟩, (oneForm_value hmax).exact hv⟩

def put_held (json : Json) : Option Data → Bytes
  | none => [0]
  | some data => tag data :: KeyState.put_data json data

theorem held_front {α : Type} {m : Wire.Reader DecodeError α} {put : α → Bytes} {Valid : α → Prop}
    (hm : OneForm m put Valid) {c : α → Data} {deleted : Stamp} {form : UInt8}
    (hc : ∀ a, tag (c a) = form ∧ KeyState.put_data json (c a) = put a ∧
      (Valid a → DataOk json deleted (c a))) {o : Option Data}
    (h : Gives (do return some (c (← m))) bytes o rest) :
    (∀ d ∈ o, DataOk json deleted d) ∧ form :: bytes = put_held json o ++ rest := by
  obtain ⟨a, left, ha, hout⟩ := gives_bind.mp h
  obtain ⟨rfl, rfl⟩ := gives_pure.mp hout
  obtain ⟨hform, hput, hok⟩ := hc a
  refine ⟨?_, ?_⟩
  · rintro d ⟨⟩
    exact hok (hm.front ha)
  · rw [hm.exact ha, put_held, hform, hput]
    rfl

theorem oneForm_held (json : Json) (deleted : Stamp) :
    OneForm (KeyState.read_data json deleted) (put_held json)
      (fun o => ∀ d ∈ o, DataOk json deleted d) := by
  apply OneForm.intro
  · intro o ho rest
    cases o with
    | none =>
      apply (gives_byte.mpr rfl).bind
      simp
    | some d =>
      have hd : DataOk json deleted d := ho d rfl
      apply (gives_byte.mpr rfl).bind
      cases d with
      | Lww stamp v =>
        iterate 1 rw [if_neg (by simp [tag])]
        rw [if_pos (show tag (Data.Lww stamp v) = 1 from rfl)]
        exact ((oneForm_stamped json deleted).back (a := (stamp, v)) hd rest).bind (by simp)
      | First stamp v =>
        iterate 2 rw [if_neg (by simp [tag])]
        rw [if_pos (show tag (Data.First stamp v) = 2 from rfl)]
        exact ((oneForm_stamped json deleted).back (a := (stamp, v)) hd rest).bind (by simp)
      | Max v =>
        iterate 3 rw [if_neg (by simp [tag])]
        rw [if_pos (show tag (Data.Max v) = 3 from rfl)]
        exact ((oneForm_number json).back hd rest).bind (by simp)
      | Min v =>
        iterate 4 rw [if_neg (by simp [tag])]
        rw [if_pos (show tag (Data.Min v) = 4 from rfl)]
        exact ((oneForm_number json).back hd rest).bind (by simp)
      | Sum counts =>
        iterate 5 rw [if_neg (by simp [tag])]
        rw [if_pos (show tag (Data.Sum counts) = 5 from rfl)]
        exact (oneForm_counts.back hd rest).bind (by simp)
      | Union elements =>
        iterate 6 rw [if_neg (by simp [tag])]
        rw [if_pos (show tag (Data.Union elements) = 6 from rfl)]
        exact ((oneForm_elements json).back hd rest).bind (by simp)
      | Hll sketch =>
        iterate 7 rw [if_neg (by simp [tag])]
        rw [if_pos (show tag (Data.Hll sketch) = 7 from rfl)]
        exact (oneForm_hll.back hd rest).bind (by simp)
  · intro bytes o rest h
    obtain ⟨form, left, hform, h0⟩ := gives_bind.mp h
    rw [gives_byte.mp hform]
    rcases gives_ite.mp h0 with ⟨rfl, h1⟩ | ⟨-, h1⟩
    · obtain ⟨rfl, rfl⟩ := gives_pure.mp h1
      exact ⟨by simp, rfl⟩
    rcases gives_ite.mp h1 with ⟨rfl, h2⟩ | ⟨-, h2⟩
    · exact held_front (oneForm_stamped json deleted) (c := fun p : Stamp × Value => .Lww p.1 p.2)
        (fun _ => ⟨rfl, rfl, fun h => h⟩) h2
    rcases gives_ite.mp h2 with ⟨rfl, h3⟩ | ⟨-, h3⟩
    · exact held_front (oneForm_stamped json deleted) (c := fun p : Stamp × Value => .First p.1 p.2)
        (fun _ => ⟨rfl, rfl, fun h => h⟩) h3
    rcases gives_ite.mp h3 with ⟨rfl, h4⟩ | ⟨-, h4⟩
    · exact held_front (oneForm_number json) (c := .Max) (fun _ => ⟨rfl, rfl, fun h => h⟩) h4
    rcases gives_ite.mp h4 with ⟨rfl, h5⟩ | ⟨-, h5⟩
    · exact held_front (oneForm_number json) (c := .Min) (fun _ => ⟨rfl, rfl, fun h => h⟩) h5
    rcases gives_ite.mp h5 with ⟨rfl, h6⟩ | ⟨-, h6⟩
    · exact held_front oneForm_counts (c := .Sum) (fun _ => ⟨rfl, rfl, fun h => h⟩) h6
    rcases gives_ite.mp h6 with ⟨rfl, h7⟩ | ⟨-, h7⟩
    · exact held_front (oneForm_elements json) (c := .Union) (fun _ => ⟨rfl, rfl, fun h => h⟩) h7
    rcases gives_ite.mp h7 with ⟨rfl, h8⟩ | ⟨-, h8⟩
    · exact held_front oneForm_hll (c := .Hll) (fun _ => ⟨rfl, rfl, fun h => h⟩) h8
    · exact absurd h8 gives_throw

theorem encoded_eq (json : Json) (s : KeyState) :
    s.encoded json = VERSION :: (s.deleted.put ++ (put_varint s.expires_ms.toNat ++
      put_held json s.data)) := by
  unfold KeyState.encoded put_held
  cases s.data <;> simp only [List.cons_append, List.append_assoc]

variable {s : KeyState}

theorem read_encoded (hs : StateOk json s) :
    Gives (KeyState.read_state json) (s.encoded json) s [] := by
  rw [encoded_eq]
  apply (gives_byte.mpr rfl).bind
  apply (Gives.check rfl _).bind
  apply (oneForm_stamp.back trivial _).bind
  apply (oneForm_u64_varint.back trivial _).bind
  have hread := (oneForm_held json s.deleted).back hs.data []
  rw [List.append_nil] at hread
  apply hread.bind
  apply (Gives.check _ _).bind
  · apply (gives_isEmpty.mpr ⟨rfl, rfl⟩).bind
    apply (Gives.check rfl _).bind
    simp
  · rintro ⟨hnone, hne⟩
    exact hne (hs.expires (Option.isNone_iff_eq_none.mp hnone))

/-! ## The bound of the bytes -/

theorem length_flatMap_le {α : Type} {f : α → Bytes} {l : List α} (h : ∀ a ∈ l, (f a).length ≤ k) :
    (l.flatMap f).length ≤ l.length * k := by
  induction l with
  | nil => simp
  | cons a l ih =>
    have ha := h a (by simp)
    have hl := ih fun b hb => h b (List.mem_cons_of_mem _ hb)
    rw [List.flatMap_cons, List.length_append, List.length_cons, Nat.add_mul]
    omega

theorem length_stamp_put (s : Stamp) : s.put.length = 16 := by
  simp [Stamp.put]

theorem length_put_row {row : Row} (h : RowOk row) : (Counts.put_row row).length ≤ 294 := by
  have hnode := h.node
  have hup : (put_varint row.up).length ≤ 19 :=
    length_put_varint (Nat.lt_of_lt_of_le h.up (by decide)) (by omega)
  have hdown : (put_varint row.down).length ≤ 19 :=
    length_put_varint (Nat.lt_of_lt_of_le h.down (by decide)) (by omega)
  unfold MAX_NODE_ID_BYTES at hnode
  simp only [Counts.put_row, List.length_cons, List.length_append]
  omega

/-- The largest payload is a full set of the largest elements. -/
theorem length_put_data {deleted : Stamp} {d : Data} (hd : DataOk json deleted d) :
    (KeyState.put_data json d).length ≤ 2 + MAX_SET_ELEMENTS * value_max MAX_ELEMENT_BYTES := by
  have hbound : 2 + MAX_SET_ELEMENTS * value_max MAX_ELEMENT_BYTES = 265218 := rfl
  rw [hbound]
  cases d with
  | Lww stamp v | First stamp v =>
    have hv := length_put_value hd.2 (by decide)
    have hmax : value_max MAX_VALUE_BYTES = 4099 := rfl
    simp only [KeyState.put_data, List.length_append, length_stamp_put]
    omega
  | Max v | Min v =>
    have hv := length_put_value hd.2 (by decide)
    have hmax : value_max MAX_VALUE_BYTES = 4099 := rfl
    simp only [KeyState.put_data]
    omega
  | Sum counts =>
    obtain ⟨-, hlen, hrows⟩ := hd
    unfold MAX_COUNTER_NODES at hlen
    have hn : (put_len counts.rows.length).length ≤ 2 := length_put_varint (by omega) (by omega)
    have hflat := length_flatMap_le (f := Counts.put_row)
      fun row hrow => length_put_row (hrows row hrow)
    simp only [KeyState.put_data, Counts.put, List.length_append]
    omega
  | Union elements =>
    obtain ⟨-, hlen, hitems⟩ := hd
    unfold MAX_SET_ELEMENTS at hlen
    have hn : (put_len elements.items.length).length ≤ 2 :=
      length_put_varint (by omega) (by omega)
    have hflat := length_flatMap_le (f := fun item : Bytes × Value => put_value json item.2)
      fun item hitem => length_put_value (hitems item hitem).storable (by decide)
    have hmax : value_max MAX_ELEMENT_BYTES = 259 := rfl
    rw [hmax] at hflat
    simp only [KeyState.put_data, Elements.put, List.length_append]
    omega
  | Hll sketch =>
    obtain ⟨r⟩ := sketch
    cases hd with
    | sparse hl hlen hv =>
      have hmax : HLL_SPARSE_MAX = 3072 := rfl
      rw [hmax] at hlen
      rename_i list
      have hn : (put_len list.length).length ≤ 2 := length_put_varint (by omega) (by omega)
      have hflat := length_flatMap_le (l := list) (f := Hll.put_entry) (k := 3)
        fun e _ => le_refl 3
      simp only [KeyState.put_data, Hll.put, List.length_cons, List.length_append]
      omega
    | dense hlen hranks hmany =>
      have hmax : HLL_DENSE_BYTES = 12288 := rfl
      rw [hmax] at hlen
      simp only [KeyState.put_data, Hll.put, List.length_cons]
      omega

theorem length_encoded (hs : StateOk json s) : (s.encoded json).length ≤ MAX_ENCODED_BYTES := by
  have hexpires : (put_varint s.expires_ms.toNat).length ≤ 10 := by
    apply length_put_varint _ (by omega)
    exact Nat.lt_of_lt_of_le s.expires_ms.toNat_lt (by decide)
  have hheld : (put_held json s.data).length ≤
      1 + (2 + MAX_SET_ELEMENTS * value_max MAX_ELEMENT_BYTES) := by
    rcases hdata : s.data with _ | d
    · simp only [put_held, List.length_cons, List.length_nil]
      omega
    · have hd := length_put_data (hs.data d hdata)
      simp only [put_held, List.length_cons]
      omega
  rw [encoded_eq]
  simp only [List.length_cons, List.length_append, length_stamp_put]
  unfold MAX_ENCODED_BYTES
  omega

/-! ## What is accepted -/

theorem decode_encoded (hs : StateOk json s) : KeyState.decode json (s.encoded json) = .ok s := by
  have hread : (KeyState.read_state json).run (s.encoded json) = .ok (s, []) := read_encoded hs
  have hlen := length_encoded hs
  unfold KeyState.decode
  rw [if_neg (by omega), hread]

theorem decode_front (h : KeyState.decode json bytes = .ok s) :
    StateOk json s ∧ s.encoded json = bytes := by
  unfold KeyState.decode at h
  split at h
  · cases h
  rcases hrun : (KeyState.read_state json).run bytes with e | ⟨s', rest⟩
  · rw [hrun] at h
    cases h
  rw [hrun] at h
  cases h
  have hg : Gives (KeyState.read_state json) bytes s rest := hrun
  obtain ⟨version, left, hversion, h1⟩ := gives_bind.mp hg
  obtain ⟨u, left2, hcheck, h2⟩ := gives_bind.mp h1
  obtain ⟨rfl, rfl⟩ := gives_check.mp hcheck
  obtain ⟨deleted, left3, hdeleted, h3⟩ := gives_bind.mp h2
  obtain ⟨expires, left4, hexpires, h4⟩ := gives_bind.mp h3
  obtain ⟨data, left5, hdata, h5⟩ := gives_bind.mp h4
  obtain ⟨u', left6, hheld, h6⟩ := gives_bind.mp h5
  obtain ⟨hneed, rfl⟩ := gives_check.mp hheld
  obtain ⟨empty, left7, hempty, h7⟩ := gives_bind.mp h6
  obtain ⟨rfl, rfl⟩ := gives_isEmpty.mp hempty
  obtain ⟨u'', left8, hdone, h8⟩ := gives_bind.mp h7
  obtain ⟨hnil, rfl⟩ := gives_check.mp hdone
  obtain ⟨rfl, rfl⟩ := gives_pure.mp h8
  refine ⟨⟨?_, (oneForm_held json deleted).front hdata⟩, ?_⟩
  · intro hnone
    by_contra hne
    exact hneed ⟨by simpa using hnone, hne⟩
  · rw [encoded_eq, gives_byte.mp hversion, oneForm_stamp.exact hdeleted,
      oneForm_u64_varint.exact hexpires, (oneForm_held json deleted).exact hdata,
      List.isEmpty_iff.mp hnil, List.append_nil]

theorem decode_ok (h : KeyState.decode json bytes = .ok s) : StateOk json s := (decode_front h).1

theorem encoded_decode (h : KeyState.decode json bytes = .ok s) : s.encoded json = bytes :=
  (decode_front h).2

end mqtt_rules
