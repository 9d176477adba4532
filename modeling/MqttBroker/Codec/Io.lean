-- The primitive types of the MQTT wire (`varint.rs`, `io.rs`): variable byte
-- integers, big-endian numbers, and strings and blobs with their length in front.
import MqttBroker.Lib.Wire

namespace mqtt_codec

abbrev Bytes := List UInt8

inductive CodecError
  | Incomplete
  | MalformedVarInt
  | UnsupportedProtocol (level : UInt8)
  | ProtocolViolation (reason : String)
  | MalformedPacket (reason : String)
  | InvalidUtf8
  | PacketTooLarge
  | ValueOutOfRange (field : String)
  deriving DecidableEq, Repr

abbrev Reader := Wire.Reader CodecError
abbrev Result := Except CodecError

open Wire ByteCodec

/-! ## Variable byte integers -/

namespace varint

def MAX : Nat := 268435455

/-- The loop of `decode` over the first bytes: the value and how many bytes it took. -/
def decode_loop : Bytes → Nat → Nat → Nat → Option (Nat × Nat)
  | [], _, _, _ => none
  | byte :: rest, i, value, multiplier =>
    let value := value + (byte &&& 0x7F).toNat * multiplier
    if byte &&& 0x80 = 0 then some (value, i + 1)
    else decode_loop rest (i + 1) value (multiplier * 128)

def decode (buf : Bytes) : Result (Nat × Nat) :=
  match decode_loop (buf.take 4) 0 0 1 with
  | some p => .ok p
  | none => if buf.length < 4 then .error .Incomplete else .error .MalformedVarInt

/-- The loop of `encode`. Up to `MAX` four turns are enough. -/
def encode_loop : Nat → Nat → Bytes
  | 0, _ => []
  | turns + 1, value =>
    if 0 < value / 128 then (UInt8.ofNat (value % 128) ||| 0x80) :: encode_loop turns (value / 128)
    else [UInt8.ofNat (value % 128)]

def encode (value : Nat) : Result Bytes :=
  if MAX < value then .error (.ValueOutOfRange "variable byte integer")
  else .ok (encode_loop 4 value)

def encoded_len (value : Nat) : Nat :=
  if value ≤ 127 then 1
  else if value ≤ 16383 then 2
  else if value ≤ 2097151 then 3
  else 4

theorem decode_loop_cons (byte : UInt8) (rest : Bytes) (i value multiplier : Nat) :
    decode_loop (byte :: rest) i value multiplier =
      if byte.toNat < 128 then some (value + byte.toNat * multiplier, i + 1)
      else decode_loop rest (i + 1) (value + byte.toNat % 128 * multiplier) (multiplier * 128) := by
  simp only [decode_loop, low_bits, high_bit]
  split
  · rename_i h
    rw [Nat.mod_eq_of_lt h]
  · rfl

/-- What was written is read back, whatever comes after it. -/
theorem decode_loop_encode (turns value : Nat) (h : value < 128 ^ turns) (ht : 0 < turns)
    (rest : Bytes) (i acc multiplier : Nat) :
    decode_loop (encode_loop turns value ++ rest) i acc multiplier =
      some (acc + value * multiplier, i + (encode_loop turns value).length) := by
  induction turns generalizing value i acc multiplier with
  | zero => omega
  | succ turns ih =>
    have hmod : value % 128 < 128 := Nat.mod_lt _ (by omega)
    unfold encode_loop
    split
    · rename_i hmore
      have hdiv : value / 128 < 128 ^ turns := by
        rw [Nat.div_lt_iff_lt_mul (by omega), ← Nat.pow_succ]
        exact h
      have hturns : 0 < turns := by
        rcases Nat.eq_zero_or_pos turns with rfl | hpos
        · simp at hdiv
          omega
        · exact hpos
      rw [List.cons_append, decode_loop_cons, more_byte _ hmod, if_neg (by omega),
        ih _ hdiv hturns]
      have hval : value % 128 + value / 128 * 128 = value := by omega
      rw [Nat.add_mod_right, Nat.mod_eq_of_lt hmod]
      simp only [List.length_cons, Option.some.injEq, Prod.mk.injEq]
      refine ⟨?_, by omega⟩
      calc acc + value % 128 * multiplier + value / 128 * (multiplier * 128)
          = acc + (value % 128 + value / 128 * 128) * multiplier := by ring
        _ = acc + value * multiplier := by rw [hval]
    · have hlt : value < 128 := by omega
      rw [List.cons_append, decode_loop_cons, last_byte _ hmod, if_pos hmod,
        Nat.mod_eq_of_lt hlt]
      rfl

theorem length_encode_loop {value : Nat} (h : value ≤ MAX) :
    (encode_loop 4 value).length = encoded_len value := by
  unfold MAX at h
  simp only [encode_loop, encoded_len]
  split_ifs <;> first | rfl | omega

theorem encoded_len_pos (value : Nat) : 0 < encoded_len value := by
  unfold encoded_len
  split_ifs <;> omega

theorem encoded_len_le (value : Nat) : encoded_len value ≤ 4 := by
  unfold encoded_len
  split_ifs <;> omega

theorem encoded_len_mono {v w : Nat} (h : v ≤ w) : encoded_len v ≤ encoded_len w := by
  unfold encoded_len
  split_ifs <;> omega

theorem decode_encode {value : Nat} (h : value ≤ MAX) (rest : Bytes) :
    decode (encode_loop 4 value ++ rest) = .ok (value, encoded_len value) := by
  have hlen := length_encode_loop h
  have hle := encoded_len_le value
  rw [decode, List.take_append, List.take_of_length_le (by omega),
    decode_loop_encode 4 value (by unfold MAX at h; omega) (by omega), hlen]
  simp

/-- What the loop reads: it stops within the bytes, at a value that the bytes it took
can hold. -/
theorem decode_loop_bounds {bytes : Bytes} {i acc multiplier v n : Nat}
    (h : decode_loop bytes i acc multiplier = some (v, n)) :
    i < n ∧ n ≤ i + bytes.length ∧ ∃ d < 128 ^ (n - i), v = acc + d * multiplier := by
  induction bytes generalizing i acc multiplier with
  | nil => cases h
  | cons byte rest ih =>
    rw [decode_loop_cons] at h
    split at h
    · rename_i hlt
      cases h
      refine ⟨by omega, by simp, byte.toNat, ?_, rfl⟩
      rw [Nat.add_sub_cancel_left]
      simpa using hlt
    · obtain ⟨hin, hlen, d, hd, rfl⟩ := ih h
      refine ⟨by omega, by simp only [List.length_cons]; omega, byte.toNat % 128 + d * 128, ?_, ?_⟩
      · have hpow : 128 ^ (n - i) = 128 ^ (n - (i + 1)) * 128 := by
          rw [← Nat.pow_succ]
          congr 1
          omega
        have hmod : byte.toNat % 128 < 128 := Nat.mod_lt _ (by omega)
        have hmul : (d + 1) * 128 ≤ 128 ^ (n - (i + 1)) * 128 := Nat.mul_le_mul_right _ hd
        rw [hpow]
        omega
      · ring

theorem decode_bounds {buf : Bytes} {v n : Nat} (h : decode buf = .ok (v, n)) :
    v ≤ MAX ∧ n ≤ buf.length ∧ encoded_len v ≤ n := by
  unfold decode at h
  split at h
  · rename_i p hp
    cases h
    obtain ⟨hpos, hlen, d, hd, rfl⟩ := decode_loop_bounds hp
    simp only [Nat.zero_add, List.length_take] at hlen
    simp only [Nat.sub_zero, Nat.zero_add, Nat.mul_one] at hd ⊢
    have hcases : n = 1 ∨ n = 2 ∨ n = 3 ∨ n = 4 := by omega
    refine ⟨?_, by omega, ?_⟩
    · unfold MAX
      rcases hcases with rfl | rfl | rfl | rfl <;> omega
    · unfold encoded_len
      rcases hcases with rfl | rfl | rfl | rfl <;> split_ifs <;> omega
  · split at h <;> cases h

end varint

/-! ## The reader -/

def MAX_U16 : Nat := 65535

def ensure_error : CodecError := .MalformedPacket "unexpected end of packet body"

def read_bytes (n : Nat) : Reader Bytes := fun buf =>
  if buf.length < n then .error ensure_error else .ok (buf.take n, buf.drop n)

def read_u8 : Reader UInt8 := do
  let b ← read_bytes 1
  return UInt8.ofNat (ByteCodec.ofBe b)

def read_u16 : Reader UInt16 := do
  let b ← read_bytes 2
  return UInt16.ofNat (ByteCodec.ofBe b)

def read_u32 : Reader UInt32 := do
  let b ← read_bytes 4
  return UInt32.ofNat (ByteCodec.ofBe b)

def read_varint : Reader Nat := fun buf =>
  match varint.decode buf with
  | .ok (value, consumed) => .ok (value, buf.drop consumed)
  | .error e => .error e

def read_binary : Reader Bytes := do
  let len ← read_u16
  read_bytes len.toNat

def read_string : Reader String := do
  let bytes ← read_binary
  if bytes.contains 0 then throw .InvalidUtf8
  else orThrow (String.fromUTF8? ⟨bytes.toArray⟩) .InvalidUtf8

def read_remaining : Reader Bytes := fun buf => .ok (buf, [])

def expect_empty : Reader Unit := do
  let empty ← isEmpty
  check (empty = true) (.MalformedPacket "unexpected payload bytes")

/-! ## The writer -/

abbrev as_bytes (s : String) : Bytes := ByteCodec.stringBytes s

def put_u8 (v : UInt8) : Bytes := [v]
def put_u16 (v : UInt16) : Bytes := ByteCodec.toBe 2 v.toNat
def put_u32 (v : UInt32) : Bytes := ByteCodec.toBe 4 v.toNat

def put_binary (data : Bytes) : Result Bytes :=
  if MAX_U16 < data.length then .error (.ValueOutOfRange "binary data length")
  else .ok (put_u16 (UInt16.ofNat data.length) ++ data)

def put_string (s : String) : Result Bytes := put_binary (as_bytes s)

/-! ## The pairs -/

theorem gives_read_bytes {n : Nat} {bytes b rest : Bytes} :
    Gives (read_bytes n) bytes b rest ↔ bytes = b ++ rest ∧ b.length = n := by
  show (if bytes.length < n then _ else _) = _ ↔ _
  split
  · rename_i hlt
    simp only [reduceCtorEq, false_iff, not_and]
    rintro rfl hlen
    rw [List.length_append] at hlt
    omega
  · rename_i hge
    simp only [Except.ok.injEq, Prod.mk.injEq]
    constructor
    · rintro ⟨rfl, rfl⟩
      exact ⟨(List.take_append_drop n bytes).symm, by rw [List.length_take]; omega⟩
    · rintro ⟨rfl, rfl⟩
      simp

theorem lawful_number {α : Type} (w : Nat) (ofNat : Nat → α) (toNat : α → Nat)
    (hto : ∀ a, toNat a < 256 ^ w) (hback : ∀ a, ofNat (toNat a) = a) :
    Lawful (do let b ← read_bytes w; return ofNat (ByteCodec.ofBe b) : Reader α)
      (fun a => .ok (ByteCodec.toBe w (toNat a))) (fun _ => w) (fun _ => True) := by
  constructor
  · intro a _
    refine ⟨_, rfl, ByteCodec.length_toBe w _, fun rest => ?_⟩
    refine Gives.bind (gives_read_bytes.mpr ⟨rfl, ByteCodec.length_toBe w _⟩) ?_
    rw [ByteCodec.ofBe_toBe w _ (hto a), hback]
    simp
  · intro bytes a rest hg
    obtain ⟨b, left, hb, hpure⟩ := gives_bind.mp hg
    obtain ⟨hbytes, hlen⟩ := gives_read_bytes.mp hb
    obtain ⟨-, rfl⟩ := gives_pure.mp hpure
    exact ⟨trivial, by rw [hbytes, List.length_append, hlen]⟩

theorem lawful_u8 : Lawful read_u8 (fun v => .ok (put_u8 v)) (fun _ => 1) (fun _ => True) := by
  have hput : ∀ v, put_u8 v = ByteCodec.toBe 1 v.toNat := by
    intro v
    simp [put_u8, ByteCodec.toBe]
  simp only [hput]
  exact lawful_number 1 UInt8.ofNat UInt8.toNat (fun a => a.toNat_lt) (fun a => by simp)

theorem lawful_u16 : Lawful read_u16 (fun v => .ok (put_u16 v)) (fun _ => 2) (fun _ => True) :=
  lawful_number 2 UInt16.ofNat UInt16.toNat (fun a => a.toNat_lt) (fun a => by simp)

theorem lawful_u32 : Lawful read_u32 (fun v => .ok (put_u32 v)) (fun _ => 4) (fun _ => True) :=
  lawful_number 4 UInt32.ofNat UInt32.toNat (fun a => a.toNat_lt) (fun a => by simp)

theorem lawful_varint :
    Lawful read_varint varint.encode varint.encoded_len (fun v => v ≤ varint.MAX) := by
  constructor
  · intro v hv
    refine ⟨varint.encode_loop 4 v, ?_, varint.length_encode_loop hv, fun rest => ?_⟩
    · rw [varint.encode, if_neg (by omega)]
    · show (match varint.decode _ with | .ok (value, consumed) => _ | .error e => _) = _
      rw [varint.decode_encode hv, ← varint.length_encode_loop hv]
      simp
  · intro bytes v rest hg
    have hread : (match varint.decode bytes with
      | .ok (value, consumed) => .ok (value, bytes.drop consumed)
      | .error e => .error e) = Except.ok (v, rest) := hg
    split at hread
    · rename_i value consumed hdecode
      cases hread
      obtain ⟨hmax, hlen, hsize⟩ := varint.decode_bounds hdecode
      refine ⟨hmax, ?_⟩
      rw [List.length_drop]
      omega
    · cases hread

def BinaryOk (data : Bytes) : Prop := data.length ≤ MAX_U16

instance (data : Bytes) : Decidable (BinaryOk data) := inferInstanceAs (Decidable (_ ≤ _))

def prefixed_len (data : Bytes) : Nat := 2 + data.length

theorem lawful_binary : Lawful read_binary put_binary prefixed_len BinaryOk := by
  constructor
  · intro data hok
    have hmax : ¬ MAX_U16 < data.length := Nat.not_lt.mpr hok
    have hlen : (UInt16.ofNat data.length).toNat = data.length := by
      rw [UInt16.toNat_ofNat']
      exact Nat.mod_eq_of_lt (by unfold BinaryOk MAX_U16 at hok; omega)
    refine ⟨_, by rw [put_binary, if_neg hmax], ?_, fun rest => ?_⟩
    · simp [put_u16, prefixed_len]
    · obtain ⟨bytes, hput, -, hread⟩ := lawful_u16.back (a := UInt16.ofNat data.length) trivial
      cases hput
      rw [List.append_assoc]
      exact (hread (data ++ rest)).bind (gives_read_bytes.mpr ⟨rfl, hlen.symm⟩)
  · intro bytes data rest hg
    obtain ⟨len, left, hlen, hg⟩ := gives_bind.mp hg
    obtain ⟨rfl, hdata⟩ := gives_read_bytes.mp hg
    have hsize := (lawful_u16.front hlen).2
    have hlt := len.toNat_lt
    refine ⟨by unfold BinaryOk MAX_U16; omega, ?_⟩
    simp only [List.length_append, prefixed_len] at hsize ⊢
    omega

/-- A string fits its length field and has no NUL. -/
def StringOk (s : String) : Prop := BinaryOk (as_bytes s) ∧ (0 : UInt8) ∉ as_bytes s

instance (s : String) : Decidable (StringOk s) := inferInstanceAs (Decidable (_ ∧ _))

theorem lawful_string :
    Lawful read_string put_string (fun s => prefixed_len (as_bytes s)) StringOk := by
  constructor
  · rintro s ⟨hbinary, hnul⟩
    obtain ⟨bytes, hput, hsize, hread⟩ := lawful_binary.back hbinary
    refine ⟨bytes, hput, hsize, fun rest => (hread rest).bind ?_⟩
    rw [if_neg (by simpa using hnul), ByteCodec.fromUTF8_stringBytes]
    simp
  · intro bytes s rest hg
    obtain ⟨data, left, hdata, hg⟩ := gives_bind.mp hg
    rcases gives_ite.mp hg with ⟨-, hg⟩ | ⟨hnul, hg⟩
    · exact absurd hg gives_throw
    · obtain ⟨hs, rfl⟩ := gives_orThrow.mp hg
      obtain rfl := ByteCodec.stringBytes_fromUTF8 hs
      obtain ⟨hbinary, hsize⟩ := lawful_binary.front hdata
      exact ⟨⟨hbinary, by simpa using hnul⟩, hsize⟩

@[simp] theorem gives_read_remaining {bytes b rest : Bytes} :
    Gives read_remaining bytes b rest ↔ bytes = b ∧ rest = [] := by
  show Except.ok (bytes, []) = Except.ok (b, rest) ↔ _
  simp [@eq_comm _ [] rest]

@[simp] theorem gives_expect_empty {u : Unit} {bytes rest : Bytes} :
    Gives expect_empty bytes u rest ↔ bytes = [] ∧ rest = [] := by
  unfold expect_empty
  rw [gives_bind]
  constructor
  · rintro ⟨empty, left, hempty, hcheck⟩
    obtain ⟨hleft, rfl⟩ := gives_isEmpty.mp hempty
    obtain ⟨htrue, rfl⟩ := gives_check.mp hcheck
    have hnil : bytes = [] := List.isEmpty_iff.mp (hleft.trans htrue)
    exact ⟨hnil, hnil⟩
  · rintro ⟨rfl, rfl⟩
    exact ⟨true, [], gives_isEmpty.mpr ⟨rfl, rfl⟩, gives_check.mpr ⟨rfl, rfl⟩⟩

theorem gives_end : Gives expect_empty [] () [] := gives_expect_empty.mpr ⟨rfl, rfl⟩

end mqtt_codec
