-- Numbers as bytes, most significant first, and a reader that takes the bytes
-- of a payload from the front. What a writer put in front, the reader takes.
import Mathlib.Data.List.Induction
import Mathlib.Tactic.Ring
import Mathlib.Tactic.Linarith

namespace ByteCodec

/-! ## Big-endian numbers -/

/-- The last `w` bytes of a number, most significant first. -/
def toBe : Nat → Nat → List UInt8
  | 0, _ => []
  | w + 1, n => toBe w (n / 256) ++ [UInt8.ofNat n]

/-- The number that the bytes spell. -/
def ofBe (bytes : List UInt8) : Nat := bytes.foldl (fun n b => n * 256 + b.toNat) 0

@[simp] theorem length_toBe (w n : Nat) : (toBe w n).length = w := by
  induction w generalizing n with
  | zero => rfl
  | succ w ih => simp [toBe, ih]

/-- A number that fits its width is read back. -/
theorem ofBe_toBe (w n : Nat) (h : n < 256 ^ w) : ofBe (toBe w n) = n := by
  induction w generalizing n with
  | zero =>
    have hn : n = 0 := by simpa using h
    simp [hn, ofBe, toBe]
  | succ w ih =>
    have hdiv : n / 256 < 256 ^ w := by
      apply Nat.div_lt_of_lt_mul
      rw [Nat.mul_comm, ← Nat.pow_succ]
      exact h
    have hrec : ofBe (toBe w (n / 256)) = n / 256 := ih _ hdiv
    unfold ofBe at hrec ⊢
    rw [toBe, List.foldl_append, hrec]
    simp only [List.foldl_cons, List.foldl_nil, UInt8.toNat_ofNat']
    omega

theorem ofBe_lt (bytes : List UInt8) : ofBe bytes < 256 ^ bytes.length := by
  have h : ∀ (bytes : List UInt8) (n k : Nat), n < 256 ^ k →
      bytes.foldl (fun n b => n * 256 + b.toNat) n < 256 ^ (k + bytes.length) := by
    intro bytes
    induction bytes with
    | nil => exact fun n k hn => hn
    | cons b bytes ih =>
      intro n k hn
      have hb := b.toNat_lt
      have hnext : n * 256 + b.toNat < 256 ^ (k + 1) := by
        rw [Nat.pow_succ]
        omega
      have hrest := ih (n * 256 + b.toNat) (k + 1) hnext
      rw [List.foldl_cons, List.length_cons]
      rwa [show k + (bytes.length + 1) = k + 1 + bytes.length by omega]
  simpa [ofBe] using h bytes 0 0 (by simp)

theorem toBe_ofBe (bytes : List UInt8) : toBe bytes.length (ofBe bytes) = bytes := by
  induction bytes using List.reverseRecOn with
  | nil => rfl
  | append_singleton bytes b ih =>
    have hb := b.toNat_lt
    have hofBe : ofBe (bytes ++ [b]) = ofBe bytes * 256 + b.toNat := by
      simp [ofBe, List.foldl_append]
    have hdiv : (ofBe bytes * 256 + b.toNat) / 256 = ofBe bytes := by omega
    have hlast : UInt8.ofNat (ofBe bytes * 256 + b.toNat) = b := by
      rw [← UInt8.toNat_inj, UInt8.toNat_ofNat']
      omega
    rw [hofBe, List.length_append, List.length_singleton, toBe, hdiv, hlast, ih]

/-! ## The reader -/

/-- Why a payload does not decode. -/
inductive ReadError
  | Short (wanted left : Nat)
  | NotUtf8
  | UnknownKind (kind : UInt8)
  deriving DecidableEq, Repr

/-- A bounds-checked reader over the bytes that are left. -/
abbrev Reader := StateT (List UInt8) (Except ReadError)

namespace Reader

def take (n : Nat) : Reader (List UInt8) := fun b =>
  if b.length < n then .error (.Short n b.length) else .ok (b.take n, b.drop n)

/-- A number of `w` bytes. -/
def number (w : Nat) : Reader Nat := do
  let b ← take w
  return ofBe b

/-- Bytes with their length in front. -/
def prefixed (w : Nat) : Reader (List UInt8) := do
  let n ← number w
  take n

/-- All that is left. -/
def rest : Reader (List UInt8) := fun b => .ok (b, [])

/-- The string that the bytes spell. -/
def utf8 (b : List UInt8) : Reader String := fun left =>
  match String.fromUTF8? ⟨b.toArray⟩ with
  | some s => .ok (s, left)
  | none => .error .NotUtf8

/-- Strings with their lengths in front, until nothing is left. Each takes `w` bytes at
least, so a fuel of the bytes left is enough. -/
def strings (w : Nat) : Nat → Reader (List String)
  | 0 => return []
  | fuel + 1 => do
    if (← get).isEmpty then return []
    let s ← utf8 (← prefixed w)
    return s :: (← strings w fuel)

end Reader

/-- Writes bytes with their length in front. -/
def putPrefixed (w : Nat) (b : List UInt8) : List UInt8 := toBe w b.length ++ b

/-- The bytes of a string. -/
def stringBytes (s : String) : List UInt8 := s.toByteArray.data.toList

theorem fromUTF8_stringBytes (s : String) :
    String.fromUTF8? ⟨(stringBytes s).toArray⟩ = some s := by
  rw [stringBytes, Array.toArray_toList, String.fromUTF8?, dif_pos s.isValidUTF8]
  rfl

theorem stringBytes_inj {s t : String} (h : stringBytes s = stringBytes t) : s = t := by
  have hs := fromUTF8_stringBytes s
  rw [h, fromUTF8_stringBytes] at hs
  exact (Option.some.inj hs).symm

theorem stringBytes_fromUTF8 {bytes : List UInt8} {s : String}
    (h : String.fromUTF8? ⟨bytes.toArray⟩ = some s) : stringBytes s = bytes := by
  unfold String.fromUTF8? at h
  split at h
  · cases h
    simp [stringBytes, String.fromUTF8]
  · cases h

/-! ## Seven bits a byte -/

theorem low_bits (b : UInt8) : (b &&& 0x7F).toNat = b.toNat % 128 := by
  rw [UInt8.toNat_and]
  exact Nat.and_two_pow_sub_one_eq_mod b.toNat 7

theorem high_bit (b : UInt8) : b &&& 0x80 = 0 ↔ b.toNat < 128 := by
  have h : ∀ n < 256, (UInt8.ofNat n &&& 0x80 = 0 ↔ n < 128) := by decide +kernel
  have hb := h b.toNat b.toNat_lt
  rwa [UInt8.ofNat_toNat] at hb

theorem more_byte (n : Nat) (h : n < 128) : (UInt8.ofNat n ||| 0x80).toNat = n + 128 := by
  have hall : ∀ n < 128, (UInt8.ofNat n ||| 0x80).toNat = n + 128 := by decide +kernel
  exact hall n h

theorem last_byte (n : Nat) (h : n < 128) : (UInt8.ofNat n).toNat = n := by
  rw [UInt8.toNat_ofNat']
  exact Nat.mod_eq_of_lt (by omega)

/-! ## What is written is read -/

/-- The reader gives `a` on the bytes, and leaves `rest`. -/
def Reads {α : Type} (m : Reader α) (bytes : List UInt8) (a : α) (rest : List UInt8) : Prop :=
  m.run bytes = .ok (a, rest)

section reads

variable {α β : Type} {a : α} {b : β} {bytes left rest : List UInt8}

theorem Reads.pure (a : α) (bytes : List UInt8) : Reads (Pure.pure a) bytes a bytes := rfl

variable {m : Reader α} {f : α → Reader β}

theorem Reads.bind (hm : Reads m bytes a left) (hf : Reads (f a) left b rest) :
    Reads (m >>= f) bytes b rest := by
  unfold Reads at hm hf ⊢
  rw [StateT.run_bind, hm]
  exact hf

theorem reads_take (a rest : List UInt8) : Reads (Reader.take a.length) (a ++ rest) a rest := by
  change (if (a ++ rest).length < a.length then _ else _) = _
  rw [if_neg (by simp)]
  simp

theorem reads_number (w n : Nat) (rest : List UInt8) (h : n < 256 ^ w) :
    Reads (Reader.number w) (toBe w n ++ rest) n rest := by
  have ht := reads_take (toBe w n) rest
  rw [length_toBe] at ht
  have hb : Reads (Reader.number w) (toBe w n ++ rest) (ofBe (toBe w n)) rest :=
    ht.bind (.pure _ rest)
  rwa [ofBe_toBe w n h] at hb

theorem reads_prefixed (w : Nat) (b rest : List UInt8) (h : b.length < 256 ^ w) :
    Reads (Reader.prefixed w) (putPrefixed w b ++ rest) b rest := by
  unfold putPrefixed
  rw [List.append_assoc]
  exact (reads_number w b.length (b ++ rest) h).bind (reads_take b rest)

theorem reads_rest (b : List UInt8) : Reads Reader.rest b b [] := rfl

theorem reads_utf8 (s : String) (left : List UInt8) :
    Reads (Reader.utf8 (stringBytes s)) left s left := by
  change (match String.fromUTF8? _ with | some s => _ | none => _) = _
  rw [fromUTF8_stringBytes]

theorem reads_strings (w : Nat) (hw : 0 < w) (ss : List String) (fuel : Nat)
    (h : ∀ s ∈ ss, (stringBytes s).length < 256 ^ w)
    (hf : (ss.flatMap (fun s => putPrefixed w (stringBytes s))).length ≤ fuel) :
    Reads (Reader.strings w fuel) (ss.flatMap (fun s => putPrefixed w (stringBytes s))) ss [] := by
  induction ss generalizing fuel with
  | nil => cases fuel <;> rfl
  | cons s ss ih =>
    rw [List.flatMap_cons] at hf ⊢
    have hlen : 0 < (putPrefixed w (stringBytes s)).length := by
      simp only [putPrefixed, List.length_append, length_toBe]
      omega
    rw [List.length_append] at hf
    obtain ⟨fuel, rfl⟩ : ∃ n, fuel = n + 1 := ⟨fuel - 1, by omega⟩
    have hne : (putPrefixed w (stringBytes s) ++
        ss.flatMap (fun s => putPrefixed w (stringBytes s))).isEmpty = false := by
      rw [List.isEmpty_eq_false_iff]
      intro he
      rw [List.append_eq_nil_iff] at he
      simp [he.1] at hlen
    have hrec := ih fuel (fun t ht => h t (List.mem_cons_of_mem s ht)) (by omega)
    unfold Reader.strings Reads
    rw [StateT.run_bind, StateT.run_get, pure_bind]
    simp only [hne]
    exact (reads_prefixed w (stringBytes s) _ (h s List.mem_cons_self)).bind
      ((reads_utf8 s _).bind (hrec.bind (.pure (s :: ss) [])))

/-! ## What is read was written -/

theorem Reads.of_bind (h : Reads (m >>= f) bytes b rest) :
    ∃ a left, Reads m bytes a left ∧ Reads (f a) left b rest := by
  unfold Reads at h
  rw [StateT.run_bind] at h
  cases hm : m.run bytes with
  | error e =>
    rw [hm] at h
    cases h
  | ok p =>
    rw [hm] at h
    exact ⟨p.1, p.2, hm, h⟩

variable {n : Nat} {taken : List UInt8}

theorem take_of_reads (h : Reads (Reader.take n) bytes taken rest) :
    bytes = taken ++ rest ∧ taken.length = n := by
  change (if bytes.length < n then _ else _) = _ at h
  split at h
  · cases h
  · next hlen =>
    cases h
    refine ⟨(List.take_append_drop n bytes).symm, ?_⟩
    rw [List.length_take]
    omega

variable {w : Nat}

theorem number_of_reads (h : Reads (Reader.number w) bytes n rest) : bytes = toBe w n ++ rest := by
  obtain ⟨taken, left, htake, hpure⟩ := h.of_bind
  obtain ⟨rfl, rfl⟩ := take_of_reads htake
  cases hpure
  rw [toBe_ofBe]

theorem prefixed_of_reads (h : Reads (Reader.prefixed w) bytes taken rest) :
    bytes = putPrefixed w taken ++ rest := by
  obtain ⟨n, left, hnumber, htake⟩ := h.of_bind
  obtain ⟨rfl, rfl⟩ := take_of_reads htake
  rw [number_of_reads hnumber, putPrefixed, List.append_assoc]

theorem rest_of_reads (h : Reads Reader.rest bytes taken rest) : bytes = taken ∧ rest = [] := by
  cases h
  exact ⟨rfl, rfl⟩

theorem utf8_of_reads {s : String} (h : Reads (Reader.utf8 taken) left s rest) :
    taken = stringBytes s ∧ rest = left := by
  change (match String.fromUTF8? _ with | some s => _ | none => _) = _ at h
  split at h
  · next hs =>
    cases h
    exact ⟨(stringBytes_fromUTF8 hs).symm, rfl⟩
  · cases h

theorem strings_of_reads (hw : 0 < w) {fuel : Nat} {ss : List String}
    (hfuel : bytes.length ≤ fuel) (h : Reads (Reader.strings w fuel) bytes ss rest) :
    bytes = ss.flatMap (fun s => putPrefixed w (stringBytes s)) ∧ rest = [] := by
  induction fuel generalizing bytes ss with
  | zero =>
    cases h
    exact ⟨List.length_eq_zero_iff.mp (by omega), List.length_eq_zero_iff.mp (by omega)⟩
  | succ fuel ih =>
    unfold Reader.strings Reads at h
    rw [StateT.run_bind, StateT.run_get, pure_bind] at h
    cases bytes with
    | nil =>
      cases h
      exact ⟨rfl, rfl⟩
    | cons x xs =>
      simp only [List.isEmpty_cons] at h
      obtain ⟨taken, left, hprefixed, h⟩ := Reads.of_bind h
      obtain ⟨s, left', hutf8, h⟩ := Reads.of_bind h
      obtain ⟨ss', left'', hstrings, hpure⟩ := Reads.of_bind h
      cases hpure
      obtain ⟨rfl, rfl⟩ := utf8_of_reads hutf8
      have hbytes := prefixed_of_reads hprefixed
      have hlen := congrArg List.length hbytes
      simp only [putPrefixed, List.length_append, length_toBe] at hlen
      obtain ⟨hleft, hnil⟩ := ih (by omega) hstrings
      rw [hbytes, hleft, List.flatMap_cons]
      exact ⟨rfl, hnil⟩

end reads

/-- A computation that ends well went through both of its parts. -/
theorem bind_ok {ε α β : Type} {x : Except ε α} {f : α → Except ε β} {b : β}
    (h : x >>= f = .ok b) : ∃ a, x = .ok a ∧ f a = .ok b := by
  cases x with
  | error e => cases h
  | ok a => exact ⟨a, rfl, h⟩

end ByteCodec
