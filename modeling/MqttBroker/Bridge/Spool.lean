-- The store-and-forward spool of one side (`spool.rs`), in memory or on disk: bounded by a
-- count and by bytes, with a policy for what happens at a bound. A record on disk is the
-- encoding of its message, which a drain decodes again.
import MqttBroker.Lib.OrderedMap
import MqttBroker.Bridge.Forward

namespace mqtt_bridge

open ByteCodec Wire

structure SpooledMessage where
  topic : String
  payload : Bytes
  qos : UInt8
  retain : Bool
  user_properties : List (String × String)
  deriving DecidableEq, Repr

def ENTRY_OVERHEAD : Nat := 256

def message_bytes (m : SpooledMessage) : Nat :=
  ENTRY_OVERHEAD + (stringBytes m.topic).length + m.payload.length +
    (m.user_properties.map (fun p => (stringBytes p.1).length + (stringBytes p.2).length)).sum

/-! ## The records -/

def U32_MAX : Nat := 2 ^ 32 - 1

/-- A count as `u32::try_from(..).unwrap_or(u32::MAX)` has it. -/
def clipped (n : Nat) : Nat := min n U32_MAX

def put_bytes (b : Bytes) : Bytes := toBe 4 (clipped b.length) ++ b.take (clipped b.length)

def put_property (p : String × String) : Bytes :=
  put_bytes (stringBytes p.1) ++ put_bytes (stringBytes p.2)

def encode (m : SpooledMessage) : Bytes :=
  put_bytes (stringBytes m.topic) ++ (put_bytes m.payload ++
    ([m.qos] ++ ([if m.retain then 1 else 0] ++
      (toBe 4 (clipped m.user_properties.length) ++
        (m.user_properties.take (clipped m.user_properties.length)).flatMap put_property))))

def continues (b : Option UInt8) : Bool :=
  match b with
  | some b => b &&& 0xC0 == 0x80
  | none => false

/-- Whether the second byte of a character fits its first one. -/
def secondFits (first : UInt8) (second : Option UInt8) : Bool :=
  match second with
  | none => false
  | some b =>
    if first = 0xE0 then decide (0xA0 ≤ b) && decide (b ≤ 0xBF)
    else if first = 0xED then decide (0x80 ≤ b) && decide (b ≤ 0x9F)
    else if first = 0xF0 then decide (0x90 ≤ b) && decide (b ≤ 0xBF)
    else if first = 0xF4 then decide (0x80 ≤ b) && decide (b ≤ 0x8F)
    else decide (0x80 ≤ b) && decide (b ≤ 0xBF)

/-- How many of the bytes are one character, or are replaced as one that is cut off. -/
def nextChunk (first : UInt8) (rest : Bytes) : Bool × Nat :=
  if first < 0x80 then (true, 1)
  else if first < 0xC2 then (false, 1)
  else if first < 0xE0 then if continues rest[0]? then (true, 2) else (false, 1)
  else if first < 0xF0 then
    if !secondFits first rest[0]? then (false, 1)
    else if continues rest[1]? then (true, 3) else (false, 2)
  else if first < 0xF5 then
    if !secondFits first rest[0]? then (false, 1)
    else if !continues rest[1]? then (false, 2)
    else if continues rest[2]? then (true, 4) else (false, 3)
  else (false, 1)

/-- The bytes with the replacement character in place of each sequence that is none. -/
def replaced : Nat → Bytes → Bytes
  | 0, _ => []
  | _, [] => []
  | fuel + 1, b :: rest =>
    match nextChunk b rest with
    | (true, n) => (b :: rest).take n ++ replaced fuel ((b :: rest).drop n)
    | (false, n) => [0xEF, 0xBF, 0xBD] ++ replaced fuel ((b :: rest).drop n)

/-- `String::from_utf8_lossy`: bytes that spell a string are that string. -/
def from_utf8_lossy (b : Bytes) : String :=
  match String.fromUTF8? ⟨b.toArray⟩ with
  | some s => s
  | none => (String.fromUTF8? ⟨(replaced b.length b).toArray⟩).getD ""

namespace Reader

def take (n : Nat) : Wire.Reader Unit Bytes := fun buf =>
  if buf.length < n then .error () else .ok (buf.take n, buf.drop n)

def u32 : Wire.Reader Unit Nat := do return ofBe (← take 4)

def u8 : Wire.Reader Unit UInt8 := fun buf =>
  match buf with
  | b :: rest => .ok (b, rest)
  | [] => .error ()

def bytes : Wire.Reader Unit Bytes := do take (← u32)

def string : Wire.Reader Unit String := do return from_utf8_lossy (← bytes)

/-- The loop over the user properties. -/
def properties : Nat → Wire.Reader Unit (List (String × String))
  | 0 => return []
  | n + 1 => do
    let k ← string
    let v ← string
    return (k, v) :: (← properties n)

def message : Wire.Reader Unit SpooledMessage := do
  let topic ← string
  let payload ← bytes
  let qos ← u8
  let retain ← u8
  let n ← u32
  let user_properties ← properties n
  return { topic, payload, qos, retain := retain ≠ 0, user_properties }

end Reader

def decode (buf : Bytes) : Option SpooledMessage :=
  match Reader.message.run buf with
  | .ok (m, _) => some m
  | .error _ => none

/-! ## The spool -/

inductive Overflow
  | Refuse
  | DropOldest
  deriving DecidableEq, Repr

inductive SpoolError
  | Backend
  | Full
  deriving DecidableEq, Repr

/-- Which forward of which routed message a record is, for the statements about a run; a
record of an earlier process has none. -/
abbrev Origin := Nat × Nat

inductive Inner
  | Mem (q : List (SpooledMessage × Option Origin)) (bytes : Nat)
  | Disk (table : BTreeMap Nat (Bytes × Option Origin)) (next bytes : Nat)

structure Spool where
  cap : Nat
  max_bytes : Option Nat
  inner : Inner
  dropped : Nat
  overflow : Overflow

/-- Where a transaction on the disk fails. A transaction that fails changes no table. It may
fail after some evictions, or at the removal of the next record. -/
inductive DiskFault
  | Read
  | Begin
  | Evict (done : Nat)
  | Remove (done : Nat)
  | Insert
  | Commit
  deriving DecidableEq, Repr

def USIZE_MAX : Nat := 2 ^ 64 - 1

def saturating_add (a b : Nat) : Nat := min (a + b) USIZE_MAX

namespace Spool

def in_memory (cap : Nat) : Spool :=
  { cap := max cap 1, max_bytes := none, inner := .Mem [] 0, dropped := 0, overflow := .Refuse }

def accounted (table : BTreeMap Nat (Bytes × Option Origin)) : Nat :=
  (table.toList.filterMap (fun e => (decode e.2.1).map message_bytes)).sum

/-- The spool over the records that the file holds: new keys go on after the last one. -/
def on_disk (file : BTreeMap Nat Bytes) (cap : Nat) : Spool :=
  let next := match file.keys.getLast? with
    | some k => k + 1
    | none => 0
  let table : BTreeMap Nat (Bytes × Option Origin) := file.map (fun _ record => (record, none))
  { cap := max cap 1, max_bytes := none, inner := .Disk table next (accounted table),
    dropped := 0, overflow := .Refuse }

def with_overflow (s : Spool) (policy : Overflow) : Spool := { s with overflow := policy }

def with_max_bytes (s : Spool) (max_bytes : Nat) : Spool :=
  { s with max_bytes := if max_bytes = 0 then none else some (min max_bytes USIZE_MAX) }

def len (s : Spool) : Nat :=
  match s.inner with
  | .Mem q _ => q.length
  | .Disk table _ _ => table.size

def bytes (s : Spool) : Nat :=
  match s.inner with
  | .Mem _ bytes => bytes
  | .Disk _ _ bytes => bytes

/-- Whether `incoming` bytes on top of `bytes` are over the budget. -/
def over_bytes (s : Spool) (bytes incoming : Nat) : Bool :=
  match s.max_bytes with
  | some cap => decide (saturating_add bytes incoming > cap)
  | none => false

/-- The oldest messages go until the newcomer fits: what stays, its bytes, and how many went. -/
def shed (s : Spool) (incoming : Nat) :
    List (SpooledMessage × Option Origin) → Nat → List (SpooledMessage × Option Origin) × Nat × Nat
  | [], bytes => ([], bytes, 0)
  | e :: q, bytes =>
    if (e :: q).length ≥ s.cap ∨ s.over_bytes bytes incoming then
      let (kept, bytes, n) := shed s incoming q (bytes - message_bytes e.1)
      (kept, bytes, n + 1)
    else (e :: q, bytes, 0)

/-- The same over the records of a table of `len` records, for at most `limit` of them. -/
def evict (s : Spool) (incoming : Nat) :
    Nat → List (Nat × Bytes × Option Origin) → BTreeMap Nat (Bytes × Option Origin) → Nat →
      BTreeMap Nat (Bytes × Option Origin) × Nat × Nat
  | 0, _, table, bytes => (table, bytes, 0)
  | _, [], table, bytes => (table, bytes, 0)
  | limit + 1, e :: rest, table, bytes =>
    if table.size ≥ s.cap ∨ s.over_bytes bytes incoming then
      let less := match decode e.2.1 with
        | some m => bytes - message_bytes m
        | none => bytes
      let (table, bytes, n) := evict s incoming limit rest (table.erase e.1) less
      (table, bytes, n + 1)
    else (table, bytes, 0)

/-- The push on disk of a spool that drops its oldest records. The byte total and the count
of drops keep what was evicted also when the transaction fails. -/
def push_disk_drop_oldest (s : Spool) (table : BTreeMap Nat (Bytes × Option Origin))
    (next bytes : Nat) (fault : Option DiskFault) (msg : SpooledMessage) (o : Option Origin) :
    Except SpoolError Unit × Spool :=
  let incoming := message_bytes msg
  let limit := match fault with
    | some (.Evict done) => done
    | some (.Remove done) => done + 1
    | _ => table.size
  let (kept, less, n) := s.evict incoming limit table.toList table bytes
  let failed (next n : Nat) : Spool :=
    { s with inner := .Disk table next less, dropped := s.dropped + n }
  match fault with
  | some .Read | some .Begin => (.error .Backend, s)
  | some (.Evict _) | some .Insert => (.error .Backend, failed next n)
  -- the record's bytes are off the total before it is removed, its drop counts after
  | some (.Remove done) => (.error .Backend, failed next (min n done))
  | some .Commit => (.error .Backend, failed (next + 1) n)
  | none =>
    (.ok (), { s with
      inner := .Disk (kept.insert next (encode msg, o)) (next + 1) (saturating_add less incoming),
      dropped := s.dropped + n })

/-- The push of a message that is within both bounds. -/
def append (s : Spool) (fault : Option DiskFault) (msg : SpooledMessage) (o : Option Origin) :
    Except SpoolError Unit × Spool :=
  let incoming := message_bytes msg
  match s.inner with
  | .Mem q bytes =>
    (.ok (), { s with inner := .Mem (q ++ [(msg, o)]) (saturating_add bytes incoming) })
  | .Disk table next bytes =>
    match fault with
    | none => (.ok (), { s with
        inner := .Disk (table.insert next (encode msg, o)) (next + 1)
          (saturating_add bytes incoming) })
    | some .Commit => (.error .Backend, { s with inner := .Disk table (next + 1) bytes })
    | some _ => (.error .Backend, s)

/-- Whether the count of records cannot be read. -/
def unread (s : Spool) (fault : Option DiskFault) : Bool :=
  match s.inner with
  | .Mem _ _ => false
  | .Disk _ _ _ => fault == some .Read

/-- Appends a message, or meets the policy at a bound. -/
def push (s : Spool) (fault : Option DiskFault) (msg : SpooledMessage) (o : Option Origin) :
    Except SpoolError Unit × Spool :=
  let incoming := message_bytes msg
  if s.unread fault then (.error .Backend, s)
  -- A message over the whole budget would not fit an empty spool either.
  else if s.max_bytes.any (fun cap => incoming > cap) then
    if s.overflow = .Refuse then (.error .Full, s)
    else (.ok (), { s with dropped := s.dropped + 1 })
  else if s.len ≥ s.cap ∨ s.over_bytes s.bytes incoming then
    if s.overflow = .Refuse then (.error .Full, s)
    else match s.inner with
      | .Mem q bytes =>
        let (kept, less, n) := s.shed incoming q bytes
        (.ok (), { s with
          inner := .Mem (kept ++ [(msg, o)]) (saturating_add less incoming),
          dropped := s.dropped + n })
      | .Disk table next bytes => s.push_disk_drop_oldest table next bytes fault msg o
  else s.append fault msg o

/-- Removes every message and gives those that decode, oldest first. The keys in `skipped` are
those whose record the walk cannot read; they stay. -/
def drain (s : Spool) (fault : Option DiskFault) (skipped : List Nat) :
    Except SpoolError (List (SpooledMessage × Option Origin)) × Spool :=
  match s.inner with
  | .Mem q _ => (.ok q, { s with inner := .Mem [] 0 })
  | .Disk table next _ =>
    if fault.isSome then (.error .Backend, s)
    else
      let found := table.toList.filter (fun e => decide (e.1 ∉ skipped))
      let out := found.filterMap (fun e => (decode e.2.1).map (fun m => (m, e.2.2)))
      let keys := found.map (·.1)
      (.ok out, { s with inner := .Disk (keys.foldl (fun t k => t.erase k) table) next 0 })

end Spool

/-! ## What a record gives back -/

/-- The message as it is in a record: every length is cut at the largest that is written. -/
def cut (m : SpooledMessage) : SpooledMessage :=
  let text (s : String) : String :=
    from_utf8_lossy ((stringBytes s).take (clipped (stringBytes s).length))
  { topic := text m.topic
    payload := m.payload.take (clipped m.payload.length)
    qos := m.qos
    retain := m.retain
    user_properties := (m.user_properties.take (clipped m.user_properties.length)).map
      (fun p => (text p.1, text p.2)) }

theorem from_utf8_lossy_stringBytes (s : String) : from_utf8_lossy (stringBytes s) = s := by
  unfold from_utf8_lossy
  rw [fromUTF8_stringBytes]

theorem gives_take (a rest : Bytes) : Gives (Reader.take a.length) (a ++ rest) a rest := by
  show (if (a ++ rest).length < a.length then Except.error ()
    else Except.ok ((a ++ rest).take a.length, (a ++ rest).drop a.length)) = _
  rw [if_neg (by simp)]
  simp

theorem gives_u32 (n : Nat) (h : n ≤ U32_MAX) (rest : Bytes) :
    Gives Reader.u32 (toBe 4 n ++ rest) n rest := by
  have hlen : (toBe 4 n).length = 4 := by simp
  have hback : ofBe (toBe 4 n) = n := ofBe_toBe 4 n (by unfold U32_MAX at h; omega)
  have htake : Gives (Reader.take 4) (toBe 4 n ++ rest) (toBe 4 n) rest := by
    have := gives_take (toBe 4 n) rest
    rwa [hlen] at this
  exact htake.bind (by simp [hback])

theorem clipped_le (n : Nat) : clipped n ≤ U32_MAX := Nat.min_le_right _ _

theorem clipped_of_le {n : Nat} (h : n ≤ U32_MAX) : clipped n = n := Nat.min_eq_left h

theorem gives_bytes (b rest : Bytes) :
    Gives Reader.bytes (put_bytes b ++ rest) (b.take (clipped b.length)) rest := by
  have hlen : (b.take (clipped b.length)).length = clipped b.length := by
    simp [clipped]
  unfold put_bytes
  rw [List.append_assoc]
  refine (gives_u32 _ (clipped_le _) _).bind ?_
  have := gives_take (b.take (clipped b.length)) rest
  rwa [hlen] at this

theorem gives_string (s : String) (rest : Bytes) :
    Gives Reader.string (put_bytes (stringBytes s) ++ rest)
      (from_utf8_lossy ((stringBytes s).take (clipped (stringBytes s).length))) rest :=
  (gives_bytes _ rest).bind (by simp)

theorem gives_properties (ps : List (String × String)) (rest : Bytes) :
    Gives (Reader.properties ps.length) (ps.flatMap put_property ++ rest)
      (ps.map (fun p =>
        (from_utf8_lossy ((stringBytes p.1).take (clipped (stringBytes p.1).length)),
          from_utf8_lossy ((stringBytes p.2).take (clipped (stringBytes p.2).length))))) rest := by
  induction ps with
  | nil => simp [Reader.properties]
  | cons p ps ih =>
    rw [List.flatMap_cons, put_property, List.append_assoc, List.append_assoc]
    refine (gives_string _ _).bind ((gives_string _ _).bind (ih.bind ?_))
    simp

theorem gives_message (m : SpooledMessage) : Gives Reader.message (encode m) (cut m) [] := by
  have hprops := gives_properties (m.user_properties.take (clipped m.user_properties.length)) []
  rw [List.append_nil] at hprops
  have hlen : (m.user_properties.take (clipped m.user_properties.length)).length =
      clipped m.user_properties.length := by
    simp [clipped]
  rw [hlen] at hprops
  have hu8 (b : UInt8) (rest : Bytes) : Gives Reader.u8 ([b] ++ rest) b rest := rfl
  refine (gives_string _ _).bind ((gives_bytes _ _).bind ((hu8 _ _).bind ((hu8 _ _).bind ?_)))
  refine (gives_u32 _ (clipped_le _) _).bind (hprops.bind ?_)
  cases hr : m.retain <;> simp [cut, hr]

theorem decode_encode (m : SpooledMessage) : decode (encode m) = some (cut m) := by
  unfold decode
  rw [gives_message m]

/-- Every length of the message can be written. -/
structure Fits (m : SpooledMessage) : Prop where
  topic : (stringBytes m.topic).length ≤ U32_MAX
  payload : m.payload.length ≤ U32_MAX
  count : m.user_properties.length ≤ U32_MAX
  properties : ∀ p ∈ m.user_properties,
    (stringBytes p.1).length ≤ U32_MAX ∧ (stringBytes p.2).length ≤ U32_MAX

theorem cut_of_fits {m : SpooledMessage} (h : Fits m) : cut m = m := by
  have hmap : m.user_properties.map (fun p =>
      (from_utf8_lossy ((stringBytes p.1).take (clipped (stringBytes p.1).length)),
        from_utf8_lossy ((stringBytes p.2).take (clipped (stringBytes p.2).length)))) =
      m.user_properties := by
    conv_rhs => rw [← List.map_id m.user_properties]
    refine List.map_congr_left (fun p hp => ?_)
    obtain ⟨hk, hv⟩ := h.properties p hp
    simp [clipped_of_le hk, clipped_of_le hv, from_utf8_lossy_stringBytes]
  unfold cut
  simp only [clipped_of_le h.topic, clipped_of_le h.payload, clipped_of_le h.count,
    List.take_length, from_utf8_lossy_stringBytes, hmap]

theorem onward_take (n : Nat) : Onward (Reader.take n) := by
  intro bytes taken rest h more
  unfold Gives Reader.take at *
  change (if _ then _ else _) = _ at h
  split at h
  · cases h
  · rename_i hlen
    cases h
    change (if _ then _ else _) = _
    rw [if_neg (by simp only [List.length_append]; omega), List.take_append_of_le_length (by omega),
      List.drop_append_of_le_length (by omega)]

theorem onward_u8 : Onward Reader.u8 := by
  rintro (_ | ⟨b, bytes⟩) a rest h more
  · cases h
  · cases h
    rfl

theorem onward_bytes : Onward Reader.bytes :=
  ((onward_take 4).bind fun _ => onward_pure _).bind fun n => onward_take n

theorem onward_string : Onward Reader.string := onward_bytes.bind fun _ => onward_pure _

theorem onward_properties (n : Nat) : Onward (Reader.properties n) := by
  induction n with
  | zero => exact onward_pure _
  | succ n ih =>
    exact onward_string.bind fun _ => onward_string.bind fun _ => ih.bind fun _ => onward_pure _

theorem onward_message : Onward Reader.message :=
  onward_string.bind fun _ => onward_bytes.bind fun _ => onward_u8.bind fun _ => onward_u8.bind fun _ =>
    ((onward_take 4).bind fun _ => onward_pure _).bind fun n => (onward_properties n).bind fun _ =>
      onward_pure _

/-- A record gives its message back, cut where a length does not fit its four bytes, and no part of
a record that stops short of its end gives any. -/
theorem a_part_of_a_record_is_no_message (m : SpooledMessage) :
    decode (encode m) = some (cut m) ∧ (Fits m → cut m = m) ∧
      ∀ front more, front ++ more = encode m → more ≠ [] → decode front = none := by
  refine ⟨decode_encode m, cut_of_fits, fun front more heq hmore => ?_⟩
  have hall : Gives Reader.message (front ++ more) (cut m) [] := heq ▸ gives_message m
  unfold decode
  rcases hread : Reader.message.run front with e | ⟨m', rest⟩
  · rfl
  · exact absurd (onward_message.whole hall hread) hmore

/-! ## What a push and a drain keep -/

namespace Spool

/-- The spool has the message of forward `o`. -/
def Holds (s : Spool) (o : Origin) (m : SpooledMessage) : Prop :=
  match s.inner with
  | .Mem q _ => (m, some o) ∈ q
  | .Disk table _ _ => ∃ k : Nat, table[k]? = some (encode m, some o)

/-- The next key is free. -/
def Fresh (s : Spool) : Prop :=
  match s.inner with
  | .Mem _ _ => True
  | .Disk table next _ => ∀ (k : Nat) v, table[k]? = some v → k < next

variable {s s' : Spool} {fault : Option DiskFault} {msg m : SpooledMessage} {o : Option Origin}
  {o' : Origin}

theorem fresh_on_disk (file : BTreeMap Nat Bytes) (cap : Nat) : (on_disk file cap).Fresh := by
  intro k v hk
  have hmem : k ∈ file.keys := by
    simp only [Std.ExtTreeMap.getElem?_map, Option.map_eq_some_iff] at hk
    obtain ⟨record, hrecord, _⟩ := hk
    exact (BTreeMap.mem_keys file k).mpr ⟨record, hrecord⟩
  rcases hlast : file.keys.getLast? with _ | last
  · rw [List.getLast?_eq_none_iff.mp hlast] at hmem
    simp at hmem
  · dsimp only
    obtain ⟨front, hfront⟩ := List.getLast?_eq_some_iff.mp hlast
    have hsorted := BTreeMap.keys_sorted file
    rw [hfront] at hmem hsorted
    rcases List.mem_append.mp hmem with h | h
    · exact Nat.lt_succ_of_lt ((List.pairwise_append.mp hsorted).2.2 k h last (by simp))
    · exact Nat.lt_succ_of_le (Nat.le_of_eq (by simpa using h))

theorem append_keeps (hf : s.Fresh) (h : s.Holds o' m) :
    (s.append fault msg o).2.Holds o' m := by
  unfold Holds Fresh append at *
  cases hin : s.inner with
  | Mem q bytes =>
    rw [hin] at h
    exact List.mem_append_left _ h
  | Disk table next bytes =>
    simp only [hin] at h hf ⊢
    obtain ⟨k, hk⟩ := h
    cases fault with
    | none =>
      refine ⟨k, ?_⟩
      rw [BTreeMap.get_insert, if_neg (Nat.ne_of_gt (hf k _ hk))]
      exact hk
    | some f => cases f <;> simp only [hin] <;> exact ⟨k, hk⟩

theorem append_fresh (hf : s.Fresh) : (s.append fault msg o).2.Fresh := by
  unfold Fresh append at *
  cases hin : s.inner with
  | Mem q bytes => trivial
  | Disk table next bytes =>
    simp only [hin] at hf ⊢
    cases fault with
    | none =>
      intro k v hk
      rw [BTreeMap.get_insert] at hk
      by_cases hkn : next = k
      · subst hkn
        exact Nat.lt_succ_self _
      · rw [if_neg hkn] at hk
        exact Nat.lt_succ_of_lt (hf k v hk)
    | some f =>
      cases f with
      | Commit => exact fun k v hk => Nat.lt_succ_of_lt (hf k v hk)
      | _ =>
        simp only [hin]
        exact hf

theorem append_holds (hok : (s.append fault msg (some o')).1 = .ok ()) :
    (s.append fault msg (some o')).2.Holds o' msg := by
  unfold Holds append at *
  cases hin : s.inner with
  | Mem q bytes => simp
  | Disk table next bytes =>
    simp only [hin] at hok ⊢
    cases fault with
    | none => exact ⟨next, by simp⟩
    | some f => cases f <;> cases hok

theorem append_overflow : (s.append fault msg o).2.overflow = s.overflow := by
  unfold append
  cases s.inner with
  | Mem q bytes => rfl
  | Disk table next bytes =>
    cases fault with
    | none => rfl
    | some f => cases f <;> rfl

theorem push_cases (hr : s.overflow = .Refuse) :
    (∃ e, s.push fault msg o = (.error e, s)) ∨ s.push fault msg o = s.append fault msg o := by
  unfold push
  simp only [hr, if_true]
  split
  · exact .inl ⟨_, rfl⟩
  split
  · exact .inl ⟨_, rfl⟩
  split
  · exact .inl ⟨_, rfl⟩
  · exact .inr rfl

theorem push_keeps (hr : s.overflow = .Refuse) (hf : s.Fresh) (h : s.Holds o' m) :
    (s.push fault msg o).2.Holds o' m := by
  rcases @push_cases s fault msg o hr with ⟨e, he⟩ | he
  · rw [he]
    exact h
  · rw [he]
    exact append_keeps hf h

theorem push_holds (hr : s.overflow = .Refuse) (hok : (s.push fault msg (some o')).1 = .ok ()) :
    (s.push fault msg (some o')).2.Holds o' msg := by
  rcases @push_cases s fault msg (some o') hr with ⟨e, he⟩ | he
  · rw [he] at hok
    cases hok
  · rw [he] at hok ⊢
    exact append_holds hok

theorem push_fresh (hr : s.overflow = .Refuse) (hf : s.Fresh) :
    (s.push fault msg o).2.Fresh := by
  rcases @push_cases s fault msg o hr with ⟨e, he⟩ | he
  · rw [he]
    exact hf
  · rw [he]
    exact append_fresh hf

theorem push_overflow (hr : s.overflow = .Refuse) :
    (s.push fault msg o).2.overflow = .Refuse := by
  rcases @push_cases s fault msg o hr with ⟨e, he⟩ | he
  · rw [he]
    exact hr
  · rw [he, append_overflow]
    exact hr

theorem drain_overflow (skipped : List Nat) :
    (s.drain fault skipped).2.overflow = s.overflow := by
  unfold drain
  cases s.inner with
  | Mem q bytes => rfl
  | Disk table next bytes =>
    dsimp only
    split <;> rfl

theorem drain_fresh (skipped : List Nat) (hf : s.Fresh) : (s.drain fault skipped).2.Fresh := by
  unfold Fresh drain at *
  cases hin : s.inner with
  | Mem q bytes => trivial
  | Disk table next bytes =>
    simp only [hin] at hf ⊢
    by_cases hfault : fault.isSome = true
    · simp only [hfault, if_true, hin]
      exact hf
    · simp only [hfault, Bool.false_eq_true, if_false]
      intro k v hk
      rw [BTreeMap.get_foldl_erase] at hk
      split at hk
      · cases hk
      · exact hf k v hk

theorem drain_keeps (skipped : List Nat) (h : s.Holds o' m) :
    (s.drain fault skipped).2.Holds o' m ∨
      ∃ out, (s.drain fault skipped).1 = .ok out ∧
        ((m, some o') ∈ out ∨ (cut m, some o') ∈ out) := by
  unfold Holds drain at *
  cases hin : s.inner with
  | Mem q bytes =>
    rw [hin] at h
    exact .inr ⟨q, rfl, .inl h⟩
  | Disk table next bytes =>
    simp only [hin] at h ⊢
    obtain ⟨k, hk⟩ := h
    by_cases hfault : fault.isSome = true
    · simp only [hfault, if_true, hin]
      exact .inl ⟨k, hk⟩
    · simp only [hfault, Bool.false_eq_true, if_false]
      by_cases hskip : k ∈ skipped
      · refine .inl ⟨k, ?_⟩
        rw [BTreeMap.get_foldl_erase, if_neg]
        · exact hk
        · simp [hskip]
      · refine .inr ⟨_, rfl, .inr (List.mem_filterMap.mpr ⟨(k, encode m, some o'), ?_, ?_⟩)⟩
        · rw [List.mem_filter, BTreeMap.mem_toList]
          exact ⟨hk, by simpa using hskip⟩
        · simp [decode_encode]

end Spool

end mqtt_bridge
