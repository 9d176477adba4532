-- Local writes of replicated state (`crdt.rs`): the clock that stamps them, the value as
-- every replica will hold it, and the one write that each call of a rule makes.
import MqttBroker.Rules.CrdtJoin

namespace mqtt_rules

open ByteCodec SortedJoin Wire

def U64_MAX : UInt64 := 18446744073709551615

def saturating_add (a b : UInt64) : UInt64 := UInt64.ofNat (min (a.toNat + b.toNat) U64_MAX.toNat)

def saturating_mul (a b : UInt64) : UInt64 := UInt64.ofNat (min (a.toNat * b.toNat) U64_MAX.toNat)

def saturating_sub (a b : UInt64) : UInt64 := if a ≤ b then 0 else a - b

/-! ## The clock -/

/-- The most milliseconds that a stamp carries. -/
def MAX_MS : UInt64 := 281474976710655

def MAX_FORWARD_SKEW_MS : UInt64 := 60000

def Stamp.ms (s : Stamp) : UInt64 := s.time >>> 16

/-- A stamp too far ahead of the wall clock. -/
structure Skew where
  ahead_ms : UInt64
  deriving DecidableEq

/-- The clock of a node: the time of the latest stamp given or accepted, and the node's tag. -/
structure Hlc where
  last : UInt64
  node : UInt64
  deriving DecidableEq

namespace Hlc

def now (c : Hlc) (wall_ms : UInt64) : Stamp × Hlc :=
  let wall := min wall_ms MAX_MS <<< 16
  let time := max wall (saturating_add c.last 1)
  (⟨time, c.node⟩, { c with last := time })

/-- Takes note of a stamp of another node, unless it is too far ahead. -/
def observe (c : Hlc) (seen : Stamp) (wall_ms : UInt64) : Except Skew Hlc :=
  let ahead_ms := saturating_sub seen.ms (min wall_ms MAX_MS)
  if MAX_FORWARD_SKEW_MS < ahead_ms then .error ⟨ahead_ms⟩
  else .ok { c with last := max c.last seen.time }

def physical_ms (c : Hlc) (wall_ms : UInt64) : UInt64 := max (min wall_ms MAX_MS) (c.last >>> 16)

end Hlc

/-! ## Values -/

/-- Why a value cannot be kept in a replicated key. -/
structure NotStorable where
  why : String
  deriving DecidableEq

/-- The value as every replica will hold it: what reading its replicated form gives. -/
def normal (json : Json) (v : Value) : Except NotStorable Value :=
  match v with
  | .Undefined => .error ⟨"undefined is not a value"⟩
  | .Str _ | .Int _ | .Bool _ | .Null => .ok v
  | .Bin bytes => .ok (from_bytes bytes)
  | _ =>
    match (read.value json MAX_VALUE_BYTES).run (put_value json v) with
    | .ok (w, _) => .ok w
    | .error _ => .error ⟨"it does not read back from its JSON text"⟩

/-! ## Counters -/

inductive CountsError
  | Overflow
  | TooManyNodes
  | NodeId
  deriving DecidableEq

/-- A number that fits 64 bits with its sign. -/
def i64_of (n : BigInt) : Option BigInt := if -2 ^ 63 ≤ n ∧ n < 2 ^ 63 then some n else none

def checked_add (a b : Nat) : Option Nat := if a + b < 2 ^ 128 then some (a + b) else none

namespace Counts

/-- The sums of both sides, while they fit 128 bits. -/
def sums (rows : List Row) : Option (Nat × Nat) :=
  rows.foldlM (fun (up, down) row => do
    let up ← checked_add up row.up
    let down ← checked_add down row.down
    return (up, down)) (0, 0)

def total_i128 (c : Counts) : Option BigInt :=
  match sums c.rows with
  | none => none
  | some (up, down) =>
    let n : BigInt := up - down
    if n.natAbs < 2 ^ 127 then some n else none

/-- What a node added, or took away, is raised. -/
def step (row : Row) (by_ : Int64) : Row :=
  if 0 ≤ by_.toInt then { row with up := row.up + by_.toInt.natAbs }
  else { row with down := row.down + by_.toInt.natAbs }

/-- The row at a place is raised, unless its side would pass 128 bits. -/
def add_at (rows : List Row) (at_ : Nat) (by_ : Int64) (after : BigInt) :
    Except CountsError (BigInt × Counts) :=
  let row := step (rows.getD at_ ⟨"", 0, 0⟩) by_
  if row.up < 2 ^ 128 ∧ row.down < 2 ^ 128 then .ok (after, ⟨rows.set at_ row⟩)
  else .error .Overflow

/-- `add` of a counter of any rows. -/
def add_any (c : Counts) (node : String) (by_ : Int64) : Except CountsError (BigInt × Counts) :=
  match (total_i128 c).bind fun total => i64_of (total + by_.toInt) with
  | none => .error .Overflow
  | some after =>
    match search row_cmp c.rows ⟨node, 0, 0⟩ with
    | .ok at_ => add_at c.rows at_ by_ after
    | .error at_ =>
      if MAX_NODE_ID_BYTES < (stringBytes node).length then .error .NodeId
      else if MAX_COUNTER_NODES ≤ c.rows.length then .error .TooManyNodes
      else add_at (c.rows.insertIdx at_ ⟨node, 0, 0⟩) at_ by_ after

/-- Adds on behalf of a node, and answers the count after, which must fit 64 bits. -/
def add (c : Counts) (node : String) (by_ : Int64) : Except CountsError (BigInt × Counts) :=
  match c.rows with
  | [row] =>
    -- The usual counter: this node's counts and no other's, each within 63 bits.
    if row.node = node ∧ row.up < 2 ^ 63 ∧ row.down < 2 ^ 63 then
      match i64_of (row.up - row.down + by_.toInt) with
      | none => .error .Overflow
      | some after => .ok (after, ⟨[step row by_]⟩)
    else add_any c node by_
  | _ => add_any c node by_

end Counts

/-! ## Sets and sketches -/

namespace Elements

/-- Where an element stands (`ok`) or would stand (`error`). -/
def place (e : Elements) (identity : Bytes) (element : Value) : Except Nat Nat :=
  let at_ := (e.items.takeWhile fun item => element_cmp item (identity, element) == .lt).length
  match e.items[at_]? with
  | some item => if item.1 = identity then .ok at_ else .error at_
  | none => .error at_

/-- Adds an element unless the set holds it, and tells whether it was new; `none` when the
set is full. -/
def insert (e : Elements) (identity : Bytes) (element : Value) : Option (Bool × Elements) :=
  match e.place identity element with
  | .ok _ => some (false, e)
  | .error at_ =>
    if MAX_SET_ELEMENTS ≤ e.items.length then none
    else some (true, ⟨e.items.insertIdx at_ (identity, element)⟩)

end Elements

def leading_zeros (n : UInt64) : Nat := 64 - bit_length n.toNat

namespace Hll

/-- Adds the value with the hash, and tells whether a register rose. -/
def add (h : Hll) (hash : UInt64) : Bool × Hll :=
  let index := (hash >>> 50).toNat
  -- The 50 bits below the index, with a one after them: at most 50 zeros lead.
  let rest := (hash <<< 14) ||| ((1 : UInt64) <<< 13)
  raise h index (UInt8.ofNat (leading_zeros rest + 1))

end Hll

/-! ## Writes -/

/-- A write refused by the key that it was for. -/
inductive WriteError
  | WrongType (held : String)
  | SetFull
  | Counter (e : CountsError)
  | Value (e : NotStorable)
  deriving DecidableEq

inductive Write
  | Set (value : Value)
  | SetOnce (value : Value)
  | Extreme (value : Value) (largest : Bool)
  | Incr (n : Int64)
  | Add (element : Value)
  | HllAdd (hash : UInt64)
  | Delete

/-- Who writes, and when. -/
structure Writer where
  node : String
  clock : Hlc
  wall_ms : UInt64

def type_name : Data → String
  | .Lww _ _ => "lww"
  | .First _ _ => "first"
  | .Max _ => "max"
  | .Min _ => "min"
  | .Sum _ => "sum"
  | .Union _ => "union"
  | .Hll _ => "hll"

/-- A number to keep the largest or the smallest of. -/
def stored_number (json : Json) (v : Value) : Except WriteError Value :=
  if is_number v then (normal json v).mapError .Value
  else .error (.Value ⟨"not a number"⟩)

namespace KeyState

def empty : KeyState := ⟨Stamp.ZERO, none, 0⟩

/-- What it holds: nothing once its expiry has passed. -/
def live (s : KeyState) (now_ms : UInt64) : Option Data :=
  s.data.filter fun _ => s.expires_ms = 0 ∨ now_ms < s.expires_ms

def latest (s : KeyState) : Stamp :=
  match s.data with
  | some (.Lww stamp _) | some (.First stamp _) => max s.deleted stamp
  | _ => s.deleted

/-- A tombstone. -/
def delete (s : KeyState) (at_ : Stamp) : KeyState := ⟨max s.deleted at_, none, 0⟩

end KeyState

/-- What an arm of `apply` leaves: a tombstone, at which the write is over, or what the key
holds then and whether it is another. -/
inductive Edited
  | Deleted (s : KeyState) (clock : Hlc)
  | Holds (data : Data) (clock : Hlc) (changed : Bool)

/-- The arms of `apply`, one for each write and type. -/
def edit (json : Json) (write : Write) (s : KeyState) (by_ : Writer) : Except WriteError Edited :=
  match write, s.data with
  | .Delete, _ =>
    let (stamp, clock) := by_.clock.now by_.wall_ms
    .ok (.Deleted (s.delete stamp) clock)
  | .Set value, none | .Set value, some (.Lww _ _) => do
    let value ← (normal json value).mapError .Value
    let (stamp, clock) := by_.clock.now by_.wall_ms
    return .Holds (.Lww stamp value) clock true
  | .SetOnce value, none => do
    let value ← (normal json value).mapError .Value
    let (stamp, clock) := by_.clock.now by_.wall_ms
    return .Holds (.First stamp value) clock true
  | .SetOnce _, some (.First stamp held) => .ok (.Holds (.First stamp held) by_.clock false)
  | .Extreme value largest, none => do
    let value ← stored_number json value
    return .Holds (if largest then .Max value else .Min value) by_.clock true
  | .Extreme value true, some (.Max held) =>
    if term_order value held = .gt then do
      let value ← stored_number json value
      return .Holds (.Max value) by_.clock true
    else .ok (.Holds (.Max held) by_.clock false)
  | .Extreme value false, some (.Min held) =>
    if term_order value held = .lt then do
      let value ← stored_number json value
      return .Holds (.Min value) by_.clock true
    else .ok (.Holds (.Min held) by_.clock false)
  | .Incr n, none => do
    let (_, counts) ← ((Counts.mk []).add by_.node n).mapError .Counter
    return .Holds (.Sum counts) by_.clock true
  | .Incr n, some (.Sum counts) => do
    let (_, counts) ← (counts.add by_.node n).mapError .Counter
    return .Holds (.Sum counts) by_.clock (n ≠ 0)
  | .Add element, none => do
    let element ← (normal json element).mapError .Value
    match (Elements.mk []).insert (term_key element) element with
    | none => .error .SetFull
    | some (_, elements) => return .Holds (.Union elements) by_.clock true
  | .Add element, some (.Union elements) => do
    let element ← (normal json element).mapError .Value
    match elements.insert (term_key element) element with
    | none => .error .SetFull
    | some (new, elements) => return .Holds (.Union elements) by_.clock new
  | .HllAdd hash, none => .ok (.Holds (.Hll (Hll.add ⟨.Sparse []⟩ hash).2) by_.clock true)
  | .HllAdd hash, some (.Hll sketch) =>
    .ok (.Holds (.Hll (sketch.add hash).2) by_.clock (sketch.add hash).1)
  | _, some held => .error (.WrongType (type_name held))

namespace KeyState

/-- A key found expired is deleted first. -/
def expire (s : KeyState) (by_ : Writer) : KeyState × Hlc × Bool :=
  let now_ms := by_.clock.physical_ms by_.wall_ms
  if s.data.isSome ∧ (s.live now_ms).isNone then
    let (stamp, clock) := by_.clock.now by_.wall_ms
    (s.delete stamp, clock, true)
  else (s, by_.clock, false)

/-- The expiry that a write sets, when it sets one. -/
def expiry (now_ms : UInt64) (ttl_secs default_ttl_secs : Option UInt64) (new : Bool) :
    Option UInt64 :=
  (ttl_secs.or (default_ttl_secs.filter fun _ => new)).map fun secs =>
    max (saturating_add now_ms (saturating_mul secs 1000)) 1

/-- One local write, with the clock after it. It answers whether the state is another than
it was. -/
def apply (json : Json) (s : KeyState) (write : Write) (ttl_secs default_ttl_secs : Option UInt64)
    (by_ : Writer) : Except WriteError Bool × KeyState × Hlc :=
  let now_ms := by_.clock.physical_ms by_.wall_ms
  let (s, clock, expired) := s.expire by_
  match edit json write s { by_ with clock := clock } with
  | .error e => (.error e, s, clock)
  | .ok (.Deleted s clock) => (.ok true, s, clock)
  | .ok (.Holds data clock changed) =>
    match expiry now_ms ttl_secs default_ttl_secs s.data.isNone with
    | none => (.ok (expired || changed), ⟨s.deleted, some data, s.expires_ms⟩, clock)
    | some expires_ms =>
      (.ok (expired || changed || expires_ms ≠ s.expires_ms), ⟨s.deleted, some data, expires_ms⟩,
        clock)

end KeyState

/-! ## The stamps of the clock -/

theorem stamp_lt {a b : Stamp} (h : a.time < b.time) : a < b := by
  show a.key < b.key
  exact Prod.Lex.toLex_lt_toLex.mpr (.inl (UInt64.lt_iff_toNat_lt.mp h))

theorem time_le {a b : Stamp} (h : a ≤ b) : a.time ≤ b.time := by
  by_contra hlt
  exact absurd (stamp_lt (UInt64.not_le.mp hlt)) (not_lt.mpr h)

/-- The clock has that many stamps left before its last one. -/
def Hlc.Room (c : Hlc) (n : Nat) : Prop := c.last.toNat + n < 2 ^ 64

theorem toNat_saturating_add (a b : UInt64) :
    (saturating_add a b).toNat = min (a.toNat + b.toNat) (2 ^ 64 - 1) := by
  unfold saturating_add
  rw [UInt64.toNat_ofNat']
  have hmax : U64_MAX.toNat = 2 ^ 64 - 1 := rfl
  rw [hmax]
  omega

theorem toNat_max (a b : UInt64) : (max a b).toNat = max a.toNat b.toNat := by
  show (if a ≤ b then b else a).toNat = _
  split
  · rename_i h
    have hle := UInt64.le_iff_toNat_le.mp h
    omega
  · rename_i h
    have hlt := UInt64.le_iff_toNat_le.not.mp h
    omega

theorem toNat_min (a b : UInt64) : (min a b).toNat = min a.toNat b.toNat := by
  show (if a ≤ b then a else b).toNat = _
  split
  · rename_i h
    have hle := UInt64.le_iff_toNat_le.mp h
    omega
  · rename_i h
    have hlt := UInt64.le_iff_toNat_le.not.mp h
    omega

theorem now_after {c : Hlc} {n : Nat} (wall_ms : UInt64) (h : c.Room (n + 1)) (hn : n ≤ 2) :
    c.last < (c.now wall_ms).1.time ∧ (c.now wall_ms).2.last = (c.now wall_ms).1.time ∧
      (c.now wall_ms).2.Room n := by
  have hwall : (min wall_ms MAX_MS <<< 16).toNat ≤ (2 ^ 48 - 1) * 2 ^ 16 := by
    rw [UInt64.toNat_shiftLeft, toNat_min]
    have hmax : MAX_MS.toNat = 2 ^ 48 - 1 := rfl
    have hshift : (16 : UInt64).toNat % 64 = 16 := rfl
    rw [hmax, hshift, Nat.shiftLeft_eq]
    apply Nat.le_trans (Nat.mod_le _ _)
    apply Nat.mul_le_mul_right
    omega
  have htime : (c.now wall_ms).1.time.toNat =
      max (min wall_ms MAX_MS <<< 16).toNat (c.last.toNat + 1) := by
    show (max _ (saturating_add c.last 1)).toNat = _
    rw [toNat_max, toNat_saturating_add]
    have hone : (1 : UInt64).toNat = 1 := rfl
    unfold Hlc.Room at h
    omega
  unfold Hlc.Room at h
  refine ⟨?_, rfl, ?_⟩
  · rw [UInt64.lt_iff_toNat_lt, htime]
    omega
  · show (c.now wall_ms).1.time.toNat + n < 2 ^ 64
    rw [htime]
    omega

/-! ## A write joins what it adds -/

section sets

variable {json : Json} {e : Elements} {P : Nat → Value → Prop}

theorem place_new {identity : Bytes} {v : Value} {at_ : Nat}
    (h : e.place identity v = .error at_) :
    search element_cmp e.items (identity, v) = .error at_ := by
  unfold Elements.place at h
  unfold search
  dsimp only at h ⊢
  split at h
  · rename_i item hitem
    split at h
    · cases h
    · rename_i hne
      cases h
      rw [hitem]
      dsimp only
      rw [if_neg]
      intro heq
      exact hne (bytes_cmp_eq (Ordering.then_eq_eq.mp heq).2)
  · rename_i hitem
    cases h
    rw [hitem]

theorem insert_joins {v : Value} {new : Bool} {e' : Elements} (he : ElementsIn P e)
    (hv : P MAX_ELEMENT_BYTES v) (h : e.insert (term_key v) v = some (new, e')) :
    ElementsIn P e' ∧ e.merge json e' = e' := by
  unfold Elements.insert at h
  split at h
  · cases h
    exact ⟨he, elements_merge_self he⟩
  · rename_i at_ hat
    split at h
    · cases h
    · rename_i hroom
      cases h
      have hsearch := place_new hat
      have hunion : e.items.insertIdx at_ (term_key v, v) =
          union element_cmp (Elements.first_of json) e.items [(term_key v, v)] := by
        rw [← place_eq_union, place, hsearch]
      have hlen : (e.items.insertIdx at_ (term_key v, v)).length ≤ MAX_SET_ELEMENTS := by
        rw [length_insertIdx_search hsearch]
        omega
      have hone : Sorted element_cmp [(term_key v, v)] := List.pairwise_singleton _ _
      constructor
      · refine ⟨?_, hlen, ?_⟩
        · show Sorted element_cmp (e.items.insertIdx at_ (term_key v, v))
          rw [hunion]
          exact sorted_union first_of_keeps he.sorted hone
        · intro item hitem
          rcases List.eq_or_mem_of_mem_insertIdx hitem with rfl | hmem
          · exact ⟨rfl, hv⟩
          · exact he.items item hmem
      · unfold Elements.merge
        dsimp only
        congr 1
        rw [unionUpTo_eq, hunion, union_absorb first_of_keeps he.sorted hone _ first_of_assoc,
          ← hunion, List.take_of_length_le hlen]
        intro item _
        rw [first_of_eq, least_self]

end sets

section counters

variable {c : Counts}

theorem row_max_step (row : Row) (n : Int64) : row_max row (Counts.step row n) = Counts.step row n := by
  unfold Counts.step row_max
  split
  · simp
  · simp

theorem step_node (row : Row) (n : Int64) : (Counts.step row n).node = row.node := by
  unfold Counts.step
  split <;> rfl

/-- What is joined with a counter's rows, when it fits, is a counter that takes nothing more
from it. -/
theorem rows_join {row : Row} (hc : CountsOk c) (hrow : RowOk row)
    (hroom : (union row_cmp row_max c.rows [row]).length ≤ MAX_COUNTER_NODES) :
    CountsOk ⟨union row_cmp row_max c.rows [row]⟩ ∧
      c.merge ⟨union row_cmp row_max c.rows [row]⟩ = ⟨union row_cmp row_max c.rows [row]⟩ := by
  have hone : Sorted row_cmp [row] := List.pairwise_singleton _ _
  have hok : CountsOk ⟨union row_cmp row_max c.rows [row]⟩ := by
    refine ⟨sorted_union row_max_keeps hc.sorted hone, hroom, ?_⟩
    apply mem_union hc.rows
    · simpa using hrow
    · intro r hr q hq _
      rw [List.mem_singleton.mp hq]
      have hold := hc.rows r hr
      exact ⟨hold.node, max_lt hold.up hrow.up, max_lt hold.down hrow.down⟩
  refine ⟨hok, ?_⟩
  rw [counts_merge_eq hc hok, unionUpTo_eq,
    union_absorb row_max_keeps hc.sorted hone _ row_max_assoc, List.take_of_length_le hroom]
  intro r _
  simp [row_max]

theorem search_row (rows : List Row) {a b : Row} (h : a.node = b.node) :
    search row_cmp rows a = search row_cmp rows b := by
  unfold search row_cmp
  rw [h]

theorem natAbs_i64 (n : Int64) : n.toInt.natAbs ≤ 2 ^ 63 := by
  have hlow := n.le_toInt
  have hhigh := n.toInt_lt
  omega

theorem set_insertIdx (rows : List Row) (at_ : Nat) (a b : Row) :
    (rows.insertIdx at_ a).set at_ b = rows.insertIdx at_ b := by
  induction rows generalizing at_ with
  | nil =>
    cases at_ with
    | zero => rfl
    | succ at_ => rfl
  | cons row rows ih =>
    cases at_ with
    | zero => rfl
    | succ at_ => simp [ih]

variable {at_ : Nat} {node : String} {n : Int64} {after after' : BigInt} {c' : Counts}

theorem add_at_joins (hc : CountsOk c) (hat : search row_cmp c.rows ⟨node, 0, 0⟩ = .ok at_)
    (h : Counts.add_at c.rows at_ n after = .ok (after', c')) : CountsOk c' ∧ c.merge c' = c' := by
  obtain ⟨row, hget, hcmp⟩ := search_ok hat
  have hnode : row.node = node := stringBytes_inj (bytes_cmp_eq hcmp)
  unfold Counts.add_at at h
  simp only [List.getD_eq_getElem?_getD, hget, Option.getD_some] at h
  split at h
  · rename_i hfits
    cases h
    have hsearch : search row_cmp c.rows (Counts.step row n) = .ok at_ := by
      rw [← hat]
      exact search_row _ ((step_node row n).trans hnode)
    have hset : c.rows.set at_ (Counts.step row n) =
        union row_cmp row_max c.rows [Counts.step row n] := by
      have : Inhabited Row := ⟨row⟩
      rw [← place_eq_union, place, hsearch]
      dsimp only
      rw [modify_of_getElem? hget, row_max_step]
    have hold := hc.rows row (List.mem_of_getElem? hget)
    rw [hset]
    apply rows_join hc ⟨by rw [step_node]; exact hold.node, hfits.1, hfits.2⟩
    rw [← hset, List.length_set]
    exact hc.bound
  · cases h

theorem add_at_new (hc : CountsOk c) (hat : search row_cmp c.rows ⟨node, 0, 0⟩ = .error at_)
    (hid : (stringBytes node).length ≤ MAX_NODE_ID_BYTES)
    (hroom : c.rows.length < MAX_COUNTER_NODES)
    (h : Counts.add_at (c.rows.insertIdx at_ ⟨node, 0, 0⟩) at_ n after = .ok (after', c')) :
    CountsOk c' ∧ c.merge c' = c' := by
  have hle : at_ ≤ c.rows.length := by
    have hlen := length_insertIdx_search hat
    by_contra hgt
    rw [List.length_insertIdx_of_length_lt (by omega)] at hlen
    omega
  have hget : (c.rows.insertIdx at_ (⟨node, 0, 0⟩ : Row))[at_]? = some ⟨node, 0, 0⟩ := by
    rw [List.getElem?_insertIdx_self, if_pos (by omega)]
  unfold Counts.add_at at h
  simp only [List.getD_eq_getElem?_getD, hget, Option.getD_some] at h
  split at h
  · rename_i hfits
    cases h
    have hstep := step_node ⟨node, 0, 0⟩ n
    have hsearch : search row_cmp c.rows (Counts.step ⟨node, 0, 0⟩ n) = .error at_ := by
      rw [← hat]
      exact search_row _ hstep
    have hset : (c.rows.insertIdx at_ (⟨node, 0, 0⟩ : Row)).set at_ (Counts.step ⟨node, 0, 0⟩ n) =
        union row_cmp row_max c.rows [Counts.step ⟨node, 0, 0⟩ n] := by
      rw [← place_eq_union, place, hsearch]
      dsimp only
      rw [set_insertIdx]
    rw [hset]
    apply rows_join hc ⟨by rw [hstep]; exact hid, hfits.1, hfits.2⟩
    rw [← hset, List.length_set, length_insertIdx_search hat]
    omega
  · cases h

theorem add_joins (hc : CountsOk c) (h : c.add node n = .ok (after, c')) :
    CountsOk c' ∧ c.merge c' = c' := by
  have hany (h : c.add_any node n = .ok (after, c')) : CountsOk c' ∧ c.merge c' = c' := by
    unfold Counts.add_any at h
    split at h
    · cases h
    · split at h
      · rename_i at_ hat
        exact add_at_joins hc hat h
      · rename_i at_ hat
        split at h
        · cases h
        · split at h
          · cases h
          · exact add_at_new hc hat (by omega) (by omega) h
  unfold Counts.add at h
  split at h
  · rename_i row hrows
    split at h
    · rename_i hfast
      split at h
      · cases h
      · cases h
        have hsearch : search row_cmp c.rows ⟨node, 0, 0⟩ = .ok 0 := by
          rw [hrows, ← search_row [row] hfast.1]
          simp [search, Std.ReflCmp.compare_self]
        have hsize := natAbs_i64 n
        have hfits : (Counts.step row n).up < 2 ^ 128 ∧ (Counts.step row n).down < 2 ^ 128 := by
          unfold Counts.step
          split
          · dsimp only
            omega
          · dsimp only
            omega
        have hadd : Counts.add_at c.rows 0 n after = .ok (after, ⟨[Counts.step row n]⟩) := by
          rw [Counts.add_at, hrows]
          simp only [List.getD_cons_zero, List.set_cons_zero]
          rw [if_pos hfits]
        exact add_at_joins hc hsearch hadd
    · exact hany h
  · exact hany h

end counters

section sketches

theorem isEntry_of_hash (hash : UInt64) :
    IsEntry ((hash >>> 50).toNat,
      UInt8.ofNat (leading_zeros ((hash <<< 14) ||| ((1 : UInt64) <<< 13)) + 1)) := by
  have hindex : (hash >>> 50).toNat < HLL_REGISTERS := by
    rw [UInt64.toNat_shiftRight]
    have hshift : (50 : UInt64).toNat % 64 = 50 := rfl
    have hsize := hash.toNat_lt
    have hregisters : HLL_REGISTERS = 2 ^ 14 := rfl
    rw [hshift, hregisters, Nat.shiftRight_eq_div_pow]
    omega
  have hlog : 13 ≤ ((hash <<< 14) ||| ((1 : UInt64) <<< 13)).toNat.log2 := by
    have hor : 2 ^ 13 ≤ ((hash <<< 14) ||| ((1 : UInt64) <<< 13)).toNat := by
      rw [UInt64.toNat_or]
      exact Nat.right_le_or
    have hne : ((hash <<< 14) ||| ((1 : UInt64) <<< 13)).toNat ≠ 0 := by omega
    exact (Nat.le_log2 hne).mpr hor
  have hzeros : leading_zeros ((hash <<< 14) ||| ((1 : UInt64) <<< 13)) ≤ 50 := by
    unfold leading_zeros bit_length
    split
    · rename_i hzero
      rw [hzero, Nat.log2_zero] at hlog
      omega
    · omega
  have hrank : (UInt8.ofNat (leading_zeros ((hash <<< 14) ||| ((1 : UInt64) <<< 13)) + 1)).toNat =
      leading_zeros ((hash <<< 14) ||| ((1 : UInt64) <<< 13)) + 1 := by
    rw [UInt8.toNat_ofNat']
    omega
  have hone : (1 : UInt8).toNat = 1 := rfl
  have hmax : HLL_MAX_RANK.toNat = 51 := rfl
  refine ⟨hindex, ?_, ?_⟩
  · rw [UInt8.le_iff_toNat_le, hrank]
    omega
  · rw [UInt8.le_iff_toNat_le, hrank]
    omega

theorem sketch_add_joins {h : Hll} (hc : Canonical h.registers) (hash : UInt64) :
    Canonical (h.add hash).2.registers ∧ h.merge (h.add hash).2 = (h.add hash).2 := by
  have hraised := raise_spec hc (isEntry_of_hash hash)
  have hcanonical : Canonical (h.add hash).2.registers := hraised.canonical
  refine ⟨hcanonical, ?_⟩
  obtain ⟨hmerged, hreg⟩ := merge_spec hc hcanonical
  apply hll_ext hmerged hcanonical
  intro i hi
  rw [hreg i hi]
  show larger _ (register (raise h _ _).2.registers i) = register (raise h _ _).2.registers i
  rw [hraised.register i hi]
  split
  · rw [← larger_assoc, larger_self]
  · rw [larger_self]

end sketches

end mqtt_rules
