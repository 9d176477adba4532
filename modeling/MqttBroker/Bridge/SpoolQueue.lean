-- What a spool is for: a queue with two bounds. The spool in memory and the spool on disk
-- are both this queue, so that they answer alike, hold the same messages in the same order
-- and account the same bytes, also when the one on disk is opened again.
import Mathlib.Data.List.ReduceOption
import MqttBroker.Lib.BoundedQueue
import MqttBroker.Bridge.Spool

namespace mqtt_bridge

open ByteCodec Wire BoundedQueue

/-! ## The queue -/

/-- What a record adds to the accounted bytes. One that cannot be decoded adds none. -/
def recordBytes : Option SpooledMessage → Nat
  | some m => message_bytes m
  | none => 0

/-- The records of a queue, the oldest first, and how many messages it has dropped. -/
structure Queue where
  records : List (Option SpooledMessage)
  dropped : Nat

def Queue.offer (b : Bounds) (policy : Overflow) (q : Queue) (msg : SpooledMessage) :
    Except SpoolError Unit × Queue :=
  let incoming := message_bytes msg
  if b.Oversized incoming then
    match policy with
    | .Refuse => (.error .Full, q)
    | .DropOldest => (.ok (), { q with dropped := q.dropped + 1 })
  else if b.Room recordBytes incoming q.records then
    (.ok (), { q with records := q.records ++ [some msg] })
  else
    match policy with
    | .Refuse => (.error .Full, q)
    | .DropOldest =>
      let n := b.excess recordBytes incoming q.records
      (.ok (), { records := q.records.drop n ++ [some msg], dropped := q.dropped + n })

namespace Spool

def records (s : Spool) : List (Option SpooledMessage) :=
  match s.inner with
  | .Mem q _ => q.map (fun e => some e.1)
  | .Disk table _ _ => table.toList.map (fun e => decode e.2.1)

def queue (s : Spool) : Queue := ⟨s.records, s.dropped⟩

def onDisk (s : Spool) : Bool :=
  match s.inner with
  | .Mem _ _ => false
  | .Disk _ _ _ => true

def bounds (s : Spool) : Bounds := ⟨s.cap, s.max_bytes⟩

/-- What a spool accounts is what it holds, and its next key is free. -/
structure Exact (s : Spool) : Prop where
  cap_pos : 0 < s.cap
  fresh : s.Fresh
  bytes : s.bytes = load recordBytes s.records

variable {s : Spool} {msg : SpooledMessage} {o : Option Origin}

/-! ## The two loops -/

theorem over_bytes_iff {bytes incoming : Nat} (h : bytes + incoming ≤ USIZE_MAX) :
    s.over_bytes bytes incoming = true ↔ ∃ most ∈ s.max_bytes, most < bytes + incoming := by
  unfold over_bytes
  cases s.max_bytes with
  | none => simp
  | some most =>
    have hadd : saturating_add bytes incoming = bytes + incoming := Nat.min_eq_left h
    simp [hadd]

theorem over_iff {incoming : Nat} {xs : List (Option SpooledMessage)}
    (h : load recordBytes xs + incoming ≤ USIZE_MAX) :
    (xs.length ≥ s.cap ∨ s.over_bytes (load recordBytes xs) incoming = true) ↔
      ¬ s.bounds.Room recordBytes incoming xs := by
  rw [over_bytes_iff h]
  unfold Bounds.Room bounds
  constructor
  · rintro (hlen | ⟨most, hmost, hlt⟩) ⟨hcap, hall⟩
    · exact absurd hcap (Nat.not_lt.mpr hlen)
    · exact absurd (hall most hmost) (Nat.not_le.mpr hlt)
  · intro hno
    by_contra hnot
    rw [not_or] at hnot
    refine hno ⟨Nat.lt_of_not_ge hnot.1, ?_⟩
    intro most hmost
    by_contra hlt
    exact hnot.2 ⟨most, hmost, Nat.lt_of_not_le hlt⟩

theorem shed_eq {incoming : Nat} (q : List (SpooledMessage × Option Origin))
    (h : load recordBytes (q.map (fun e => some e.1)) + incoming ≤ USIZE_MAX) :
    s.shed incoming q (load recordBytes (q.map (fun e => some e.1))) =
      (q.drop (s.bounds.excess recordBytes incoming (q.map (fun e => some e.1))),
        load recordBytes ((q.map (fun e => some e.1)).drop
          (s.bounds.excess recordBytes incoming (q.map (fun e => some e.1)))),
        s.bounds.excess recordBytes incoming (q.map (fun e => some e.1))) := by
  induction q with
  | nil => rfl
  | cons e q ih =>
    have hover := over_iff (s := s) h
    rw [List.length_map] at hover
    rw [shed]
    simp only [hover]
    rw [List.map_cons, Bounds.excess]
    by_cases hroom : s.bounds.Room recordBytes incoming
        (some e.1 :: q.map (fun e => some e.1))
    · rw [if_neg (not_not.mpr hroom), if_pos hroom]
      rfl
    · have hless : load recordBytes (some e.1 :: q.map (fun e => some e.1)) - message_bytes e.1 =
          load recordBytes (q.map (fun e => some e.1)) := by
        rw [load_cons]
        exact Nat.add_sub_cancel_left _ _
      have hrest : load recordBytes (q.map (fun e => some e.1)) + incoming ≤ USIZE_MAX := by
        rw [List.map_cons, load_cons] at h
        omega
      rw [if_pos hroom, if_neg hroom, hless, ih hrest]
      rfl

theorem evict_eq (incoming limit : Nat) (table : BTreeMap Nat (Bytes × Option Origin))
    (rows : List (Nat × Bytes × Option Origin)) (hrows : table.toList = rows)
    (h : load recordBytes (rows.map (fun e => decode e.2.1)) + incoming ≤ USIZE_MAX) :
    ∃ kept, s.evict incoming limit rows table
        (load recordBytes (rows.map (fun e => decode e.2.1))) =
      (kept, load recordBytes ((rows.map (fun e => decode e.2.1)).drop
          (min limit (s.bounds.excess recordBytes incoming (rows.map (fun e => decode e.2.1))))),
        min limit (s.bounds.excess recordBytes incoming (rows.map (fun e => decode e.2.1)))) ∧
      kept.toList = rows.drop
        (min limit (s.bounds.excess recordBytes incoming (rows.map (fun e => decode e.2.1)))) := by
  induction limit generalizing table rows with
  | zero =>
    refine ⟨table, ?_, ?_⟩
    · cases rows <;> simp [evict]
    · simpa using hrows
  | succ limit ih =>
    cases rows with
    | nil => exact ⟨table, by simp [evict, Bounds.excess], by simpa using hrows⟩
    | cons e rest =>
      have hover := over_iff (s := s) h
      rw [List.length_map, ← hrows, ← BTreeMap.size_eq] at hover
      rw [evict, List.map_cons, Bounds.excess]
      rw [hrows, List.map_cons] at hover
      simp only [hover]
      by_cases hroom : s.bounds.Room recordBytes incoming
          (decode e.2.1 :: rest.map (fun e => decode e.2.1))
      · refine ⟨table, ?_, ?_⟩
        · rw [if_neg (not_not.mpr hroom), if_pos hroom]
          simp
        · rw [if_pos hroom]
          simpa using hrows
      · have hrest : load recordBytes (rest.map (fun e => decode e.2.1)) + incoming ≤
            USIZE_MAX := by
          rw [List.map_cons, load_cons] at h
          omega
        obtain ⟨kept, heq, hkept⟩ := ih (table.erase e.1) rest
          (BTreeMap.toList_erase_first hrows) hrest
        refine ⟨kept, ?_, ?_⟩
        · rw [if_pos hroom, if_neg hroom, load_cons]
          cases decode e.2.1 with
          | none =>
            simp only [recordBytes, Nat.zero_add, heq]
            simp [Nat.add_min_add_right]
          | some m =>
            simp only [recordBytes, Nat.add_sub_cancel_left, heq]
            simp [Nat.add_min_add_right]
        · rw [if_neg hroom, hkept]
          simp [Nat.add_min_add_right]

/-! ## A push is an offer to the queue -/

theorem len_eq (s : Spool) : s.len = s.records.length := by
  unfold len records
  cases s.inner with
  | Mem q bytes => simp
  | Disk table next bytes => exact (BTreeMap.size_eq table).trans (List.length_map _).symm

theorem oversized_iff (s : Spool) (incoming : Nat) :
    s.max_bytes.any (fun cap => decide (incoming > cap)) = true ↔
      s.bounds.Oversized incoming := by
  unfold Bounds.Oversized bounds
  cases s.max_bytes <;> simp

theorem decode_encode_of_fits (h : Fits msg) : decode (encode msg) = some msg := by
  rw [decode_encode, cut_of_fits h]

/-- What a push on a spool leaves, where the queue of the spool takes `after`. -/
structure Leaves (s : Spool) (after : Queue) (s' : Spool) : Prop where
  queue : s'.queue = after
  exact : s'.Exact
  bounds : s'.bounds = s.bounds
  overflow : s'.overflow = s.overflow
  medium : s'.onDisk = s.onDisk

theorem Leaves.refl (hs : s.Exact) : Leaves s s.queue s := ⟨rfl, hs, rfl, rfl, rfl⟩

theorem leaves_mem {q : List (SpooledMessage × Option Origin)} (hs : s.Exact)
    (hmem : s.onDisk = false) (n : Nat)
    (hsum : load recordBytes ((q.drop n).map (fun e => some e.1)) + message_bytes msg ≤
      USIZE_MAX) (dropped : Nat) :
    Leaves s ⟨(q.map (fun e => some e.1)).drop n ++ [some msg], dropped⟩
      { s with
        inner := .Mem (q.drop n ++ [(msg, o)]) (saturating_add
          (load recordBytes ((q.drop n).map (fun e => some e.1))) (message_bytes msg))
        dropped } := by
  refine ⟨?_, ⟨hs.cap_pos, trivial, ?_⟩, rfl, rfl, hmem.symm⟩
  · unfold queue records
    simp [List.map_drop]
  · have hadd : saturating_add (load recordBytes ((q.drop n).map (fun e => some e.1)))
        (message_bytes msg) = _ := Nat.min_eq_left hsum
    show saturating_add _ _ = _
    rw [hadd]
    unfold records
    simp [recordBytes]

theorem leaves_disk {kept : BTreeMap Nat (Bytes × Option Origin)} {next : Nat} (hs : s.Exact)
    (hdisk : s.onDisk = true) (hfit : Fits msg)
    (hfresh : ∀ (k : Nat) v, kept[k]? = some v → k < next)
    (hsum : load recordBytes (kept.toList.map (fun e => decode e.2.1)) + message_bytes msg ≤
      USIZE_MAX) (dropped : Nat) :
    Leaves s ⟨kept.toList.map (fun e => decode e.2.1) ++ [some msg], dropped⟩
      { s with
        inner := .Disk (kept.insert next (encode msg, o)) (next + 1) (saturating_add
          (load recordBytes (kept.toList.map (fun e => decode e.2.1))) (message_bytes msg))
        dropped } := by
  have hlast := BTreeMap.toList_insert_last (v := (encode msg, o)) hfresh
  refine ⟨?_, ⟨hs.cap_pos, ?_, ?_⟩, rfl, rfl, hdisk.symm⟩
  · unfold queue records
    simp [hlast, decode_encode_of_fits hfit]
  · intro k v hk
    rw [BTreeMap.get_insert] at hk
    split at hk
    · rename_i heq
      omega
    · exact Nat.lt_succ_of_lt (hfresh k v hk)
  · have hadd : saturating_add (load recordBytes (kept.toList.map (fun e => decode e.2.1)))
        (message_bytes msg) = _ := Nat.min_eq_left hsum
    show saturating_add _ _ = _
    rw [hadd]
    unfold records
    simp [hlast, decode_encode_of_fits hfit, recordBytes]

theorem fresh_of_drop {table kept : BTreeMap Nat (Bytes × Option Origin)} {n next : Nat}
    (hkept : kept.toList = table.toList.drop n)
    (hfresh : ∀ (k : Nat) v, table[k]? = some v → k < next) :
    ∀ (k : Nat) v, kept[k]? = some v → k < next := by
  intro k v hk
  rw [← BTreeMap.mem_toList, hkept] at hk
  exact hfresh k v ((BTreeMap.mem_toList table k v).mp (List.mem_of_mem_drop hk))

section inner

variable {q : List (SpooledMessage × Option Origin)}
  {table : BTreeMap Nat (Bytes × Option Origin)} {next bytes : Nat}

theorem records_mem (h : s.inner = .Mem q bytes) :
    s.records = q.map (fun e => some e.1) := by
  unfold records
  rw [h]

theorem records_disk (h : s.inner = .Disk table next bytes) :
    s.records = table.toList.map (fun e => decode e.2.1) := by
  unfold records
  rw [h]

theorem onDisk_mem (h : s.inner = .Mem q bytes) : s.onDisk = false := by
  unfold onDisk
  rw [h]

theorem onDisk_disk (h : s.inner = .Disk table next bytes) : s.onDisk = true := by
  unfold onDisk
  rw [h]

theorem Exact.bytes_mem (hs : s.Exact) (h : s.inner = .Mem q bytes) :
    bytes = load recordBytes (q.map (fun e => some e.1)) := by
  have hbytes := hs.bytes
  rw [records_mem h] at hbytes
  unfold Spool.bytes at hbytes
  rw [h] at hbytes
  exact hbytes

theorem Exact.bytes_disk (hs : s.Exact) (h : s.inner = .Disk table next bytes) :
    bytes = load recordBytes (table.toList.map (fun e => decode e.2.1)) := by
  have hbytes := hs.bytes
  rw [records_disk h] at hbytes
  unfold Spool.bytes at hbytes
  rw [h] at hbytes
  exact hbytes

theorem Exact.fresh_disk (hs : s.Exact) (h : s.inner = .Disk table next bytes) :
    ∀ (k : Nat) v, table[k]? = some v → k < next := by
  have hfresh := hs.fresh
  unfold Fresh at hfresh
  rw [h] at hfresh
  exact hfresh

end inner

/-- A push within both bounds. -/
theorem append_offers (hs : s.Exact) (hfit : Fits msg)
    (hsum : load recordBytes s.records + message_bytes msg ≤ USIZE_MAX) :
    (s.append none msg o).1 = .ok () ∧
      Leaves s ⟨s.records ++ [some msg], s.dropped⟩ (s.append none msg o).2 := by
  unfold append
  cases hin : s.inner with
  | Mem q bytes =>
    rw [records_mem hin] at hsum ⊢
    rw [hs.bytes_mem hin]
    exact ⟨rfl, leaves_mem hs (onDisk_mem hin) 0 hsum s.dropped⟩
  | Disk table next bytes =>
    rw [records_disk hin] at hsum ⊢
    rw [hs.bytes_disk hin]
    exact ⟨rfl, leaves_disk hs (onDisk_disk hin) hfit (hs.fresh_disk hin) hsum s.dropped⟩

theorem push_disk_drop_oldest_offers {table : BTreeMap Nat (Bytes × Option Origin)}
    {next bytes : Nat} (hs : s.Exact) (hfit : Fits msg) (hin : s.inner = .Disk table next bytes)
    (hsum : load recordBytes s.records + message_bytes msg ≤ USIZE_MAX) :
    (s.push_disk_drop_oldest table next bytes none msg o).1 = .ok () ∧
      Leaves s ⟨s.records.drop (s.bounds.excess recordBytes (message_bytes msg) s.records) ++
          [some msg], s.dropped + s.bounds.excess recordBytes (message_bytes msg) s.records⟩
        (s.push_disk_drop_oldest table next bytes none msg o).2 := by
  rw [records_disk hin] at hsum ⊢
  obtain ⟨kept, hevict, hkept⟩ := evict_eq (s := s) (message_bytes msg) table.size table
    table.toList rfl hsum
  have hcap := @Bounds.excess_le _ recordBytes s.bounds (message_bytes msg)
    (table.toList.map (fun e => decode e.2.1))
  rw [List.length_map, ← BTreeMap.size_eq] at hcap
  rw [Nat.min_eq_right hcap] at hevict hkept
  have hdrop := load_drop_le recordBytes (s.bounds.excess recordBytes (message_bytes msg)
    (table.toList.map (fun e => decode e.2.1))) (table.toList.map (fun e => decode e.2.1))
  have hleaves := leaves_disk (o := o) hs (onDisk_disk hin) hfit
    (fresh_of_drop hkept (hs.fresh_disk hin))
    (by rw [hkept, List.map_drop]; omega)
    (s.dropped + s.bounds.excess recordBytes (message_bytes msg)
      (table.toList.map (fun e => decode e.2.1)))
  rw [hkept, List.map_drop] at hleaves
  unfold push_disk_drop_oldest
  simp only [hs.bytes_disk hin, hevict]
  exact ⟨trivial, hleaves⟩

theorem push_offers (hs : s.Exact) (hfit : Fits msg)
    (hsum : load recordBytes s.records + message_bytes msg ≤ USIZE_MAX) :
    (s.push none msg o).1 = (s.queue.offer s.bounds s.overflow msg).1 ∧
      Leaves s (s.queue.offer s.bounds s.overflow msg).2 (s.push none msg o).2 := by
  have hunread : s.unread none = false := by
    unfold unread
    cases s.inner <;> rfl
  have hover := over_iff (s := s) hsum
  rw [← len_eq, ← hs.bytes] at hover
  unfold push Queue.offer
  simp only [hunread, Bool.false_eq_true, if_false, oversized_iff, hover]
  by_cases hbig : s.bounds.Oversized (message_bytes msg)
  · simp only [if_pos hbig]
    cases hp : s.overflow with
    | Refuse => exact ⟨rfl, Leaves.refl hs⟩
    | DropOldest =>
      exact ⟨rfl, rfl, ⟨hs.cap_pos, hs.fresh, hs.bytes⟩, rfl, hp.symm, rfl⟩
  · by_cases hroom : s.bounds.Room recordBytes (message_bytes msg) s.records
    · have hqueue : s.bounds.Room recordBytes (message_bytes msg) s.queue.records := hroom
      simp only [if_neg hbig, if_pos hqueue, if_neg (not_not.mpr hroom)]
      exact append_offers hs hfit hsum
    · have hqueue : ¬ s.bounds.Room recordBytes (message_bytes msg) s.queue.records := hroom
      simp only [if_neg hbig, if_neg hqueue, if_pos hroom]
      cases hp : s.overflow with
      | Refuse => exact ⟨rfl, Leaves.refl hs⟩
      | DropOldest =>
        simp only [reduceCtorEq, if_false]
        show _ ∧ Leaves s ⟨s.records.drop _ ++ [some msg], s.dropped + _⟩ _
        cases hin : s.inner with
        | Disk table next bytes => exact push_disk_drop_oldest_offers hs hfit hin hsum
        | Mem q bytes =>
          have hdrop := load_drop_le recordBytes
            (s.bounds.excess recordBytes (message_bytes msg) s.records) s.records
          have hrecords := records_mem hin
          show _ ∧ Leaves s ⟨s.records.drop (s.bounds.excess recordBytes (message_bytes msg)
            s.records) ++ [some msg], s.dropped + s.bounds.excess recordBytes
              (message_bytes msg) s.records⟩ _
          rw [hrecords] at hsum hdrop ⊢
          simp only [hs.bytes_mem hin, shed_eq (s := s) q hsum]
          have hleaves := @leaves_mem s msg o q hs (onDisk_mem hin)
            (s.bounds.excess recordBytes (message_bytes msg) (q.map (fun e => some e.1)))
            (by rw [List.map_drop]; omega)
            (s.dropped + s.bounds.excess recordBytes (message_bytes msg)
              (q.map (fun e => some e.1)))
          rw [List.map_drop, hp] at hleaves
          exact ⟨trivial, hleaves⟩

theorem push_oversized (h : s.bounds.Oversized (message_bytes msg)) :
    (s.push none msg o).2.records = s.records := by
  unfold push
  split
  · rfl
  · rw [if_pos ((oversized_iff s _).mpr h)]
    split <;> rfl

/-! ## A drain and a reopening -/

theorem drain_empties (hs : s.Exact) : ∃ out, (s.drain none []).1 = .ok out ∧
    out.map Prod.fst = s.records.reduceOption ∧
    Leaves s ⟨[], s.dropped⟩ (s.drain none []).2 := by
  unfold drain
  cases hin : s.inner with
  | Mem q bytes =>
    refine ⟨q, rfl, ?_, rfl, ⟨hs.cap_pos, trivial, rfl⟩, rfl, rfl, (onDisk_mem hin).symm⟩
    rw [records_mem hin]
    simp [List.reduceOption]
  | Disk table next bytes =>
    have hall : table.toList.filter (fun e => decide (e.1 ∉ [])) = table.toList := by simp
    simp only [Option.isSome_none, Bool.false_eq_true, if_false, hall,
      BTreeMap.foldl_erase_toList]
    refine ⟨_, rfl, ?_, ?_, ⟨hs.cap_pos, ?_, ?_⟩, rfl, rfl, (onDisk_disk hin).symm⟩
    · rw [records_disk hin, List.map_filterMap]
      simp [List.reduceOption, List.filterMap_map, Function.comp_def]
    · unfold queue records
      simp
    · intro k v hk
      rw [BTreeMap.get_empty] at hk
      cases hk
    · unfold records Spool.bytes
      simp

theorem accounted_eq (table : BTreeMap Nat (Bytes × Option Origin)) :
    accounted table = load recordBytes (table.toList.map (fun e => decode e.2.1)) := by
  unfold accounted load
  induction table.toList with
  | nil => rfl
  | cons e rest ih =>
    rw [List.filterMap_cons, List.map_cons, List.map_cons, List.sum_cons, ← ih]
    cases decode e.2.1 with
    | none => exact (Nat.zero_add _).symm
    | some m => exact List.sum_cons

end Spool

/-- How a spool is set up. -/
structure Config where
  cap : Nat
  max_bytes : Nat
  overflow : Overflow

namespace Config

variable (c : Config)

def in_memory : Spool := ((Spool.in_memory c.cap).with_overflow c.overflow).with_max_bytes c.max_bytes

def on_disk (file : BTreeMap Nat Bytes) : Spool :=
  ((Spool.on_disk file c.cap).with_overflow c.overflow).with_max_bytes c.max_bytes

def bounds : Bounds :=
  ⟨max c.cap 1, if c.max_bytes = 0 then none else some (min c.max_bytes USIZE_MAX)⟩

theorem exact_in_memory : c.in_memory.Exact :=
  ⟨Nat.lt_of_lt_of_le Nat.zero_lt_one (Nat.le_max_right _ _), trivial, rfl⟩

theorem records_on_disk (file : BTreeMap Nat Bytes) :
    (c.on_disk file).records = file.toList.map (fun e => decode e.2) := by
  show ((file.map (fun _ record => (record, none))).toList.map _) = _
  rw [BTreeMap.toList_map, List.map_map]
  rfl

theorem exact_on_disk (file : BTreeMap Nat Bytes) : (c.on_disk file).Exact :=
  ⟨Nat.lt_of_lt_of_le Nat.zero_lt_one (Nat.le_max_right _ _), Spool.fresh_on_disk file c.cap,
    Spool.accounted_eq _⟩

end Config

end mqtt_bridge
