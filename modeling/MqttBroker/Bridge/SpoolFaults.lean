-- Pushes that fail. A push that drops the oldest records takes their bytes off the total and
-- counts them while its transaction is open, and neither comes back when the transaction
-- fails: the records stay, and the total is too small from then on.
import MqttBroker.Bridge.SpoolTwins

namespace mqtt_bridge

open ByteCodec Wire BoundedQueue

/-! ## Where a push fails -/

/-- The fault comes after something was taken off: a whole record, or the bytes of the oldest
record when that one decodes. -/
def DiskFault.Late (oldest : Option SpooledMessage) : DiskFault → Prop
  | .Read | .Begin => False
  | .Evict done => 0 < done
  | .Remove done => 0 < done ∨ oldest.isSome
  | .Insert | .Commit => True

namespace Spool

/-- The resident messages, the byte total and the count of drops are as before. -/
def Unchanged (s s' : Spool) : Prop :=
  s'.records = s.records ∧ s'.bytes = s.bytes ∧ s'.dropped = s.dropped

/-- The push drops records for its message, and fails after it began to. -/
def ShedsFirst (s : Spool) (fault : Option DiskFault) (msg : SpooledMessage) : Prop :=
  s.onDisk = true ∧ s.overflow = .DropOldest ∧ ¬ s.bounds.Oversized (message_bytes msg) ∧
    ¬ s.bounds.Room recordBytes (message_bytes msg) s.records ∧
    ∃ f ∈ fault, DiskFault.Late (s.records.head?.join) f

variable {s : Spool} {msg : SpooledMessage} {o : Option Origin} {fault : Option DiskFault}
  {table : BTreeMap Nat (Bytes × Option Origin)} {next bytes : Nat}

/-- A failed push on disk leaves the table; `less` and `dropped` are the total and the count. -/
def FailsWith (s : Spool) (table : BTreeMap Nat (Bytes × Option Origin)) (next less dropped : Nat)
    (r : Except SpoolError Unit × Spool) : Prop :=
  ∃ e next', next ≤ next' ∧ r = (.error e, { s with inner := .Disk table next' less, dropped })

theorem failsWith_self (hin : s.inner = .Disk table next bytes) (e : SpoolError) :
    FailsWith s table next bytes s.dropped (.error e, s) := by
  refine ⟨e, next, Nat.le_refl _, ?_⟩
  rw [← hin]

theorem message_bytes_pos (m : SpooledMessage) : 0 < message_bytes m := by
  unfold message_bytes ENTRY_OVERHEAD
  omega

theorem push_disk_drop_oldest_fails (hs : s.Exact) (hin : s.inner = .Disk table next bytes)
    (hsum : load recordBytes s.records + message_bytes msg ≤ USIZE_MAX)
    (hbig : ¬ s.bounds.Oversized (message_bytes msg))
    (hfull : ¬ s.bounds.Room recordBytes (message_bytes msg) s.records) (f : DiskFault) :
    ∃ less dropped,
      FailsWith s table next less dropped
        (s.push_disk_drop_oldest table next bytes (some f) msg o) ∧
      ((less = bytes ∧ dropped = s.dropped) ↔ ¬ DiskFault.Late (s.records.head?.join) f) := by
  have hne : s.records ≠ [] := by
    intro hnil
    rw [hnil] at hfull
    exact hfull (Bounds.room_nil hs.cap_pos hbig)
  have hpos := Bounds.excess_pos hne hfull
  have hrecords := records_disk hin
  have hbytes := hs.bytes_disk hin
  rw [← hrecords] at hbytes
  have hcap := @Bounds.excess_le _ recordBytes s.bounds (message_bytes msg) s.records
  have hsize : s.records.length = table.size := by rw [hrecords, List.length_map, BTreeMap.size_eq]
  -- what the loop leaves where it is let evict `limit` records
  have hloop : ∀ limit, ∃ kept, s.evict (message_bytes msg) limit table.toList table bytes =
      (kept, load recordBytes (s.records.drop
          (min limit (s.bounds.excess recordBytes (message_bytes msg) s.records))),
        min limit (s.bounds.excess recordBytes (message_bytes msg) s.records)) := by
    intro limit
    obtain ⟨kept, hevict, -⟩ := evict_eq (s := s) (message_bytes msg) limit table table.toList rfl
      (hrecords ▸ hsum)
    rw [← hrecords] at hevict
    exact ⟨kept, hbytes ▸ hevict⟩
  unfold push_disk_drop_oldest
  cases f with
  | Read => exact ⟨bytes, s.dropped, failsWith_self hin _, by simp [DiskFault.Late]⟩
  | Begin => exact ⟨bytes, s.dropped, failsWith_self hin _, by simp [DiskFault.Late]⟩
  | Evict done =>
    obtain ⟨kept, hevict⟩ := hloop done
    simp only [hevict]
    refine ⟨_, _, ⟨_, _, Nat.le_refl _, rfl⟩, ?_⟩
    unfold DiskFault.Late
    constructor
    · rintro ⟨-, hdropped⟩ hdone
      omega
    · intro hdone
      have hzero : done = 0 := by omega
      subst hzero
      simp [hbytes]
  | Remove done =>
    obtain ⟨kept, hevict⟩ := hloop (done + 1)
    simp only [hevict]
    refine ⟨_, _, ⟨_, _, Nat.le_refl _, rfl⟩, ?_⟩
    unfold DiskFault.Late
    obtain ⟨oldest, rest, hcons⟩ := List.exists_cons_of_ne_nil hne
    constructor
    · rintro ⟨hless, hdropped⟩ (hdone | hsome)
      · omega
      · have hzero : done = 0 := by omega
        subst hzero
        rw [hcons] at hsome
        obtain ⟨m, hm⟩ := Option.isSome_iff_exists.mp hsome
        have hold : oldest = some m := hm
        rw [Nat.min_eq_left (by omega), hbytes, hcons, hold, List.drop_succ_cons, List.drop_zero,
          load_cons] at hless
        have := message_bytes_pos m
        simp only [recordBytes] at hless
        omega
    · intro hlate
      rw [not_or] at hlate
      have hzero : done = 0 := by omega
      subst hzero
      have hold : oldest = none := by
        rw [hcons] at hlate
        simpa using hlate.2
      rw [Nat.min_eq_left (by omega), hbytes, hcons, hold, List.drop_succ_cons, List.drop_zero,
        load_cons]
      simp [recordBytes]
  | Insert =>
    obtain ⟨kept, hevict⟩ := hloop table.size
    simp only [hevict]
    refine ⟨_, _, ⟨_, _, Nat.le_refl _, rfl⟩, ?_⟩
    simp only [DiskFault.Late, not_true_eq_false, iff_false, not_and]
    omega
  | Commit =>
    obtain ⟨kept, hevict⟩ := hloop table.size
    simp only [hevict]
    refine ⟨_, _, ⟨_, _, Nat.le_succ _, rfl⟩, ?_⟩
    simp only [DiskFault.Late, not_true_eq_false, iff_false, not_and]
    omega

theorem push_mem {q : List (SpooledMessage × Option Origin)} (hin : s.inner = .Mem q bytes) :
    s.push fault msg o = s.push none msg o := by
  unfold push append unread
  simp only [hin]

theorem push_refused {e : SpoolError} (h : (s.push none msg o).1 = .error e) :
    (s.push none msg o).2 = s := by
  have hunread : s.unread none = false := by
    unfold unread
    cases s.inner <;> rfl
  unfold push append push_disk_drop_oldest at *
  simp only [hunread, Bool.false_eq_true, if_false] at h ⊢
  split
  · rename_i hbig
    rw [if_pos hbig] at h
    split
    · rfl
    · rename_i hpolicy
      rw [if_neg hpolicy] at h
      cases h
  · rename_i hbig
    rw [if_neg hbig] at h
    split
    · rename_i hfull
      rw [if_pos hfull] at h
      split
      · rfl
      · rename_i hpolicy
        rw [if_neg hpolicy] at h
        cases hin : s.inner <;> simp [hin] at h
    · rename_i hfull
      rw [if_neg hfull] at h
      cases hin : s.inner <;> simp [hin] at h

theorem push_fault_cases (hs : s.Exact)
    (hsum : load recordBytes s.records + message_bytes msg ≤ USIZE_MAX) :
    (∃ table next less dropped, s.inner = .Disk table next s.bytes ∧
      FailsWith s table next less dropped (s.push fault msg o) ∧
      ((less = s.bytes ∧ dropped = s.dropped) ↔ ¬ s.ShedsFirst fault msg)) ∨
    (s.push fault msg o = s.push none msg o ∧ ¬ s.ShedsFirst fault msg) := by
  cases hin : s.inner with
  | Mem q bytes =>
    refine .inr ⟨push_mem hin, ?_⟩
    rintro ⟨hdisk, -⟩
    rw [onDisk_mem hin] at hdisk
    cases hdisk
  | Disk table next bytes =>
    have hbytes : s.bytes = bytes := by
      unfold Spool.bytes
      rw [hin]
    rw [hbytes]
    rcases fault with _ | f
    · refine .inr ⟨rfl, ?_⟩
      rintro ⟨-, -, -, -, f, hf, -⟩
      cases hf
    by_cases hread : f = .Read
    · refine .inl ⟨table, next, bytes, s.dropped, rfl, ?_, ?_⟩
      · have hpush : s.push (some f) msg o = (.error .Backend, s) := by
          unfold push unread
          simp [hin, hread]
        rw [hpush]
        exact failsWith_self hin _
      · simp only [and_self, true_iff]
        rintro ⟨-, -, -, -, f', hf, hlate⟩
        cases hf
        rw [hread] at hlate
        exact hlate
    have hunread : s.unread (some f) = false := by
      unfold unread
      rw [hin]
      simpa using hread
    have hover := over_iff (s := s) hsum
    rw [← len_eq, ← hs.bytes] at hover
    by_cases hbig : s.bounds.Oversized (message_bytes msg)
    · refine .inr ⟨?_, fun h => h.2.2.1 hbig⟩
      unfold push
      simp only [hunread, show s.unread none = false by simp [unread, hin],
        if_pos ((oversized_iff s _).mpr hbig)]
    have hsmall : ¬ s.max_bytes.any (fun cap => decide (message_bytes msg > cap)) = true :=
      fun h => hbig ((oversized_iff s _).mp h)
    by_cases hroom : s.bounds.Room recordBytes (message_bytes msg) s.records
    · refine .inl ⟨table, next, bytes, s.dropped, rfl, ?_, ?_⟩
      · unfold push append
        simp only [hunread, Bool.false_eq_true, if_false, if_neg hsmall,
          if_neg (hover.not.mpr (not_not.mpr hroom)), hin]
        cases f with
        | Commit => exact ⟨.Backend, next + 1, Nat.le_succ _, rfl⟩
        | _ => exact failsWith_self hin _
      · simp only [and_self, true_iff]
        exact fun h => h.2.2.2.1 hroom
    by_cases hpolicy : s.overflow = .Refuse
    · refine .inr ⟨?_, ?_⟩
      · unfold push
        simp only [hunread, show s.unread none = false by simp [unread, hin], if_neg hsmall,
          if_pos (hover.mpr hroom), if_pos hpolicy]
      · rintro ⟨-, hdrop, -⟩
        rw [hpolicy] at hdrop
        cases hdrop
    · have hdrop : s.overflow = .DropOldest := by
        cases hp : s.overflow with
        | Refuse => exact absurd hp hpolicy
        | DropOldest => rfl
      obtain ⟨less, dropped, hfails, hiff⟩ :=
        push_disk_drop_oldest_fails (o := o) hs hin hsum hbig hroom f
      refine .inl ⟨table, next, less, dropped, rfl, ?_, ?_⟩
      · unfold push
        simp only [hunread, Bool.false_eq_true, if_false, if_neg hsmall, if_pos (hover.mpr hroom),
          if_neg hpolicy, hin]
        exact hfails
      · rw [hiff]
        apply not_congr
        constructor
        · intro hlate
          exact ⟨onDisk_disk hin, hdrop, hbig, hroom, f, rfl, hlate⟩
        · rintro ⟨-, -, -, -, f', hf, hlate⟩
          cases hf
          exact hlate

theorem push_failed_iff (hs : s.Exact)
    (hsum : load recordBytes s.records + message_bytes msg ≤ USIZE_MAX) :
    ((∃ e, (s.push fault msg o).1 = .error e) → s.Unchanged (s.push fault msg o).2) ↔
      ¬ s.ShedsFirst fault msg := by
  rcases @push_fault_cases s msg o fault hs hsum with
    ⟨table, next, less, dropped, hin, ⟨e, next', -, hpush⟩, hiff⟩ | ⟨hpush, hno⟩
  · rw [← hiff, hpush]
    constructor
    · intro h
      exact (h ⟨e, rfl⟩).2
    · intro h _
      exact ⟨(records_disk hin).symm, h⟩
  · rw [hpush]
    refine iff_of_true ?_ hno
    rintro ⟨e, he⟩
    rw [push_refused he]
    exact ⟨rfl, rfl, rfl⟩

theorem push_exact (hs : s.Exact) (hfit : Fits msg)
    (hsum : load recordBytes s.records + message_bytes msg ≤ USIZE_MAX)
    (hno : ¬ s.ShedsFirst fault msg) : (s.push fault msg o).2.Exact := by
  rcases @push_fault_cases s msg o fault hs hsum with
    ⟨table, next, less, dropped, hin, ⟨e, next', hnext, hpush⟩, hiff⟩ | ⟨hpush, -⟩
  · obtain ⟨rfl, rfl⟩ := hiff.mpr hno
    rw [hpush]
    refine ⟨hs.cap_pos, ?_, hs.bytes_disk hin⟩
    intro k v hk
    exact Nat.lt_of_lt_of_le (hs.fresh_disk hin k v hk) hnext
  · rw [hpush]
    exact (push_offers hs hfit hsum).2.exact

/-! ## Drains -/

/-- The walk of a drain reads every record that decodes. -/
def ReadsAll (s : Spool) (skipped : List Nat) : Prop :=
  match s.inner with
  | .Mem _ _ => True
  | .Disk table _ _ => ∀ k ∈ skipped, ∀ row, table[k]? = some row → decode row.1 = none

theorem drain_exact {skipped : List Nat} (hs : s.Exact)
    (hall : fault = none → s.ReadsAll skipped) : (s.drain fault skipped).2.Exact := by
  have hfresh := @drain_fresh s fault skipped hs.fresh
  unfold drain ReadsAll at *
  cases hin : s.inner with
  | Mem q bytes => exact ⟨hs.cap_pos, trivial, rfl⟩
  | Disk table next bytes =>
    simp only [hin] at hall hfresh ⊢
    cases hf : fault with
    | some f => simpa using hs
    | none =>
      rw [hf] at hfresh
      simp only [Option.isSome_none, Bool.false_eq_true, if_false] at hfresh ⊢
      refine ⟨hs.cap_pos, hfresh, ?_⟩
      unfold records Spool.bytes
      refine (load_eq_zero recordBytes ?_).symm
      intro record hrecord
      obtain ⟨⟨k, row⟩, hrow, rfl⟩ := List.mem_map.mp hrecord
      rw [BTreeMap.mem_toList, BTreeMap.get_foldl_erase] at hrow
      split at hrow
      · cases hrow
      · rename_i hkept
        have hskipped : k ∈ skipped := by
          by_contra hnot
          refine hkept (List.mem_map.mpr ⟨(k, row), List.mem_filter.mpr ⟨?_, ?_⟩, rfl⟩)
          · exact (BTreeMap.mem_toList table k row).mpr hrow
          · simpa using hnot
        simp only [hall hf k hskipped row hrow, recordBytes]

/-! ## Runs -/

/-- A call on a spool, with the fault that its transaction meets, if any. -/
inductive Call
  | Push (fault : Option DiskFault) (msg : SpooledMessage)
  | Drain (fault : Option DiskFault) (skipped : List Nat)

def called (s : Spool) : Call → Spool
  | .Push fault msg => (s.push fault msg none).2
  | .Drain fault skipped => (s.drain fault skipped).2

def run (s : Spool) (calls : List Call) : Spool := calls.foldl called s

/-- What a call has to meet: a message that a record can carry and a machine word can count, no
failure after records were dropped for it, and no record that a drain passes over. -/
def Meets (s : Spool) : Call → Prop
  | .Push fault msg => Fits msg ∧ load recordBytes s.records + message_bytes msg ≤ USIZE_MAX ∧
    ¬ s.ShedsFirst fault msg
  | .Drain fault skipped => fault = none → s.ReadsAll skipped

def AllMeet (s : Spool) : List Call → Prop
  | [] => True
  | call :: rest => s.Meets call ∧ (s.called call).AllMeet rest

/-- A spool that was just made, or opened on whatever its file holds. -/
def Opened (s : Spool) : Prop :=
  ∃ c : Config, s = c.in_memory ∨ ∃ file, s = c.on_disk file

theorem exact_of_opened (h : s.Opened) : s.Exact := by
  obtain ⟨c, rfl | ⟨file, rfl⟩⟩ := h
  · exact c.exact_in_memory
  · exact c.exact_on_disk file

theorem exact_run {calls : List Call} (hs : s.Exact) (h : s.AllMeet calls) :
    (s.run calls).Exact := by
  induction calls generalizing s with
  | nil => exact hs
  | cons call rest ih =>
    refine ih ?_ h.2
    have hmeets := h.1
    cases call with
    | Push fault msg => exact push_exact hs hmeets.1 hmeets.2.1 hmeets.2.2
    | Drain fault skipped => exact drain_exact hs hmeets

/-- After every run of calls that meet the condition the byte total is that of the decodable
residents; and a push that fails then changes nothing exactly when it had not begun to drop
records. -/
theorem failed_pushes_leave_the_spool (s : Spool) (calls : List Call) (hopened : s.Opened)
    (hmeet : s.AllMeet calls) :
    (s.run calls).bytes = load recordBytes (s.run calls).records ∧
    ∀ fault msg, load recordBytes (s.run calls).records + message_bytes msg ≤ USIZE_MAX →
      (((∃ e, ((s.run calls).push fault msg none).1 = .error e) →
        (s.run calls).Unchanged ((s.run calls).push fault msg none).2) ↔
      ¬ (s.run calls).ShedsFirst fault msg) := by
  have hexact := exact_run (exact_of_opened hopened) hmeet
  exact ⟨hexact.bytes, fun fault msg hsum => push_failed_iff hexact hsum⟩

/-- A spool on disk for one message, with that message in it. -/
def full : Spool := (((Config.mk 1 0 .DropOldest).on_disk ∅).push none reading none).2

theorem leaves_full : Leaves ((Config.mk 1 0 .DropOldest).on_disk ∅) ⟨[some reading], 0⟩ full := by
  have hrecords : ((Config.mk 1 0 .DropOldest).on_disk ∅).records = [] := by
    rw [Config.records_on_disk]
    simp
  have hsum : load recordBytes ((Config.mk 1 0 .DropOldest).on_disk ∅).records +
      message_bytes reading ≤ USIZE_MAX := by
    rw [hrecords]
    decide
  have hleaves := (push_offers (o := none) (Config.exact_on_disk _ ∅) fits_reading hsum).2
  have hqueue : ((Config.mk 1 0 .DropOldest).on_disk ∅).queue = ⟨[], 0⟩ := by
    unfold queue
    rw [hrecords]
    rfl
  rw [hqueue] at hleaves
  exact hleaves

/-- The disk fails before anything is dropped: the message that was there is still there, and
counted. -/
theorem a_push_that_fails_at_once_leaves_the_spool :
    full.records = [some reading] ∧ full.bytes = load recordBytes full.records ∧
      (full.push (some .Begin) reading none).1 = .error .Backend ∧
      full.Unchanged (full.push (some .Begin) reading none).2 := by
  have hrecords : full.records = [some reading] := congrArg Queue.records leaves_full.queue
  have hmeet : ((Config.mk 1 0 .DropOldest).on_disk ∅).AllMeet [.Push none reading] := by
    refine ⟨⟨fits_reading, ?_, ?_⟩, trivial⟩
    · rw [Config.records_on_disk, BTreeMap.toList_empty]
      decide
    · rintro ⟨-, -, -, -, f, hf, -⟩
      cases hf
  have hsum : load recordBytes full.records + message_bytes reading ≤ USIZE_MAX := by
    rw [hrecords]
    decide
  have hearly : ¬ full.ShedsFirst (some .Begin) reading := by
    rintro ⟨-, -, -, -, f, hf, hlate⟩
    cases hf
    exact hlate
  have hfails : (full.push (some .Begin) reading none).1 = .error .Backend := by
    rfl
  obtain ⟨hbytes, hfailed⟩ := failed_pushes_leave_the_spool _ _ ⟨_, .inr ⟨∅, rfl⟩⟩ hmeet
  exact ⟨hrecords, hbytes, hfails,
    (hfailed (some .Begin) reading hsum).mpr hearly ⟨_, hfails⟩⟩

/-- The commit fails after the only record was dropped: it is still there, and is no longer in
the total. -/
theorem a_failed_commit_takes_a_resident_off_the_total :
    full.Exact ∧ (∃ e, (full.push (some .Commit) reading none).1 = .error e) ∧
      ¬ full.Unchanged (full.push (some .Commit) reading none).2 := by
  have hexact := leaves_full.exact
  have hrecords : full.records = [some reading] := congrArg Queue.records leaves_full.queue
  have hbounds : full.bounds = ⟨1, none⟩ := leaves_full.bounds
  have hsheds : full.ShedsFirst (some .Commit) reading := by
    refine ⟨leaves_full.medium, leaves_full.overflow, ?_, ?_, .Commit, rfl, trivial⟩
    · rw [hbounds]
      rintro ⟨most, hmost, -⟩
      cases hmost
    · rw [hbounds, hrecords]
      rintro ⟨hlen, -⟩
      exact absurd hlen (by decide)
  have hsum : load recordBytes full.records + message_bytes reading ≤ USIZE_MAX := by
    rw [hrecords]
    decide
  have hnot := (push_failed_iff (o := none) hexact hsum).not.mpr (not_not.mpr hsheds)
  rw [Classical.not_imp] at hnot
  exact ⟨hexact, hnot⟩

end Spool

end mqtt_bridge
