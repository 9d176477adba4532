-- The log on disk and the log in memory answer alike: the table of byte strings
-- tells the entries of each key apart, in the order of their offsets, and the
-- counters beside it go on where they were.
import MqttBroker.Storage.PersistentLog

namespace mqtt_storage.persistent_log

open ByteCodec ByteOrder
open mqtt_storage.repl

/-! ## The keys of the table -/

def Short (key : String) : Prop := (stringBytes key).length < 2 ^ 32

section

variable {key other : String} {a b o : Nat}

/-- The bytes of an entry before its offset. -/
def front (key : String) : List UInt8 :=
  toBe 4 (stringBytes key).length ++ stringBytes key

theorem entry_key_eq (h : Short key) (o : Nat) : entry_key key o = front key ++ toBe 8 o := by
  unfold entry_key front
  rw [Nat.min_eq_left (by unfold Short at h; unfold U32_MAX; omega)]

theorem toBe_len_inj (h : Short key) (h' : Short other)
    (heq : toBe 4 (stringBytes key).length = toBe 4 (stringBytes other).length) :
    (stringBytes key).length = (stringBytes other).length :=
  toBe_inj (by simpa [Short] using h) (by simpa [Short] using h') heq

theorem front_inj (h : Short key) (h' : Short other) {x y : List UInt8}
    (heq : front key ++ x = front other ++ y) : key = other ∧ x = y := by
  unfold front at heq
  rw [List.append_assoc, List.append_assoc] at heq
  obtain ⟨hlen, hrest⟩ := List.append_inj heq (by simp)
  obtain ⟨hkey, hxy⟩ := List.append_inj hrest (toBe_len_inj h h' hlen)
  exact ⟨stringBytes_inj hkey, hxy⟩

theorem offset_fits (h : o < 2 ^ 64) : o < 256 ^ 8 := by
  have : (256 : Nat) ^ 8 = 2 ^ 64 := by decide
  omega

theorem between_iff (h : Short key) (h' : Short other) (ha : a < 2 ^ 64) (hb : b < 2 ^ 64)
    (ho : o < 2 ^ 64) : (entry_key key a ≤ entry_key other o ∧ entry_key other o ≤ entry_key key b) ↔
      other = key ∧ a ≤ o ∧ o ≤ b := by
  rw [entry_key_eq h, entry_key_eq h, entry_key_eq h']
  constructor
  · rintro ⟨hlo, hhi⟩
    obtain ⟨z, hz, hza, hzb⟩ := between_append hlo hhi
    obtain ⟨rfl, rfl⟩ := front_inj h' h hz
    rw [toBe_le_iff (offset_fits ha) (offset_fits ho)] at hza
    rw [toBe_le_iff (offset_fits ho) (offset_fits hb)] at hzb
    exact ⟨rfl, hza, hzb⟩
  · rintro ⟨rfl, hao, hob⟩
    rw [append_le_append, append_le_append, toBe_le_iff (offset_fits ha) (offset_fits ho),
      toBe_le_iff (offset_fits ho) (offset_fits hb)]
    exact ⟨hao, hob⟩

theorem entry_key_inj (h : Short key) (h' : Short other) (ha : a < 2 ^ 64) (hb : b < 2 ^ 64)
    (heq : entry_key key a = entry_key other b) : key = other ∧ a = b := by
  rw [entry_key_eq h, entry_key_eq h'] at heq
  obtain ⟨hkey, hoffset⟩ := front_inj h h' heq
  exact ⟨hkey, toBe_inj (offset_fits ha) (offset_fits hb) hoffset⟩

theorem entry_key_lt (h : Short key) (ha : a < 2 ^ 64) (hb : b < 2 ^ 64) :
    entry_key key a < entry_key key b ↔ a < b := by
  rw [entry_key_eq h, entry_key_eq h, append_lt_append,
    toBe_lt_iff (offset_fits ha) (offset_fits hb)]

theorem decode_offset_entry_key (ho : o < 2 ^ 64) : decode_offset (entry_key key o) = o := by
  unfold decode_offset entry_key
  rw [List.length_append, length_toBe, Nat.add_sub_cancel, List.drop_left,
    ofBe_toBe 8 o (offset_fits ho)]

theorem decode_entry_key_entry_key (h : Short key) (o : Nat) :
    decode_entry_key (entry_key key o) = some key := by
  have hlen : (toBe 4 (stringBytes key).length).length = 4 := length_toBe ..
  have hfits : (stringBytes key).length < 256 ^ 4 := by simpa [Short] using h
  rw [entry_key_eq h]
  unfold decode_entry_key front
  rw [List.append_assoc, List.take_append_of_le_length (by omega),
    List.take_of_length_le (by omega), ofBe_toBe 4 _ hfits, if_neg (by simp)]
  dsimp only
  rw [if_neg (by simp), List.drop_append_of_le_length (by omega),
    List.drop_of_length_le (by omega), List.nil_append,
    List.take_append_of_le_length (Nat.le_refl _), List.take_length]
  exact fromUTF8_stringBytes key

end

/-! ## The two logs -/

def stateOf (m : InMemoryReplicatedLog) (key : String) : LogState := m.logs[key]?.getD {}

/-- The file has the entries and the counters of the log in memory, and nothing else. -/
structure Mirrors (m : InMemoryReplicatedLog) (db : Database) : Prop where
  counter : ∀ k, db.next_offset[k]?.getD 0 = (stateOf m k).next_offset
  sorted : ∀ k, (stateOf m k).entries.Pairwise (fun e e' => e.offset < e'.offset)
  numbered : ∀ k, ∀ e ∈ (stateOf m k).entries,
    0 < e.offset ∧ e.offset ≤ (stateOf m k).next_offset
  below : ∀ k, (stateOf m k).next_offset < U64_MAX
  short : ∀ k, (stateOf m k).entries ≠ [] → Short k
  stored : ∀ k o r, Short k → o < 2 ^ 64 →
    (db.entries[entry_key k o]? = some r ↔ (⟨o, r⟩ : LogEntry) ∈ (stateOf m k).entries)
  only : ∀ bytes r, db.entries[bytes]? = some r →
    ∃ k o, Short k ∧ o < 2 ^ 64 ∧ bytes = entry_key k o

section

variable {m : InMemoryReplicatedLog} {db : Database} {key : String}

theorem mem_range (entries : BTreeMap (List UInt8) (List UInt8)) (bounds : List UInt8 × List UInt8)
    (bytes r : List UInt8) : (bytes, r) ∈ range entries bounds ↔
      entries[bytes]? = some r ∧ bounds.1 ≤ bytes ∧ bytes ≤ bounds.2 := by
  unfold range
  rw [List.mem_filter, BTreeMap.mem_toList]
  simp

variable {a b : Nat}

theorem Mirrors.mem_between (h : Mirrors m db) (hk : Short key) (ha : a < 2 ^ 64)
    (hb : b < 2 ^ 64) (bytes r : List UInt8) :
    (bytes, r) ∈ range db.entries (entry_key key a, entry_key key b) ↔
      ∃ o, bytes = entry_key key o ∧ o < 2 ^ 64 ∧ a ≤ o ∧ o ≤ b ∧
        (⟨o, r⟩ : LogEntry) ∈ (stateOf m key).entries := by
  rw [mem_range]
  constructor
  · rintro ⟨hr, hbetween⟩
    obtain ⟨k, o, hshort, ho, rfl⟩ := h.only bytes r hr
    obtain ⟨rfl, hao, hob⟩ := (between_iff hk hshort ha hb ho).mp hbetween
    exact ⟨o, rfl, ho, hao, hob, (h.stored k o r hshort ho).mp hr⟩
  · rintro ⟨o, rfl, ho, hao, hob, hmem⟩
    exact ⟨(h.stored key o r hk ho).mpr hmem, (between_iff hk hk ha hb ho).mpr ⟨rfl, hao, hob⟩⟩

theorem Mirrors.scan (h : Mirrors m db) (hk : Short key) (ha : a < 2 ^ 64) (hb : b < 2 ^ 64) :
    (range db.entries (entry_key key a, entry_key key b)).map
        (fun e => (⟨decode_offset e.1, e.2⟩ : LogEntry)) =
      (stateOf m key).entries.filter (fun e => decide (a ≤ e.offset ∧ e.offset ≤ b)) := by
  apply eq_of_sorted (R := fun e e' : LogEntry => e.offset < e'.offset)
    (fun e => Nat.lt_irrefl _) (fun _ _ _ => Nat.lt_trans)
  · rw [List.pairwise_map]
    have hbytes : (range db.entries (entry_key key a, entry_key key b)).Pairwise
        (fun e e' => e.1 < e'.1) := db.entries.toList_sorted.sublist List.filter_sublist
    apply hbytes.imp_of_mem
    rintro ⟨bytes, r⟩ ⟨bytes', r'⟩ hmem hmem' hlt
    obtain ⟨o, rfl, ho, -⟩ := (h.mem_between hk ha hb bytes r).mp hmem
    obtain ⟨o', rfl, ho', -⟩ := (h.mem_between hk ha hb bytes' r').mp hmem'
    rw [decode_offset_entry_key ho, decode_offset_entry_key ho']
    exact (entry_key_lt hk ho ho').mp hlt
  · exact (h.sorted key).sublist List.filter_sublist
  · rintro ⟨o, r⟩
    rw [List.mem_map, List.mem_filter, decide_eq_true_iff]
    constructor
    · rintro ⟨⟨bytes, r'⟩, hmem, heq⟩
      obtain ⟨o', rfl, ho', hao, hob, hstored⟩ := (h.mem_between hk ha hb bytes r').mp hmem
      rw [decode_offset_entry_key ho'] at heq
      cases heq
      exact ⟨hstored, hao, hob⟩
    · rintro ⟨hstored, hao, hob⟩
      have ho : o < 2 ^ 64 := Nat.lt_of_le_of_lt hob hb
      refine ⟨(entry_key key o, r),
        (h.mem_between hk ha hb _ r).mpr ⟨o, rfl, ho, hao, hob, hstored⟩, ?_⟩
      rw [decode_offset_entry_key ho]

variable {after : Nat}

theorem Mirrors.scan_bounds (h : Mirrors m db) (hk : Short key) (ha : after < U64_MAX) :
    (range db.entries (entry_bounds key after)).map
        (fun e => (⟨decode_offset e.1, e.2⟩ : LogEntry)) =
      (stateOf m key).entries.filter (fun e => decide (after < e.offset)) := by
  have hlo : min (after + 1) U64_MAX = after + 1 := Nat.min_eq_left ha
  unfold entry_bounds
  rw [hlo, h.scan hk (by unfold U64_MAX at ha; omega) (by decide)]
  apply List.filter_congr
  intro e he
  have hbelow : e.offset ≤ U64_MAX :=
    Nat.le_of_lt (Nat.lt_of_le_of_lt (h.numbered key e he).2 (h.below key))
  rw [decide_eq_decide]
  exact ⟨fun hin => Nat.lt_of_succ_le hin.1, fun hlt => ⟨hlt, hbelow⟩⟩

theorem Mirrors.scan_all (h : Mirrors m db) (hk : Short key) :
    (range db.entries (entry_bounds key 0)).map
        (fun e => (⟨decode_offset e.1, e.2⟩ : LogEntry)) = (stateOf m key).entries := by
  rw [h.scan_bounds hk (by decide), List.filter_eq_self]
  intro e he
  simpa using (h.numbered key e he).1

/-! ## The reads -/

theorem memory_read (m : InMemoryReplicatedLog) (key : String) (after limit : Nat) :
    m.read key after limit =
      ((stateOf m key).entries.filter (fun e => decide (after < e.offset))).take limit := by
  unfold InMemoryReplicatedLog.read stateOf
  cases m.logs[key]? <;> simp

theorem Mirrors.read (h : Mirrors m db) (hk : Short key) (ha : after < U64_MAX) (limit : Nat) :
    db.read key after limit = m.read key after limit := by
  unfold Database.read
  rw [List.map_take, h.scan_bounds hk ha, memory_read]

theorem memory_live_range (m : InMemoryReplicatedLog) (key : String) :
    m.live_range key = (stateOf m key).live_range := by
  unfold InMemoryReplicatedLog.live_range stateOf
  cases m.logs[key]? <;> simp [LogState.live_range]

theorem Mirrors.live_range (h : Mirrors m db) (hk : Short key) :
    db.live_range key = m.live_range key := by
  rw [memory_live_range, LogState.live_range, ← h.scan_all hk]
  unfold Database.live_range
  rcases range db.entries (entry_bounds key 0) with _ | ⟨first, rest⟩
  · simp
  · rcases rest.eq_nil_or_concat with rfl | ⟨init, last, rfl⟩
    · simp
    · have hlast : ∀ (x y : LogEntry) (l : List LogEntry),
          (x :: (l ++ [y])).getLast? = some y := by
        intro x y l
        rw [← List.cons_append, List.getLast?_append]
        simp
      simp [hlast]

theorem mem_memory_keys (m : InMemoryReplicatedLog) (k : String) :
    k ∈ m.keys ↔ (stateOf m k).entries ≠ [] := by
  unfold InMemoryReplicatedLog.keys stateOf
  rw [List.mem_map]
  constructor
  · rintro ⟨⟨k, s⟩, hmem, rfl⟩
    obtain ⟨hs, hne⟩ := List.mem_filter.mp hmem
    rw [(BTreeMap.mem_toList _ _ _).mp hs]
    simpa using hne
  · intro hne
    rcases hs : m.logs[k]? with _ | s
    · simp [hs] at hne
    · rw [hs] at hne
      refine ⟨(k, s), List.mem_filter.mpr ⟨(BTreeMap.mem_toList _ _ _).mpr hs, ?_⟩, rfl⟩
      simpa using hne

theorem Mirrors.mem_keys (h : Mirrors m db) (k : String) :
    k ∈ db.keys ↔ (stateOf m k).entries ≠ [] := by
  unfold Database.keys
  rw [Std.ExtTreeSet.mem_toList, BTreeSet.mem_foldl_insert, List.mem_filterMap]
  simp only [Std.ExtTreeSet.not_mem_empty, or_false]
  constructor
  · rintro ⟨⟨bytes, r⟩, hmem, hdecode⟩
    have hr := (BTreeMap.mem_toList _ _ _).mp hmem
    obtain ⟨k', o, hshort, ho, rfl⟩ := h.only bytes r hr
    rw [decode_entry_key_entry_key hshort] at hdecode
    cases hdecode
    exact List.ne_nil_of_mem ((h.stored k o r hshort ho).mp hr)
  · intro hne
    obtain ⟨⟨o, r⟩, hmem⟩ := List.exists_mem_of_ne_nil _ hne
    have hshort := h.short k hne
    have ho : o < 2 ^ 64 := by
      have hle := (h.numbered k _ hmem).2
      have hlt := h.below k
      unfold U64_MAX at hlt
      exact Nat.lt_of_le_of_lt hle (Nat.lt_trans hlt (by decide))
    exact ⟨(entry_key k o, r),
      (BTreeMap.mem_toList _ _ _).mpr ((h.stored k o r hshort ho).mpr hmem),
      decode_entry_key_entry_key hshort o⟩

theorem Mirrors.keys (h : Mirrors m db) : db.keys = m.keys := by
  apply eq_of_sorted (R := fun k k' : String => k < k') (fun k => lt_irrefl k)
    (fun _ _ _ => lt_trans)
  · exact BTreeSet.toList_sorted _
  · unfold InMemoryReplicatedLog.keys
    rw [List.pairwise_map]
    exact m.logs.toList_sorted.sublist List.filter_sublist
  · intro k
    rw [h.mem_keys, mem_memory_keys]

/-! ## The changes -/

theorem stateOf_insert (m : InMemoryReplicatedLog) (key k : String) (s : LogState) :
    stateOf { logs := m.logs.insert key s } k = if k = key then s else stateOf m k := by
  unfold stateOf
  rw [BTreeMap.get_insert]
  by_cases hk : k = key
  · simp [hk]
  · simp [hk, Ne.symm hk]

theorem mirrors_empty (version : Option Nat) : Mirrors {} { version } := by
  have hnone : ∀ k, stateOf {} k = {} := by
    intro k
    simp [stateOf]
  constructor
  · simp [hnone]
  · simp [hnone]
  · simp [hnone]
  · intro k
    rw [hnone]
    decide
  · simp [hnone]
  · simp [hnone]
  · simp

variable {m' : InMemoryReplicatedLog} {db' : Database} {s : LogState}

theorem Mirrors.change (h : Mirrors m db) (hk : Short key)
    (hstate : ∀ k, stateOf m' k = if k = key then s else stateOf m k)
    (hcounter : ∀ k, db'.next_offset[k]?.getD 0 =
      if k = key then s.next_offset else db.next_offset[k]?.getD 0)
    (hsorted : s.entries.Pairwise (fun e e' => e.offset < e'.offset))
    (hnumbered : ∀ e ∈ s.entries, 0 < e.offset ∧ e.offset ≤ s.next_offset)
    (hbelow : s.next_offset < U64_MAX)
    (hstored : ∀ o r, o < 2 ^ 64 →
      (db'.entries[entry_key key o]? = some r ↔ (⟨o, r⟩ : LogEntry) ∈ s.entries))
    (hframe : ∀ k o, k ≠ key → Short k → o < 2 ^ 64 →
      db'.entries[entry_key k o]? = db.entries[entry_key k o]?)
    (honly : ∀ bytes r, db'.entries[bytes]? = some r →
      (∃ o, o < 2 ^ 64 ∧ bytes = entry_key key o) ∨ db.entries[bytes]? = some r) :
    Mirrors m' db' := by
  have hself : stateOf m' key = s := by simp [hstate]
  have hother : ∀ k, k ≠ key → stateOf m' k = stateOf m k := by
    intro k hne
    simp [hstate, hne]
  constructor
  case counter =>
    intro k
    rw [hcounter, hstate, h.counter k]
    split <;> simp
  case sorted =>
    intro k
    by_cases hne : k = key
    · rwa [hne, hself]
    · rw [hother k hne]
      exact h.sorted k
  case numbered =>
    intro k
    by_cases hne : k = key
    · rwa [hne, hself]
    · rw [hother k hne]
      exact h.numbered k
  case below =>
    intro k
    by_cases hne : k = key
    · rwa [hne, hself]
    · rw [hother k hne]
      exact h.below k
  case short =>
    intro k
    by_cases hne : k = key
    · rw [hne]
      exact fun _ => hk
    · rw [hother k hne]
      exact h.short k
  case stored =>
    intro k o r hshort ho
    by_cases hne : k = key
    · rw [hne, hself]
      exact hstored o r ho
    · rw [hother k hne, hframe k o hne hshort ho]
      exact h.stored k o r hshort ho
  case only =>
    intro bytes r hr
    rcases honly bytes r hr with ⟨o, ho, rfl⟩ | hr
    · exact ⟨key, o, hk, ho, rfl⟩
    · exact h.only bytes r hr

theorem Mirrors.assign (h : Mirrors m db) (hk : Short key) (record : List UInt8)
    (hbelow : (db.assign key record).2 < U64_MAX) :
    (m.append key record).2 = .Offset (db.assign key record).2 ∧
      Mirrors (m.append key record).1 (db.assign key record).1 := by
  have hcounter := h.counter key
  have hnext : (db.assign key record).2 = (stateOf m key).next_offset + 1 := by
    simp [Database.assign, hcounter]
  generalize hn : (stateOf m key).next_offset + 1 = next at hnext
  rw [hnext] at hbelow
  have hfits : next < 2 ^ 64 := by
    unfold U64_MAX at hbelow
    omega
  have hentries : (db.assign key record).1.entries =
      db.entries.insert (entry_key key next) record := by
    simp [Database.assign, hcounter, hn]
  refine ⟨by simp [hnext, ← hn, InMemoryReplicatedLog.append, stateOf], ?_⟩
  apply h.change hk (s := ⟨(stateOf m key).entries ++ [⟨next, record⟩], next⟩)
  · intro k
    rw [← hn]
    exact stateOf_insert m key k _
  · intro k
    have hcounters : (db.assign key record).1.next_offset = db.next_offset.insert key next := by
      simp [Database.assign, hcounter, hn]
    rw [hcounters, BTreeMap.get_insert]
    by_cases hne : k = key
    · simp [hne]
    · simp [hne, Ne.symm hne]
  · rw [List.pairwise_append]
    refine ⟨h.sorted key, List.pairwise_singleton _ _, ?_⟩
    intro e he e' he'
    rw [List.mem_singleton.mp he', ← hn]
    exact Nat.lt_succ_of_le (h.numbered key e he).2
  · intro e he
    rcases List.mem_append.mp he with he | he
    · obtain ⟨hpos, hle⟩ := h.numbered key e he
      exact ⟨hpos, hn ▸ Nat.le_succ_of_le hle⟩
    · rw [List.mem_singleton.mp he, ← hn]
      exact ⟨Nat.succ_pos _, Nat.le_refl _⟩
  · exact hbelow
  · intro o r ho
    rw [hentries, BTreeMap.get_insert, List.mem_append, List.mem_singleton, LogEntry.mk.injEq]
    by_cases hoffset : o = next
    · subst hoffset
      have hfresh : (⟨o, r⟩ : LogEntry) ∉ (stateOf m key).entries := by
        intro hmem
        have hle := (h.numbered key _ hmem).2
        rw [← hn] at hle
        exact absurd hle (Nat.not_succ_le_self _)
      simp [hfresh, eq_comm]
    · have hother : ¬ entry_key key next = entry_key key o := by
        intro heq
        exact hoffset (entry_key_inj hk hk hfits ho heq).2.symm
      rw [if_neg hother, h.stored key o r hk ho]
      simp [hoffset]
  · intro k o hne hshort ho
    have hother : ¬ entry_key key next = entry_key k o := by
      intro heq
      exact hne (entry_key_inj hk hshort hfits ho heq).1.symm
    rw [hentries, BTreeMap.get_insert, if_neg hother]
  · intro bytes r hr
    rw [hentries, BTreeMap.get_insert] at hr
    split at hr
    · rename_i heq
      exact Or.inl ⟨next, hfits, heq.symm⟩
    · exact Or.inr hr

theorem get_drop_range (db : Database) (bounds : List UInt8 × List UInt8) (bytes : List UInt8) :
    (db.drop_range bounds).entries[bytes]? =
      if bounds.1 ≤ bytes ∧ bytes ≤ bounds.2 then none else db.entries[bytes]? := by
  unfold Database.drop_range
  rw [BTreeMap.get_foldl_erase]
  rcases hr : db.entries[bytes]? with _ | r
  · simp
  · have hmem : bytes ∈ (range db.entries bounds).map Prod.fst ↔
        bounds.1 ≤ bytes ∧ bytes ≤ bounds.2 := by
      rw [List.mem_map]
      constructor
      · rintro ⟨⟨bytes, r'⟩, hmem, rfl⟩
        exact ((mem_range _ _ _ _).mp hmem).2
      · intro hbetween
        exact ⟨(bytes, r), (mem_range _ _ _ _).mpr ⟨hr, hbetween⟩, rfl⟩
    simp only [hmem]

theorem Mirrors.drop_between (h : Mirrors m db) (hk : Short key) (ha : a < 2 ^ 64)
    (hb : b < 2 ^ 64) (hstate : ∀ k, stateOf m' k = if k = key then s else stateOf m k)
    (hcounter : ∀ k, db'.next_offset[k]?.getD 0 =
      if k = key then s.next_offset else db.next_offset[k]?.getD 0)
    (hentries : db'.entries = (db.drop_range (entry_key key a, entry_key key b)).entries)
    (hs : s.entries = (stateOf m key).entries.filter (fun e => !decide (a ≤ e.offset ∧ e.offset ≤ b)))
    (hnext : s.entries ≠ [] → s.next_offset = (stateOf m key).next_offset)
    (hbelow : s.next_offset < U64_MAX) : Mirrors m' db' := by
  apply h.change hk hstate hcounter
  · rw [hs]
    exact (h.sorted key).sublist List.filter_sublist
  · intro e he
    rw [hnext (List.ne_nil_of_mem he)]
    rw [hs] at he
    exact h.numbered key e (List.mem_of_mem_filter he)
  · exact hbelow
  · intro o r ho
    rw [hentries, get_drop_range, hs, List.mem_filter, ← h.stored key o r hk ho]
    simp only [between_iff hk hk ha hb ho]
    by_cases hin : a ≤ o ∧ o ≤ b
    · simp [hin]
    · simp [hin]
  · intro k o hne hshort ho
    rw [hentries, get_drop_range]
    simp only [between_iff hk hshort ha hb ho]
    simp [hne]
  · intro bytes r hr
    rw [hentries, get_drop_range] at hr
    split at hr
    · cases hr
    · exact Or.inr hr

theorem dropWhile_eq_filter {entries : List LogEntry} (up_to : Nat)
    (h : entries.Pairwise (fun e e' => e.offset < e'.offset)) :
    entries.dropWhile (fun e => decide (e.offset ≤ up_to)) =
      entries.filter (fun e => !decide (e.offset ≤ up_to)) := by
  induction entries with
  | nil => simp
  | cons e entries ih =>
    obtain ⟨hhead, htail⟩ := List.pairwise_cons.mp h
    by_cases he : e.offset ≤ up_to
    · rw [List.dropWhile_cons_of_pos (by simpa using he), ih htail,
        List.filter_cons_of_neg (by simpa using he)]
    · rw [List.dropWhile_cons_of_neg (by simpa using he), List.filter_eq_self.mpr]
      intro e' he'
      rcases List.mem_cons.mp he' with rfl | he'
      · simpa using he
      · have hlt := hhead e' he'
        have hnot : ¬ e'.offset ≤ up_to := fun hle => he (Nat.le_trans (Nat.le_of_lt hlt) hle)
        simpa using hnot

theorem stateOf_truncate (m : InMemoryReplicatedLog) (key k : String) (up_to : Nat) :
    stateOf (m.truncate key up_to) k =
      if k = key then
        { stateOf m key with
          entries := (stateOf m key).entries.dropWhile (fun e => decide (e.offset ≤ up_to)) }
      else stateOf m k := by
  unfold InMemoryReplicatedLog.truncate
  rcases hs : m.logs[key]? with _ | s
  · by_cases hk : k = key
    · subst hk
      simp [stateOf, hs]
    · simp [hk]
  · dsimp only
    rw [stateOf_insert]
    simp [stateOf, hs]

theorem Mirrors.truncate (h : Mirrors m db) (hk : Short key) {up_to : Nat}
    (hup : up_to < U64_MAX) : Mirrors (m.truncate key up_to) (db.truncate key up_to) := by
  have hfits : up_to < 2 ^ 64 := by
    unfold U64_MAX at hup
    omega
  apply h.drop_between hk (a := 0) (by decide) hfits (stateOf_truncate m key · up_to)
  · intro k
    by_cases hne : k = key
    · rw [if_pos hne, hne]
      exact h.counter key
    · rw [if_neg hne]
      simp [Database.truncate, Database.drop_range]
  · simp [Database.truncate]
  · rw [dropWhile_eq_filter up_to (h.sorted key)]
    simp
  · simp
  · exact h.below key

theorem Mirrors.remove (h : Mirrors m db) (hk : Short key) :
    Mirrors (m.remove key) (db.remove key) := by
  have hstate : ∀ k, stateOf (m.remove key) k = if k = key then {} else stateOf m k := by
    intro k
    unfold stateOf InMemoryReplicatedLog.remove
    rw [BTreeMap.get_erase]
    by_cases hne : k = key
    · simp [hne]
    · simp [hne, Ne.symm hne]
  apply h.drop_between hk (a := min (0 + 1) U64_MAX) (b := U64_MAX) (by decide) (by decide) hstate
  · intro k
    unfold Database.remove
    dsimp only
    rw [BTreeMap.get_erase]
    by_cases hne : k = key
    · simp [hne]
    · simp [hne, Ne.symm hne, Database.drop_range]
  · simp [Database.remove, entry_bounds]
  · symm
    rw [List.filter_eq_nil_iff]
    intro e he
    obtain ⟨hpos, hle⟩ := h.numbered key e he
    have hlt := Nat.lt_of_le_of_lt hle (h.below key)
    have hlow : min (0 + 1) U64_MAX = 1 := by decide
    rw [hlow]
    simpa using ⟨Nat.ne_of_gt hpos, Nat.le_of_lt hlt⟩
  · intro hne
    exact absurd rfl hne
  · decide

end

end mqtt_storage.persistent_log
