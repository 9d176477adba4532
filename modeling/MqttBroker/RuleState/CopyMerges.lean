-- What a merge of a received state does to the key, to the other keys and to the counts, for
-- any copy: the join or nothing, but for the two judgements that the code makes by the hash
-- that it keeps of a state instead of by the state.
import MqttBroker.Rules.HybridClock
import MqttBroker.RuleState.CopyFades
import MqttBroker.RuleState.ReplicaOrder

namespace mqttd.rule_state.copy

open mqtt_rules
open mqttd.rule_state.local_store (Key SHARDS Refusal remembered)
open mqttd.rule_state.replica.Replica (expired forgettable)

namespace Copy

variable {c c' : Copy}

/-! ## One hold of a lock, in the copy -/

/-- The copy after one hold of a shard's lock that left `h`, `mutated` telling whether the
shard's count of changes was raised. -/
structure Becomes (c : Copy) (i : Fin SHARDS) (h : Hold) (mutated : Bool) (c' : Copy) : Prop where
  shards : c'.shards = Function.update c.shards i h.shard
  books : c'.books = h.books
  mutations : c'.mutations =
    if mutated then Function.update c.mutations i (c.mutations i + 1) else c.mutations
  digest : c'.digest = c.digest
  wall : c'.wall = c.wall
  reads : c.reads ≤ c'.reads
  clock : c.clock.last ≤ c'.clock.last

/-! ## What happens beside the shards -/

/-- The shards and what is counted of them stay as they are. The members, the settings and what
other namespaces have in the store may be others, and the clock may have been read. -/
structure Beside (c c' : Copy) : Prop where
  shards : c'.shards = c.shards
  mutations : c'.mutations = c.mutations
  digest : c'.digest = c.digest
  wall : c'.wall = c.wall
  reads : c.reads ≤ c'.reads
  clock : c.clock.last ≤ c'.clock.last
  keys : c'.books.keys = c.books.keys
  bytes : c'.books.bytes = c.books.bytes
  waiting : c'.books.waiting = c.books.waiting
  standing_by : c'.books.standing_by = c.books.standing_by
  store : c.books.bytes ≤ c.books.store → c.books.bytes ≤ c'.books.store

theorem Beside.of_books (hshards : c'.shards = c.shards) (hbooks : c'.books = c.books)
    (hmutations : c'.mutations = c.mutations) (hdigest : c'.digest = c.digest)
    (hwall : c'.wall = c.wall) (hreads : c.reads ≤ c'.reads)
    (hclock : c.clock.last ≤ c'.clock.last) : Beside c c' :=
  ⟨hshards, hmutations, hdigest, hwall, hreads, hclock, by rw [hbooks], by rw [hbooks],
    by rw [hbooks], by rw [hbooks], fun hle => by rw [hbooks]; exact hle⟩

/-! ## A merge, in the copy -/

/-- The time at which a merge judges, once the clock has taken note of what arrived. -/
def merge_now (c : Copy) (clock : Hlc) : UInt64 := clock.physical_ms c.wall_ms

/-- What a merge comes to under the lock. -/
def joined (cfg : Config) (c : Copy) (key : Key) (bytes : Bytes) (theirs : KeyState)
    (clock : Hlc) : Except Refused Bool × Hold :=
  (c.hold (cfg.shard_of key)).merge_state cfg (c.setting cfg) key theirs (entry_hash key bytes)
    (c.merge_now clock) (c.declared cfg) c.brownout

/-- A state is turned away before the lock, or merged under it. -/
theorem merge_cases (cfg : Config) (c : Copy) (key : Key) (bytes : Bytes) :
    ((∃ r, (c.merge cfg key bytes).1 = .error r) ∧ Beside c (c.merge cfg key bytes).2 ∧
        (c.merge cfg key bytes).2.books = c.books ∧
        ¬ ∃ theirs clock, (key ≠ [] ∧ key.length ≤ replica.MAX_KEY_BYTES) ∧
          KeyState.decode cfg.json bytes = .ok theirs ∧
          c.clock.observe theirs.latest c.wall_ms = .ok clock) ∨
      ∃ theirs clock, (key ≠ [] ∧ key.length ≤ replica.MAX_KEY_BYTES) ∧
        KeyState.decode cfg.json bytes = .ok theirs ∧
        c.clock.observe theirs.latest c.wall_ms = .ok clock ∧
        (c.merge cfg key bytes).1 = (c.joined cfg key bytes theirs clock).1 ∧
        (c.merge cfg key bytes).2.clock = clock ∧ (c.merge cfg key bytes).2.reads = c.reads + 1 ∧
        Becomes c (cfg.shard_of key) (c.joined cfg key bytes theirs clock).2
          (decide ((c.joined cfg key bytes theirs clock).1 = .ok true)) (c.merge cfg key bytes).2 := by
  unfold Copy.merge merge_inner
  by_cases hkey : key.isEmpty = true ∨ replica.MAX_KEY_BYTES < key.length
  · rw [if_pos hkey]
    refine .inl ⟨⟨_, rfl⟩, .of_books rfl rfl rfl rfl rfl (le_refl _) (UInt64.le_refl _), rfl, ?_⟩
    rintro ⟨theirs, clock, ⟨hne, hle⟩, -⟩
    obtain hempty | hlong := hkey
    · exact hne (by simpa using hempty)
    · omega
  rw [if_neg hkey]
  rcases hd : KeyState.decode cfg.json bytes with er | theirs
  · refine .inl ⟨⟨_, rfl⟩, .of_books rfl rfl rfl rfl rfl (le_refl _) (UInt64.le_refl _), rfl, ?_⟩
    rintro ⟨theirs, clock, -, ⟨⟩, -⟩
  have hvalid : key ≠ [] ∧ key.length ≤ replica.MAX_KEY_BYTES := by
    rw [not_or] at hkey
    exact ⟨by simpa using hkey.1, by omega⟩
  rcases ho : c.clock.observe theirs.latest c.wall_ms with er | clock
  · dsimp only
    rw [ho]
    refine .inl ⟨⟨_, rfl⟩, .of_books rfl rfl rfl rfl rfl (Nat.le_succ _) (UInt64.le_refl _), rfl, ?_⟩
    rintro ⟨theirs', clock, -, heq, hobserve⟩
    rw [← Except.ok.inj heq, ho] at hobserve
    cases hobserve
  right
  have hclock : c.clock.last ≤ clock.last := by
    rw [observe_ok ho]
    exact self_le_larger
  refine ⟨theirs, clock, hvalid, rfl, ho, ?_⟩
  dsimp only
  rw [ho]
  have hfold : (c.hold (cfg.shard_of key)).merge_state cfg (c.setting cfg) key theirs
      (entry_hash key bytes) (clock.physical_ms c.wall_ms) (c.declared cfg) c.brownout =
      c.joined cfg key bytes theirs clock := rfl
  dsimp only
  rw [hfold]
  rcases c.joined cfg key bytes theirs clock with ⟨r | merged, h⟩
  · exact ⟨rfl, rfl, rfl, rfl, rfl, rfl, rfl, rfl, Nat.le_succ _, hclock⟩
  · cases merged with
    | false => exact ⟨rfl, rfl, rfl, rfl, rfl, rfl, rfl, rfl, Nat.le_succ _, hclock⟩
    | true => exact ⟨rfl, rfl, rfl, rfl, rfl, rfl, rfl, rfl, Nat.le_succ _, hclock⟩

/-- A node on its own, all of whose keys are in one shard and are kept a second as tombstones. -/
def lone : Config where
  json := constants
  est := ⟨fun _ => 0⟩
  id := "a"
  counts_as := "a"
  name := "n"
  shard_of := fun _ => ⟨0, local_store.shards_pos⟩
  window_ms := 1000
  max_store := 100000

def blank (wall : Nat → UInt64) : Copy where
  max_keys := 10
  max_bytes := 10000
  expiry_events := true
  clock := ⟨0, 1⟩
  wall := wall

/-- What another node's `kv_set` of null sends, at the stamp and with the expiry. -/
def sent (time expires_ms : UInt64) : Bytes :=
  KeyState.encoded constants ⟨Stamp.ZERO, some (.Lww ⟨time, 2⟩ .Null), expires_ms⟩

end Copy

/-! ## Counts within their bounds -/

/-- No count is raised past its bound. -/
structure Books.Within (bounds : Bounds) (b b' : Books) : Prop where
  keys : b'.keys ≤ max b.keys bounds.max_keys
  bytes : b'.bytes ≤ max b.bytes bounds.max_bytes
  store : b'.store ≤ max b.store bounds.max_store

namespace Books

variable {bounds : Bounds} {b b' b'' : Books} {x y : Nat}

theorem Within.refl (bounds : Bounds) (b : Books) : Within bounds b b :=
  ⟨le_max_left _ _, le_max_left _ _, le_max_left _ _⟩

theorem Within.trans (h : Within bounds b b') (h' : Within bounds b' b'') : Within bounds b b'' :=
  ⟨h'.keys.trans (max_le h.keys (le_max_right _ _)),
    h'.bytes.trans (max_le h.bytes (le_max_right _ _)),
    h'.store.trans (max_le h.store (le_max_right _ _))⟩

theorem Within.of_le (hk : b'.keys ≤ b.keys) (hb : b'.bytes ≤ b.bytes) (hs : b'.store ≤ b.store) :
    Within bounds b b' :=
  ⟨hk.trans (le_max_left _ _), hb.trans (le_max_left _ _), hs.trans (le_max_left _ _)⟩

theorem within_reserve (h : b.reserve_within bounds x = .ok b') : Within bounds b b' := by
  unfold reserve_within at h
  repeat' split at h
  all_goals cases h
  constructor <;> simp only <;> omega

theorem within_grow (h : b.grow_within bounds x = .ok b') : Within bounds b b' := by
  unfold grow_within at h
  repeat' split at h
  all_goals cases h
  constructor <;> simp only <;> omega

theorem within_release : Within bounds b (b.release x) :=
  .of_le (Nat.sub_le _ _) (Nat.sub_le _ _) (Nat.sub_le _ _)

/-- A key that does not grow frees room. -/
theorem within_resize (h : ¬ x < y) : Within bounds b (b.resize x y) := by
  unfold Books.resize
  rw [if_neg h]
  split
  · exact .refl _ _
  · exact .of_le (le_refl _) (Nat.sub_le _ _) (Nat.sub_le _ _)

theorem within_waiting (owner : Nat) : Within bounds b (b.count_waiting owner) :=
  .of_le (le_refl _) (le_refl _) (le_refl _)

theorem within_expired : Within bounds b b.count_expired :=
  .of_le (le_refl _) (le_refl _) (le_refl _)

end Books

namespace Hold

open Shard

variable {h h' : Hold} {key k : Key} {e : Entry} {now : UInt64} {set : Setting} {bounds : Bounds}
  {cfg : Config}

theorem within_remove : Books.Within bounds h.books (h.remove key).books := by
  unfold Hold.remove
  split
  · exact .refl _ _
  · exact Books.within_release

theorem within_visit_key : Books.Within bounds h.books (h.visit_key set key e now).2.books := by
  unfold Hold.visit_key
  dsimp only
  generalize (expired e.state now && decide (e.evented ≠ e.state.expires_ms)) = owed
  generalize (if owed = true then { e with evented := e.state.expires_ms } else e) = e1
  split
  · split
    · split <;> exact Books.within_waiting _
    · exact Books.within_waiting _
  · generalize hh : (if owed = true then (⟨h.shard.put key e1, h.books.count_expired⟩ : Hold)
        else ⟨h.shard.put key e1, h.books⟩) = h1
    have hbooks : Books.Within bounds h.books h1.books := by
      rw [← hh]
      split
      · exact Books.within_expired
      · exact .refl _ _
    split
    · split
      · split
        · exact hbooks
        · split
          · exact hbooks
          · exact hbooks.trans Books.within_release
      · exact hbooks.trans within_remove
    · exact hbooks

theorem within_visit_loop (n : Nat) (visited : Visited) :
    Books.Within bounds h.books (Hold.visit_loop set now n visited h).2.books := by
  induction n generalizing visited h with
  | zero => exact .refl _ _
  | succ n ih =>
    unfold Hold.visit_loop
    split
    · exact .refl _ _
    · rename_i first more hlist
      dsimp only
      have hnext : ∀ visited, Books.Within bounds h.books (Hold.visit_loop set now n visited
          ⟨{ h.shard with due := h.shard.due.erase first }, h.books⟩).2.books := fun visited =>
        ih (h := ⟨{ h.shard with due := h.shard.due.erase first }, h.books⟩) visited
      split
      · split
        · exact hnext _
        · split
          · exact hnext _
          · rename_i e he hdue
            have hkey := @within_visit_key
              ⟨{ h.shard with due := h.shard.due.erase first }, h.books⟩ (ofLex first).2
              { e with due := 0 } now set bounds
            exact hkey.trans (ih _)
      · exact .refl _ _

theorem within_purge : Books.Within bounds h.books (h.purge set now).2.books :=
  @within_visit_loop h _ set _ local_store.PURGE_BATCH {}

theorem within_make_room (bytes : Nat) :
    Books.Within bounds h.books (h.make_room set now bounds bytes).2.books := by
  unfold Hold.make_room
  split
  · rename_i books hr
    exact Books.within_reserve hr
  · have hp : Books.Within bounds h.books (h.purge set now).2.books := within_purge
    rcases hpurge : h.purge set now with ⟨any, h1⟩
    rw [hpurge] at hp
    cases any with
    | false => exact hp
    | true =>
      dsimp only
      split
      · rename_i books hr
        exact hp.trans (Books.within_reserve hr)
      · exact hp

theorem within_displace (hd : h.displace set key now bounds = .ok h') :
    Books.Within bounds h.books h'.books := by
  unfold Hold.displace at hd
  split at hd
  · cases hd
    exact .refl _ _
  dsimp only at hd
  split at hd
  · cases hd
    exact .refl _ _
  split at hd
  · split at hd
    · cases hd
    · rename_i books hr
      have hres := Books.within_reserve hr
      split at hd
      · cases hd
        exact hres
      · cases hd
        exact hres.trans Books.within_release
  split at hd
  · cases hd
    exact .refl _ _
  split at hd
  · cases hd
    exact Books.within_expired
  · split at hd
    · cases hd
    · rename_i books hr
      cases hd
      exact (Books.within_reserve hr).trans (Books.within_waiting _)

/-! ## The states that a displacement leaves -/

/-- An entry, but for how far its expiry is dealt with. -/
def bare (e : Entry) : Entry := { e with evented := 0, waiting := 0 }

/-- What a shard has of a key, but for how far its expiry is dealt with. -/
def holding (s : Shard) (k : Key) : Option Entry := s.map[k]?.map bare

theorem holding_put {s : Shard} {e' : Entry} (he : s.map[key]? = some e) (hb : bare e' = bare e) :
    holding (s.put key e') = holding s := by
  funext k
  unfold holding
  rw [get_put]
  split
  · rename_i hk
    rw [← hk, he, Option.map_some, Option.map_some, hb]
  · rfl

theorem holding_of_map {s s' : Shard} (h : s'.map = s.map) : holding s' = holding s := by
  unfold holding
  rw [h]

theorem holding_displace (hd : h.displace set key now bounds = .ok h') :
    holding h'.shard = holding h.shard := by
  unfold Hold.displace at hd
  rcases he : h.shard.map[key]? with _ | e
  · rw [he] at hd
    cases hd
    rfl
  rw [he] at hd
  dsimp only at hd
  split at hd
  · cases hd
    rfl
  split at hd
  · have hput : holding (h.shard.put key { e with waiting := 0 }) = holding h.shard :=
      holding_put he rfl
    split at hd
    · cases hd
    · split at hd
      · rename_i s' hset
        cases hd
        obtain ⟨v, hbod⟩ := set_body_some hset
        exact (holding_of_map hbod.map).trans hput
      · cases hd
        exact hput
  split at hd
  · cases hd
    rfl
  have hput : holding (h.shard.put key { e with evented := e.state.expires_ms }) = holding h.shard :=
    holding_put he rfl
  split at hd
  · cases hd
    exact hput
  · split at hd
    · cases hd
    · cases hd
      exact (holding_of_map map_wait).trans hput

/-! ## The merge under the lock -/

/-- The room that a key is accounted once it holds the state. -/
def room_of (cfg : Config) (key : Key) (s : KeyState) : Nat :=
  BASE + key.length + (s.data.map (weigh cfg.json)).getD 0

/-- A key of `e` that comes to hold the state has the room that it then takes. -/
def Fits (cfg : Config) (bounds : Bounds) (b : Books) (key : Key) (e : Entry) (s : KeyState) : Prop :=
  e.bytes < room_of cfg key s →
    b.bytes + (room_of cfg key s - e.bytes) ≤ bounds.max_bytes ∧
      b.store + (room_of cfg key s - e.bytes) ≤ bounds.max_store

theorem merge_state_new {theirs : KeyState} {their_hash : UInt64} {brownout : Bool}
    (hk : h.shard.map[key]? = none) :
    (forgettable theirs now set.window_ms = true ∧
        h.merge_state cfg set key theirs their_hash now bounds brownout = (.ok false, h)) ∨
      (forgettable theirs now set.window_ms = false ∧
        ((∃ r h1, h.merge_state cfg set key theirs their_hash now bounds brownout = (.error r, h1) ∧
          Fades set.window_ms now h.shard h1.shard ∧ Books.Within bounds h.books h1.books) ∨
        ∃ h1, h.merge_state cfg set key theirs their_hash now bounds brownout = (.ok true, h1) ∧
          h1.shard.map[key]?.map (·.state) = some theirs ∧ Books.Within bounds h.books h1.books)) := by
  unfold Hold.merge_state
  rw [hk]
  dsimp only
  cases hf : forgettable theirs now set.window_ms with
  | true => exact .inl ⟨rfl, rfl⟩
  | false =>
    refine .inr ⟨rfl, ?_⟩
    rw [if_neg (by simp)]
    cases brownout with
    | true => exact .inl ⟨_, _, rfl, .refl _ _ _, .refl _ _⟩
    | false =>
      rw [if_neg (by simp)]
      have hfades := @fades_make_room h now set bounds
        (BASE + key.length + (theirs.data.map (weigh cfg.json)).getD 0)
      have hwithin := @within_make_room h now set bounds
        (BASE + key.length + (theirs.data.map (weigh cfg.json)).getD 0)
      rcases hm : h.make_room set now bounds
          (BASE + key.length + (theirs.data.map (weigh cfg.json)).getD 0) with ⟨r | ⟨⟩, h1⟩
      · rw [hm] at hfades hwithin
        exact .inl ⟨_, _, rfl, hfades, hwithin⟩
      · rw [hm] at hwithin
        refine .inr ⟨_, rfl, ?_, hwithin⟩
        dsimp only
        rw [map_set_due, BTreeMap.get_insert, if_pos rfl]
        rfl

/-- A state for a key that is held, when the hash kept of the key's state is not that of the
bytes: the key holds the join, or the merge is refused and every key holds what it held. -/
theorem merge_state_held {theirs : KeyState} {their_hash : UInt64} {brownout : Bool}
    (hk : h.shard.map[key]? = some e) (hhash : e.hash ≠ their_hash) :
    (∃ r h1, h.merge_state cfg set key theirs their_hash now bounds brownout = (.error r, h1) ∧
        holding h1.shard = holding h.shard ∧ Books.Within bounds h.books h1.books ∧
        (e.state.merge cfg.json theirs = e.state → ¬ Fits cfg bounds h.books key e e.state)) ∨
      ∃ h1, h.merge_state cfg set key theirs their_hash now bounds brownout = (.ok true, h1) ∧
        h1.shard.map[key]?.map (·.state) = some (e.state.merge cfg.json theirs) ∧
        Books.Within bounds h.books h1.books ∧
        (e.state.merge cfg.json theirs = e.state → Fits cfg bounds h.books key e e.state) := by
  unfold Hold.merge_state
  rw [hk]
  dsimp only
  rw [if_neg hhash]
  generalize e.state.merge cfg.json theirs = m
  have hroom : BASE + key.length + (m.data.map (weigh cfg.json)).getD 0 = room_of cfg key m := rfl
  rw [hroom]
  by_cases hdisp : expired e.state now = true ∧
      (m.data.isNone = true ∨ m.expires_ms ≠ e.state.expires_ms)
  · -- What has expired gives way to another state, so the join is not what was held.
    have hne : m ≠ e.state := by
      rintro rfl
      obtain ⟨hover, hnone | hne⟩ := hdisp
      · simp only [expired, Bool.and_eq_true] at hover
        simp_all
      · exact hne rfl
    rw [if_pos hdisp]
    rcases hd : h.displace set key now bounds with r | h1
    · exact .inl ⟨_, _, rfl, rfl, .refl _ _, fun heq => absurd heq hne⟩
    · have hsame := holding_displace hd
      have hwithin := within_displace hd
      have hget := congrFun hsame key
      dsimp only
      unfold holding at hget
      rw [hk, Option.map_some, Option.map_eq_some_iff] at hget
      obtain ⟨e1, he1, -⟩ := hget
      rw [he1]
      dsimp only
      by_cases hlt : e1.bytes < room_of cfg key m
      · rw [if_pos hlt]
        rcases hg : h1.books.grow_within bounds (room_of cfg key m - e1.bytes) with r | books
        · exact .inl ⟨_, _, rfl, hsame, hwithin, fun heq => absurd heq hne⟩
        · refine .inr ⟨_, rfl, ?_, hwithin.trans (Books.within_grow hg), fun heq => absurd heq hne⟩
          dsimp only
          rw [map_set_due, BTreeMap.get_insert, if_pos rfl]
          rfl
      · rw [if_neg hlt]
        refine .inr ⟨_, rfl, ?_, hwithin.trans (Books.within_resize hlt), fun heq => absurd heq hne⟩
        dsimp only
        rw [map_set_due, BTreeMap.get_insert, if_pos rfl]
        rfl
  · rw [if_neg hdisp]
    dsimp only
    rw [hk]
    dsimp only
    by_cases hlt : e.bytes < room_of cfg key m
    · rw [if_pos hlt]
      rcases hg : h.books.grow_within bounds (room_of cfg key m - e.bytes) with r | books
      · refine .inl ⟨_, _, rfl, rfl, .refl _ _, ?_⟩
        rintro rfl hfits
        have hfit := hfits hlt
        unfold Books.grow_within at hg
        rw [if_neg (not_not_intro hfit.1), if_neg (not_not_intro hfit.2)] at hg
        cases hg
      · refine .inr ⟨_, rfl, ?_, Books.within_grow hg, ?_⟩
        · dsimp only
          rw [map_set_due, BTreeMap.get_insert, if_pos rfl]
          rfl
        · rintro rfl -
          unfold Books.grow_within at hg
          repeat' split at hg
          all_goals cases hg
          rename_i h1 h2
          exact ⟨not_not.mp h1, not_not.mp h2⟩
    · rw [if_neg hlt]
      refine .inr ⟨_, rfl, ?_, Books.within_resize hlt, ?_⟩
      · dsimp only
        rw [map_set_due, BTreeMap.get_insert, if_pos rfl]
        rfl
      · rintro rfl hlt'
        exact absurd hlt' hlt

end Hold

/-! ## The merge, in the copy -/

namespace Copy

open Hold (Fits)

variable {cfg : Config} {c c' : Copy} {i : Fin SHARDS} {h : Hold} {m : Bool} {key k : Key}
  {bytes : Bytes}

def state_of (cfg : Config) (c : Copy) (k : Key) : Option KeyState := (c.get cfg k).map (·.state)

theorem Becomes.get (hb : Becomes c i h m c') (k : Key) :
    c'.get cfg k = if cfg.shard_of k = i then h.shard.map[k]? else c.get cfg k := by
  unfold Copy.get
  rw [hb.shards]
  split
  · rename_i hk
    rw [hk, Function.update_self]
  · rename_i hk
    rw [Function.update_of_ne hk]

/-- What a key is to hold after a state arrived: the join, but that a state which could be
forgotten at once is not taken up by a key that is not held. -/
def to_hold (cfg : Config) (now : UInt64) (held : Option KeyState) (theirs : KeyState) :
    Option KeyState :=
  match held with
  | some s => some (s.merge cfg.json theirs)
  | none => if forgettable theirs now cfg.window_ms then none else some theirs

/-- The merge is the join or nothing: it tells whether the key's state changed, the key then
holds the join, a refusal changes no state that could not be forgotten, and no count is raised
past its bound. -/
structure JoinOrNothing (cfg : Config) (c : Copy) (key : Key) (bytes : Bytes) : Prop where
  told : (c.merge cfg key bytes).1 = .ok true ↔
    (c.merge cfg key bytes).2.state_of cfg key ≠ c.state_of cfg key
  joined : ∀ b, (c.merge cfg key bytes).1 = .ok b → ∃ theirs,
    KeyState.decode cfg.json bytes = .ok theirs ∧ (c.merge cfg key bytes).2.state_of cfg key =
      to_hold cfg ((c.merge cfg key bytes).2.clock.physical_ms c.wall_ms) (c.state_of cfg key) theirs
  refused : ∀ r, (c.merge cfg key bytes).1 = .error r → ∀ k,
    (c.merge cfg key bytes).2.state_of cfg k = c.state_of cfg k ∨
      (c.merge cfg key bytes).2.state_of cfg k = none ∧ ∃ s, c.state_of cfg k = some s ∧
        forgettable s ((c.merge cfg key bytes).2.clock.physical_ms c.wall_ms) cfg.window_ms = true
  counts : Books.Within (c.declared cfg) c.books (c.merge cfg key bytes).2.books

/-- The hash kept of a held key's state misleads the merge: it is that of the bytes, though the
join is another state; or it is not, the join is what was held, and there is room for it. -/
def Misleads (cfg : Config) (c : Copy) (key : Key) (bytes : Bytes) : Prop :=
  ∃ theirs clock e, (key ≠ [] ∧ key.length ≤ replica.MAX_KEY_BYTES) ∧
    KeyState.decode cfg.json bytes = .ok theirs ∧
    c.clock.observe theirs.latest c.wall_ms = .ok clock ∧ c.get cfg key = some e ∧
    (e.hash = entry_hash key bytes ∧ e.state.merge cfg.json theirs ≠ e.state ∨
      e.hash ≠ entry_hash key bytes ∧ e.state.merge cfg.json theirs = e.state ∧
        Fits cfg (c.declared cfg) c.books key e e.state)

theorem join_or_nothing_of_error {r : Refused} (hr : (c.merge cfg key bytes).1 = .error r)
    (hkey : (c.merge cfg key bytes).2.state_of cfg key = c.state_of cfg key)
    (hstates : ∀ k, (c.merge cfg key bytes).2.state_of cfg k = c.state_of cfg k ∨
      (c.merge cfg key bytes).2.state_of cfg k = none ∧ ∃ s, c.state_of cfg k = some s ∧
        forgettable s ((c.merge cfg key bytes).2.clock.physical_ms c.wall_ms) cfg.window_ms = true)
    (hcounts : Books.Within (c.declared cfg) c.books (c.merge cfg key bytes).2.books) :
    JoinOrNothing cfg c key bytes := by
  refine ⟨⟨fun h => ?_, fun h => absurd hkey h⟩, fun b h => ?_, fun _ _ => hstates, hcounts⟩
  · rw [hr] at h
    cases h
  · rw [hr] at h
    cases h

theorem join_or_nothing_of_ok {b : Bool} {theirs : KeyState}
    (hr : (c.merge cfg key bytes).1 = .ok b) (hdecode : KeyState.decode cfg.json bytes = .ok theirs)
    (hcounts : Books.Within (c.declared cfg) c.books (c.merge cfg key bytes).2.books) :
    JoinOrNothing cfg c key bytes ↔
      (b = true ↔ (c.merge cfg key bytes).2.state_of cfg key ≠ c.state_of cfg key) ∧
        (c.merge cfg key bytes).2.state_of cfg key = to_hold cfg
          ((c.merge cfg key bytes).2.clock.physical_ms c.wall_ms) (c.state_of cfg key) theirs := by
  constructor
  · rintro ⟨htold, hjoined, -, -⟩
    obtain ⟨theirs', hd, hstate⟩ := hjoined b hr
    obtain rfl := Except.ok.inj (hd.symm.trans hdecode)
    refine ⟨?_, hstate⟩
    rw [← htold, hr, Except.ok.injEq]
  · rintro ⟨htold, hstate⟩
    refine ⟨?_, fun _ _ => ⟨theirs, hdecode, hstate⟩, fun r h => ?_, hcounts⟩
    · rw [hr, Except.ok.injEq]
      exact htold
    · rw [hr] at h
      cases h

/-- What one hold of the lock leaves of the states. -/
theorem Becomes.state_of (hb : Becomes c (cfg.shard_of key) h m c') (k : Key) :
    c'.state_of cfg k = if cfg.shard_of k = cfg.shard_of key then h.shard.map[k]?.map (·.state)
      else c.state_of cfg k := by
  unfold Copy.state_of
  rw [hb.get]
  split <;> rfl

section locked

variable {theirs : KeyState} {clock : Hlc}

theorem Becomes.lost (hb : Becomes c (cfg.shard_of key) h m c') {now : UInt64}
    (hfades : Hold.Fades cfg.window_ms now (c.shards (cfg.shard_of key)) h.shard) (k : Key) :
    c'.state_of cfg k = c.state_of cfg k ∨ c'.state_of cfg k = none ∧
      ∃ s, c.state_of cfg k = some s ∧ forgettable s now cfg.window_ms = true := by
  rw [hb.state_of]
  split
  · rename_i hi
    unfold Copy.state_of Copy.get
    rw [hi]
    rcases hk : (c.shards (cfg.shard_of key)).map[k]? with _ | e
    · rw [hfades.absent k hk]
      exact .inl rfl
    · obtain ⟨hgone, hf⟩ | ⟨e', he', hstate, -⟩ := hfades.held k e hk
      · rw [hgone]
        exact .inr ⟨rfl, e.state, rfl, hf⟩
      · rw [he', Option.map_some, Option.map_some, hstate]
        exact .inl rfl
  · exact .inl rfl

variable (hdecode : KeyState.decode cfg.json bytes = .ok theirs)
  (hfst : (c.merge cfg key bytes).1 = (c.joined cfg key bytes theirs clock).1)
  (hb : Becomes c (cfg.shard_of key) (c.joined cfg key bytes theirs clock).2
    (decide ((c.joined cfg key bytes theirs clock).1 = .ok true)) (c.merge cfg key bytes).2)
include hdecode hfst hb

theorem join_or_nothing_new (hk : c.get cfg key = none)
    (hnow : (c.merge cfg key bytes).2.clock.physical_ms c.wall_ms = c.merge_now clock) :
    JoinOrNothing cfg c key bytes := by
  have hkey := hb.state_of key
  rw [if_pos rfl] at hkey
  have hwas : c.state_of cfg key = none := by
    unfold Copy.state_of
    rw [hk]
    rfl
  obtain ⟨hforget, heq⟩ | ⟨hforget, ⟨r, h1, heq, hfades, hwithin⟩ | ⟨h1, heq, hheld, hwithin⟩⟩ :=
    @Hold.merge_state_new (c.hold (cfg.shard_of key)) _ (c.merge_now clock) (c.setting cfg)
      (c.declared cfg) cfg theirs (entry_hash key bytes) c.brownout hk
  all_goals
    change c.joined cfg key bytes theirs clock = _ at heq
    rw [heq] at hfst hkey hb
  · refine (join_or_nothing_of_ok hfst hdecode ?_).mpr ⟨?_, ?_⟩
    · rw [hb.books]
      exact .refl _ _
    · rw [hkey]
      exact ⟨nofun, fun hne => absurd rfl hne⟩
    · rw [hkey, hwas, hnow]
      dsimp only [to_hold]
      rw [show forgettable theirs (c.merge_now clock) cfg.window_ms = true from hforget, if_pos rfl]
      exact hwas
  · refine join_or_nothing_of_error hfst ?_ (fun k => ?_) ?_
    · rw [hkey, hwas, hfades.absent key hk]
      rfl
    · rw [hnow]
      exact hb.lost hfades k
    · rw [hb.books]
      exact hwithin
  · refine (join_or_nothing_of_ok hfst hdecode ?_).mpr ⟨?_, ?_⟩
    · rw [hb.books]
      exact hwithin
    · rw [hkey, hheld, hwas]
      exact ⟨fun _ => nofun, fun _ => rfl⟩
    · rw [hkey, hheld, hwas, hnow]
      dsimp only [to_hold]
      rw [show forgettable theirs (c.merge_now clock) cfg.window_ms = false from hforget]
      rfl

/-- The hash is that of the bytes: nothing is done, which is right where the join is nothing
new. -/
theorem join_or_nothing_known {e : Entry} (hk : c.get cfg key = some e)
    (hhash : e.hash = entry_hash key bytes) :
    JoinOrNothing cfg c key bytes ↔ e.state.merge cfg.json theirs = e.state := by
  have hkey := hb.state_of key
  rw [if_pos rfl] at hkey
  have hget : (c.hold (cfg.shard_of key)).shard.map[key]? = some e := hk
  have hwas : c.state_of cfg key = some e.state := by
    unfold Copy.state_of
    rw [hk]
    rfl
  have heq : c.joined cfg key bytes theirs clock = (.ok false, c.hold (cfg.shard_of key)) := by
    unfold joined Hold.merge_state
    rw [hget]
    dsimp only
    rw [if_pos hhash]
  rw [heq] at hfst hkey hb
  have hstays : (c.merge cfg key bytes).2.state_of cfg key = some e.state := hkey.trans hwas
  rw [join_or_nothing_of_ok hfst hdecode (by rw [hb.books]; exact .refl _ _), hstays, hwas]
  dsimp only [to_hold]
  rw [Option.some.injEq]
  constructor
  · exact fun h => h.2.symm
  · exact fun h => ⟨⟨nofun, fun hne => absurd rfl hne⟩, h.symm⟩

theorem join_or_nothing_unknown {e : Entry} (hk : c.get cfg key = some e)
    (hhash : e.hash ≠ entry_hash key bytes) :
    JoinOrNothing cfg c key bytes ↔ ¬ (e.state.merge cfg.json theirs = e.state ∧
      Fits cfg (c.declared cfg) c.books key e e.state) := by
  have hkey := hb.state_of key
  rw [if_pos rfl] at hkey
  have hwas : c.state_of cfg key = some e.state := by
    unfold Copy.state_of
    rw [hk]
    rfl
  obtain ⟨r, h1, heq, hsame, hwithin, hfull⟩ | ⟨h1, heq, hheld, hwithin, hfits⟩ :=
    @Hold.merge_state_held (c.hold (cfg.shard_of key)) _ _ (c.merge_now clock) (c.setting cfg)
      (c.declared cfg) cfg theirs _ c.brownout hk hhash
  all_goals
    change c.joined cfg key bytes theirs clock = _ at heq
    rw [heq] at hfst hkey hb
  · refine iff_of_true ?_ (fun h => hfull h.1 h.2)
    have hstates : ∀ k, (c.merge cfg key bytes).2.state_of cfg k = c.state_of cfg k := by
      intro k
      rw [hb.state_of]
      split
      · rename_i hi
        have hget := congrFun hsame k
        unfold Hold.holding at hget
        unfold Copy.state_of Copy.get
        rw [hi]
        have hstate := congrArg (Option.map Entry.state) hget
        rw [Option.map_map, Option.map_map] at hstate
        exact hstate
      · rfl
    refine join_or_nothing_of_error hfst (hstates key) (fun k => .inl (hstates k)) ?_
    rw [hb.books]
    exact hwithin
  · rw [join_or_nothing_of_ok hfst hdecode (by rw [hb.books]; exact hwithin), hkey, hheld, hwas]
    dsimp only [to_hold]
    rw [ne_eq, Option.some.injEq]
    constructor
    · exact fun h hno => h.1.mp rfl hno.1
    · exact fun h => ⟨⟨fun _ hsame => h ⟨hsame, hfits hsame⟩, fun _ => rfl⟩, rfl⟩

end locked

/-- A merge is the join or nothing unless the hash that is kept of the key's state misleads
it. -/
theorem merge_is_the_join_or_nothing_iff (cfg : Config) (c : Copy) (key : Key) (bytes : Bytes) :
    JoinOrNothing cfg c key bytes ↔ ¬ Misleads cfg c key bytes := by
  obtain ⟨⟨r, hr⟩, hb, hbooks, hnot⟩ | ⟨theirs, clock, hvalid, hdecode, hobserve, hfst, hclock, -, hb⟩ :=
    merge_cases cfg c key bytes
  · -- Turned away before the lock.
    have hsame : ∀ k, (c.merge cfg key bytes).2.state_of cfg k = c.state_of cfg k := by
      intro k
      unfold state_of Copy.get
      rw [hb.shards]
    refine iff_of_true (join_or_nothing_of_error hr (hsame key) (fun k => .inl (hsame k)) ?_) ?_
    · rw [hbooks]
      exact .refl _ _
    · rintro ⟨theirs, clock, e, hvalid, hdecode, hobserve, -⟩
      exact hnot ⟨theirs, clock, hvalid, hdecode, hobserve⟩
  have hnow : (c.merge cfg key bytes).2.clock.physical_ms c.wall_ms = c.merge_now clock := by
    rw [hclock]
    rfl
  rcases hk : c.get cfg key with _ | e
  · refine iff_of_true (join_or_nothing_new hdecode hfst hb hk hnow) ?_
    rintro ⟨theirs', clock', e, -, -, -, he, -⟩
    rw [hk] at he
    cases he
  · have hmis : Misleads cfg c key bytes ↔
        (e.hash = entry_hash key bytes ∧ e.state.merge cfg.json theirs ≠ e.state ∨
          e.hash ≠ entry_hash key bytes ∧ e.state.merge cfg.json theirs = e.state ∧
            Fits cfg (c.declared cfg) c.books key e e.state) := by
      constructor
      · rintro ⟨theirs', clock', e', -, hd, -, he', hor⟩
        obtain rfl := Except.ok.inj (hd.symm.trans hdecode)
        obtain rfl := Option.some.inj (he'.symm.trans hk)
        exact hor
      · exact fun hor => ⟨theirs, clock, e, hvalid, hdecode, hobserve, hk, hor⟩
    rw [hmis]
    by_cases hhash : e.hash = entry_hash key bytes
    · rw [join_or_nothing_known hdecode hfst hb hk hhash]
      simp [hhash]
    · rw [join_or_nothing_unknown hdecode hfst hb hk hhash]
      simp [hhash]

/-- Whether a key holds the null that another node's `kv_set` sent, without an expiry. -/
def holds_null (time : UInt64) : Option KeyState → Bool
  | some ⟨deleted, some (.Lww stamp .Null), expires_ms⟩ =>
    decide (deleted = Stamp.ZERO) && decide (stamp = ⟨time, 2⟩) && decide (expires_ms = 0)
  | _ => false

theorem eq_of_holds_null {time : UInt64} {s : Option KeyState} (h : holds_null time s = true) :
    s = some ⟨Stamp.ZERO, some (.Lww ⟨time, 2⟩ .Null), 0⟩ := by
  unfold holds_null at h
  split at h
  · simp only [Bool.and_eq_true, decide_eq_true_eq] at h
    rw [h.1.1, h.1.2, h.2]
  · cases h

/-- A copy that merged an older write of another node and then a newer one, so that the hash of
what it holds is yet to be worked out. -/
def heard_twice : Copy :=
  (((blank fun _ => 5000).merge lone [107] (sent 262144000 0)).2.merge lone [107]
    (sent 327680000 0)).2

/-- The newer write arrives once more, and is told as a change of the state that it is. -/
theorem a_state_held_already_is_told_as_a_change :
    ¬ ∀ (cfg : Config) (c : Copy) (key : Key) (bytes : Bytes), JoinOrNothing cfg c key bytes := by
  intro h
  have htold := (h lone heard_twice [107] (sent 327680000 0)).told.mp (by decide +kernel)
  have hbefore : holds_null 327680000 (heard_twice.state_of lone [107]) = true := by decide +kernel
  have hafter : holds_null 327680000
      ((heard_twice.merge lone [107] (sent 327680000 0)).2.state_of lone [107]) = true := by
    decide +kernel
  exact htold ((eq_of_holds_null hafter).trans (eq_of_holds_null hbefore).symm)

end Copy

end mqttd.rule_state.copy
