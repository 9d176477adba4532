-- The moves of a local namespace: an entry is dropped, held for its event, written or begun.
-- Each move keeps the invariant, and says which entry of which key it changes. The calls are
-- sequences of moves.
import MqttBroker.RuleState.LocalSound

namespace mqttd.rule_state.local_store

open mqtt_rules BTreeMap

namespace View

variable {v v' : View} {i : Fin SHARDS} {e : Entry} {others : Nat} {M : Multiset Entry}

/-! ## What moves the entries -/

def get (v : View) (key : Key) : Option Entry := (v.shard (v.ns.shard_of key)).map[key]?

/-- The entry goes out of its shard's map, and its room is given back. -/
def dropped (v : View) (e : Entry) : View :=
  let i := v.ns.shard_of e.key
  (v.setShard i ((v.shard i).without e)).release e

/-- The entry goes out of its shard's map, and is held for its event. -/
def heldFor (v : View) (e : Entry) : View :=
  let i := v.ns.shard_of e.key
  v.setShard i (((v.shard i).without e).hold e)

/-- What a call leaves in a key that it found. -/
def wrote (v : View) (settings : NamespaceSettings) (e : Entry) (w : Wrote) (now_ms : Nat) :
    View :=
  v.write settings (v.ns.shard_of e.key) e w.data (ENTRY_OVERHEAD + e.key.length + w.bytes) w.ttl
    now_ms

/-- A new key, where its room is reserved. -/
def began (v : View) (settings : NamespaceSettings) (key : Key) (w : Wrote) (now_ms : Nat) :
    View :=
  { v with ns := { v.ns with lives := v.ns.lives + 1 } }.touch settings (v.ns.shard_of key)
    { key, data := w.data, expires_ms := 0, bytes := ENTRY_OVERHEAD + key.length + w.bytes
      used := 0, life := v.ns.lives } (w.ttl.or settings.default_ttl_secs) now_ms

/-- A step that takes no key out before its expiry: it changes nothing, or it takes out an
entry that has expired at a reading from `lo` on. -/
inductive Lapse (lo : Nat) : View → View → Prop
  | idle {v v' : View} (h : Idle v v') : Lapse lo v v'
  | drop {v : View} (t : Nat) (e : Entry) (h : v.get e.key = some e) (hlo : lo ≤ t)
      (hlast : t ≤ v.last) (hexp : e.expired t = true)
      (hwhy : v.sh.expiry_events = false ∨ remembered e.key = true) : Lapse lo v (v.dropped e)
  | hold {v : View} (t : Nat) (e : Entry) (h : v.get e.key = some e) (hlo : lo ≤ t)
      (hlast : t ≤ v.last) (hexp : e.expired t = true) : Lapse lo v (v.heldFor e)

/-- A call leaves in its key what its verdict says, at the reading `t`. -/
inductive Use (settings : NamespaceSettings) (key : Key) (t : Nat) : Option Wrote → View → View → Prop
  | absent {v : View} (h : v.get key = none) : Use settings key t none v v
  | drop {v : View} (e : Entry) (hkey : e.key = key) (h : v.get key = some e)
      (hexp : e.expired t = false) : Use settings key t none v (v.dropped e)
  | write {v : View} (e : Entry) (w : Wrote) (hkey : e.key = key) (h : v.get key = some e)
      (hexp : e.expired t = false) : Use settings key t (some w) v (v.wrote settings e w t)
  | new {v v' : View} (w : Wrote) (h : v.get key = none)
      (hroom : v.reserve settings (ENTRY_OVERHEAD + key.length + w.bytes) = .ok v') :
      Use settings key t (some w) v (v'.began settings key w t)

/-- Any step of a call, at a reading from `lo` on. -/
inductive Move (lo : Nat) : View → View → Prop
  | lapse {v v' : View} (h : Lapse lo v v') : Move lo v v'
  | use {v v' : View} {settings : NamespaceSettings} {key : Key} {left : Option Wrote} (t : Nat)
      (hlo : lo ≤ t) (hlast : t ≤ v.last) (h : Use settings key t left v v') : Move lo v v'
  /-- A key is evicted, or a remembered one is forgotten. -/
  | evict {v : View} (t : Nat) (e : Entry) (h : v.get e.key = some e) (hlo : lo ≤ t)
      (hwhy : v.sh.expiry_events = true → e.expired t = false ∨ remembered e.key = true) :
      Move lo v (v.dropped e)

variable {settings : NamespaceSettings} {key : Key} {w : Wrote} {t lo : Nat}

theorem get_setShard (v : View) (i : Fin SHARDS) (s : Shard) (k : Key) :
    (v.setShard i s).get k = if v.ns.shard_of k = i then s.map[k]? else v.get k := by
  unfold get
  by_cases hk : v.ns.shard_of k = i
  · subst hk
    rw [if_pos rfl]
    exact congrArg (fun s : Shard => s.map[k]?) (shard_setShard v _ s)
  · rw [if_neg hk]
    exact congrArg (fun s : Shard => s.map[k]?) (shard_setShard_ne v s hk)

theorem Idle.get (h : Idle v v') (k : Key) : v'.get k = v.get k := by
  unfold View.get
  rw [h.shard_of, h.shard]

theorem sound_setShard {shards : Fin SHARDS → Shard} {shard_of : Key → Fin SHARDS}
    {tick tick' : Nat} {s : Shard} (h : ∀ j, Shard.Sound shard_of j tick (shards j))
    (htick : tick ≤ tick') (hs : Shard.Sound shard_of i tick' s) (j : Fin SHARDS) :
    Shard.Sound shard_of j tick' (Function.update shards i s j) := by
  by_cases hj : j = i
  · subst hj
    rw [Function.update_self]
    exact hs
  · rw [Function.update_of_ne hj]
    exact (h j).mono htick

/-! ### A key that goes -/

theorem get_dropped (v : View) (e : Entry) (k : Key) :
    (v.dropped e).get k = if e.key = k then none else v.get k := by
  have heq : (v.dropped e).get k =
      (v.setShard (v.ns.shard_of e.key) ((v.shard (v.ns.shard_of e.key)).without e)).get k := rfl
  rw [heq, get_setShard]
  by_cases hi : v.ns.shard_of k = v.ns.shard_of e.key
  · rw [if_pos hi, Shard.get_without]
    unfold get
    rw [hi]
  · have hk : e.key ≠ k := fun hk => hi (hk ▸ rfl)
    rw [if_neg hi, if_neg hk]

theorem present_dropped (h : v.get e.key = some e) : v.present = e ::ₘ (v.dropped e).present := by
  have heq : (v.dropped e).present =
      (v.setShard (v.ns.shard_of e.key) ((v.shard (v.ns.shard_of e.key)).without e)).present :=
    present_congr rfl
  rw [heq, present_setShard, present_eq v (v.ns.shard_of e.key), Shard.bag_without h,
    Multiset.cons_add]

theorem onward_dropped (v : View) (e : Entry) : Onward v (v.dropped e) :=
  { Onward.refl v with }

theorem Accounted.release (h : Accounted others v (e ::ₘ M)) : Accounted others (v.release e) M := by
  have hkeys := h.keys
  have hbytes := h.bytes
  have htotal := h.total
  rw [Multiset.card_cons] at hkeys
  rw [Multiset.map_cons, Multiset.sum_cons] at hbytes
  refine ⟨?_, ?_, ?_⟩ <;> simp only [View.release] <;> omega

theorem lives_of_cons {n : Nat} (h : ∀ x ∈ e ::ₘ M, x.life < n) (hnodup : ((e ::ₘ M).map Entry.life).Nodup) :
    (∀ x ∈ M, x.life < n) ∧ (M.map Entry.life).Nodup ∧ e.life ∉ M.map Entry.life := by
  rw [Multiset.map_cons, Multiset.nodup_cons] at hnodup
  exact ⟨fun x hx => h x (Multiset.mem_cons_of_mem hx), hnodup.2, hnodup.1⟩

theorem sound_dropped (hs : Sound others v) (h : v.get e.key = some e) :
    Sound others (v.dropped e) := by
  have hs : Holds others v (e ::ₘ (v.dropped e).present) := present_dropped h ▸ hs
  obtain ⟨hlt, hnodup, -⟩ := lives_of_cons hs.lives_lt hs.lives_nodup
  refine ⟨fun j => ?_, ?_, hlt, hnodup⟩
  · exact sound_setShard hs.shards (le_refl _) ((hs.shards _).without h) j
  · have hset : Accounted others
        (v.setShard (v.ns.shard_of e.key) ((v.shard (v.ns.shard_of e.key)).without e))
        (e ::ₘ (v.dropped e).present) := ⟨hs.account.keys, hs.account.bytes, hs.account.total⟩
    exact hset.release

/-! ### A key that is held -/

theorem get_heldFor (v : View) (e : Entry) (k : Key) :
    (v.heldFor e).get k = if e.key = k then none else v.get k := by
  unfold heldFor
  rw [get_setShard]
  by_cases hi : v.ns.shard_of k = v.ns.shard_of e.key
  · rw [if_pos hi]
    refine (Shard.get_without (v.shard (v.ns.shard_of e.key)) e k).trans ?_
    unfold get
    rw [hi]
  · have hk : e.key ≠ k := fun hk => hi (hk ▸ rfl)
    rw [if_neg hi, if_neg hk]

theorem present_heldFor (hs : Holds others v M) (h : v.get e.key = some e) :
    (v.heldFor e).present = v.present := by
  unfold heldFor
  rw [present_setShard, Shard.bag_hold ((hs.shards _).without h),
    present_eq v (v.ns.shard_of e.key), Shard.bag_without h]

theorem onward_heldFor (v : View) (e : Entry) : Onward v (v.heldFor e) :=
  { Onward.refl v with }

theorem expires_of_expired (h : e.expired t = true) : e.expires_ms ≠ 0 ∧ e.expires_ms ≤ t := by
  simpa [Entry.expired] using h

theorem sound_heldFor (hs : Sound others v) (h : v.get e.key = some e)
    (hne : e.expires_ms ≠ 0) : Sound others (v.heldFor e) := by
  have hM := present_heldFor hs h
  unfold Sound at hs ⊢
  rw [hM]
  have hnodup := hs.lives_nodup
  refine ⟨fun j => ?_, ⟨hs.account.keys, hs.account.bytes, hs.account.total⟩, hs.lives_lt, hnodup⟩
  have hshard := hs.shards (v.ns.shard_of e.key)
  exact sound_setShard hs.shards (le_refl _) ((hshard.without h).hold hne (hshard.expires_le h)) j

/-! ### A key that is used -/

/-- What else the namespace holds. -/
def besides (v : View) (key : Key) : Multiset Entry :=
  let s := v.shard (v.ns.shard_of key)
  BTreeMap.bag (s.map.erase key) + BTreeMap.bag s.held + v.elsewhere (v.ns.shard_of key)

theorem present_of_get (h : v.get key = some e) : v.present = e ::ₘ v.besides key := by
  rw [present_eq v (v.ns.shard_of key)]
  unfold besides Shard.bag
  rw [bag_erase h, Multiset.cons_add, Multiset.cons_add]

theorem present_of_absent (h : v.get key = none) : v.present = v.besides key := by
  rw [present_eq v (v.ns.shard_of key)]
  unfold besides Shard.bag
  dsimp only
  rw [erase_of_none h]

theorem present_touch (v : View) (e : Entry) (ttl : Option Nat) :
    (v.touch settings (v.ns.shard_of e.key) e ttl t).present =
      e.touched settings v.ns.tick ttl t ::ₘ v.besides e.key := by
  have heq : (v.touch settings (v.ns.shard_of e.key) e ttl t).present =
      (v.setShard (v.ns.shard_of e.key) ((v.shard (v.ns.shard_of e.key)).touched settings v.ns.tick
        e ttl t)).present := by
    apply present_congr
    rw [touch_eq]
    rfl
  rw [heq, present_setShard, Shard.bag_touched]
  unfold besides
  rw [Multiset.cons_add]

theorem get_touch (v : View) (e : Entry) (ttl : Option Nat) (k : Key) :
    (v.touch settings (v.ns.shard_of e.key) e ttl t).get k =
      if e.key = k then some (e.touched settings v.ns.tick ttl t) else v.get k := by
  have heq : (v.touch settings (v.ns.shard_of e.key) e ttl t).get k =
      (v.setShard (v.ns.shard_of e.key) ((v.shard (v.ns.shard_of e.key)).touched settings v.ns.tick
        e ttl t)).get k := by
    rw [touch_eq]
    rfl
  rw [heq, get_setShard]
  by_cases hi : v.ns.shard_of k = v.ns.shard_of e.key
  · rw [if_pos hi, Shard.get_touched]
    unfold get
    rw [hi]
  · have hk : e.key ≠ k := fun hk => hi (hk ▸ rfl)
    rw [if_neg hi, if_neg hk]

theorem onward_touch (v : View) (i : Fin SHARDS) (e : Entry) (ttl : Option Nat) :
    Onward v (v.touch settings i e ttl t) := by
  rw [touch_eq]
  exact { Onward.refl v with }

theorem tick_le_after (settings : NamespaceSettings) (tick : Nat) :
    tick ≤ tickAfter settings tick := by
  unfold tickAfter
  cases settings.eviction <;> simp

theorem sound_touch (hshards : ∀ j, Shard.Sound v.ns.shard_of j v.ns.tick (v.shard j))
    (hwas : Shard.Was (v.shard (v.ns.shard_of e.key)) e) (hle : e.expires_ms ≤ u64_max)
    (hused : e.used ≤ v.ns.tick) (hsized : ENTRY_OVERHEAD + e.key.length ≤ e.bytes)
    (haccount : Accounted others v (e ::ₘ v.besides e.key))
    (hlives : ∀ x ∈ e ::ₘ v.besides e.key, x.life < v.ns.lives)
    (hnodup : ((e ::ₘ v.besides e.key).map Entry.life).Nodup) (ttl : Option Nat) :
    Sound others (v.touch settings (v.ns.shard_of e.key) e ttl t) := by
  have hpresent := @present_touch settings t v e ttl
  unfold Sound
  rw [hpresent]
  rw [touch_eq]
  refine ⟨fun j => ?_, ⟨?_, ?_, haccount.total⟩, fun x hx => ?_, ?_⟩
  · exact sound_setShard hshards (tick_le_after settings _)
      ((hshards _).touched hwas rfl hle hused hsized) j
  · rw [Multiset.card_cons, ← Multiset.card_cons e]
    exact haccount.keys
  · rw [Multiset.map_cons, Multiset.sum_cons]
    have hbytes := haccount.bytes
    rw [Multiset.map_cons, Multiset.sum_cons] at hbytes
    exact hbytes
  · rcases Multiset.mem_cons.mp hx with rfl | hx
    · exact hlives e (Multiset.mem_cons_self _ _)
    · exact hlives x (Multiset.mem_cons_of_mem hx)
  · rw [Multiset.map_cons] at hnodup ⊢
    exact hnodup

/-- The entry with the value that a call leaves in it. -/
def rewritten (e : Entry) (w : Wrote) : Entry :=
  { e with data := w.data, bytes := ENTRY_OVERHEAD + e.key.length + w.bytes }

/-- The namespace with the room accounted that a write takes or gives back. -/
def resized (v : View) (e : Entry) (w : Wrote) : View :=
  (v.resize { e with data := w.data } (ENTRY_OVERHEAD + e.key.length + w.bytes)).2

theorem wrote_eq (v : View) (e : Entry) (w : Wrote) :
    v.wrote settings e w t =
      (v.resized e w).touch settings ((v.resized e w).ns.shard_of (rewritten e w).key)
        (rewritten e w) w.ttl t := rfl

theorem onward_wrote (v : View) (e : Entry) (w : Wrote) : Onward v (v.wrote settings e w t) := by
  rw [wrote_eq]
  refine Onward.trans ?_ (onward_touch _ _ _ _)
  exact { Onward.refl v with }

def left (v : View) (settings : NamespaceSettings) (e : Entry) (w : Wrote) (now_ms : Nat) : Entry :=
  (rewritten e w).touched settings v.ns.tick w.ttl now_ms

theorem get_wrote (v : View) (e : Entry) (w : Wrote) (k : Key) :
    (v.wrote settings e w t).get k = if e.key = k then some (v.left settings e w t) else v.get k := by
  rw [wrote_eq, get_touch]
  rfl

theorem present_wrote (v : View) (e : Entry) (w : Wrote) :
    (v.wrote settings e w t).present = v.left settings e w t ::ₘ v.besides e.key := by
  rw [wrote_eq, present_touch]
  rfl

/-- The counts after a change in the size of an entry. -/
theorem Accounted.resize (h : Accounted others v (e ::ₘ M)) (w : Wrote) :
    Accounted others (v.resized e w) (rewritten e w ::ₘ M) := by
  have hkeys := h.keys
  have hbytes := h.bytes
  have htotal := h.total
  rw [Multiset.map_cons, Multiset.sum_cons] at hbytes
  refine ⟨hkeys.trans (by rw [Multiset.card_cons, Multiset.card_cons]), ?_, ?_⟩
  · rw [Multiset.map_cons, Multiset.sum_cons]
    simp only [resized, View.resize, rewritten]
    split <;> omega
  · simp only [resized, View.resize]
    split <;> omega

theorem sound_wrote (hs : Sound others v) (h : v.get e.key = some e) (w : Wrote) :
    Sound others (v.wrote settings e w t) := by
  have hs : Holds others v (e ::ₘ v.besides e.key) := present_of_get h ▸ hs
  have hshard := hs.shards (v.ns.shard_of e.key)
  rw [wrote_eq]
  apply sound_touch
  · exact hs.shards
  · exact Shard.was_of_get h ⟨rfl, rfl⟩
  · have hle : e.expires_ms ≤ u64_max := hshard.expires_le h
    exact hle
  · have hused : e.used ≤ v.ns.tick := hshard.used_le h
    exact hused
  · exact Nat.le_add_right _ _
  · exact hs.account.resize w
  · intro x hx
    rcases Multiset.mem_cons.mp hx with rfl | hx
    · exact hs.lives_lt e (Multiset.mem_cons_self _ _)
    · exact hs.lives_lt x (Multiset.mem_cons_of_mem hx)
  · have hnodup := hs.lives_nodup
    rw [Multiset.map_cons] at hnodup ⊢
    exact hnodup

/-! ### A new key -/

variable {bytes : Nat}

theorem reserve_eq (h : v.reserve settings bytes = .ok v') :
    v' = { sh := { v.sh with bytes := v.sh.bytes + bytes }
           ns := { v.ns with keys := v.ns.keys + 1, bytes := v.ns.bytes + bytes } } := by
  unfold reserve at h
  split at h
  · cases h
  · split at h
    · cases h
    · split at h
      · cases h
      · cases h
        rfl

def fresh (v : View) (key : Key) (w : Wrote) : Entry :=
  { key, data := w.data, expires_ms := 0, bytes := ENTRY_OVERHEAD + key.length + w.bytes
    used := 0, life := v.ns.lives }

def newborn (v : View) (settings : NamespaceSettings) (key : Key) (w : Wrote) (now_ms : Nat) :
    Entry :=
  (v.fresh key w).touched settings v.ns.tick (w.ttl.or settings.default_ttl_secs) now_ms

/-- The namespace with the life of a new key numbered. -/
def numbered (v : View) : View := { v with ns := { v.ns with lives := v.ns.lives + 1 } }

theorem began_eq (v : View) (key : Key) (w : Wrote) :
    v.began settings key w t =
      v.numbered.touch settings (v.numbered.ns.shard_of (v.fresh key w).key) (v.fresh key w)
        (w.ttl.or settings.default_ttl_secs) t := rfl

theorem onward_began (h : v.reserve settings bytes = .ok v') (key : Key) (w : Wrote) :
    Onward v (v'.began settings key w t) := by
  rw [began_eq, reserve_eq h]
  refine Onward.trans ?_ (onward_touch _ _ _ _)
  exact { Onward.refl v with lives_le := Nat.le_succ _ }

theorem get_began (h : v.reserve settings bytes = .ok v') (key : Key) (w : Wrote) (k : Key) :
    (v'.began settings key w t).get k =
      if key = k then some (v.newborn settings key w t) else v.get k := by
  rw [began_eq, get_touch, reserve_eq h]
  rfl

theorem present_began (h : v.reserve settings bytes = .ok v') (key : Key) (w : Wrote) :
    (v'.began settings key w t).present = v.newborn settings key w t ::ₘ v.besides key := by
  rw [began_eq, present_touch, reserve_eq h]
  rfl

theorem sound_began (hs : Sound others v) (h : v.get key = none)
    (hroom : v.reserve settings (ENTRY_OVERHEAD + key.length + w.bytes) = .ok v') :
    Sound others (v'.began settings key w t) := by
  have hs : Holds others v (v.besides key) := present_of_absent h ▸ hs
  have hv := reserve_eq hroom
  rw [began_eq]
  subst hv
  apply sound_touch
  · exact hs.shards
  · exact Shard.was_of_absent h ⟨rfl, rfl⟩
  · exact Nat.zero_le _
  · exact Nat.zero_le _
  · exact Nat.le_add_right _ _
  · have hkeys := hs.account.keys
    have hbytes := hs.account.bytes
    have htotal := hs.account.total
    refine ⟨?_, ?_, ?_⟩
    · rw [Multiset.card_cons]
      exact congrArg (· + 1) hkeys
    · rw [Multiset.map_cons, Multiset.sum_cons]
      change v.ns.bytes + (ENTRY_OVERHEAD + key.length + w.bytes) =
        (ENTRY_OVERHEAD + key.length + w.bytes) + ((v.besides key).map Entry.bytes).sum
      rw [hbytes, Nat.add_comm]
    · change v.sh.bytes + _ = others + (v.ns.bytes + _)
      rw [htotal, Nat.add_assoc]
  · intro x hx
    rcases Multiset.mem_cons.mp hx with rfl | hx
    · exact Nat.lt_succ_self _
    · exact Nat.lt_succ_of_lt (hs.lives_lt x hx)
  · rw [Multiset.map_cons, Multiset.nodup_cons]
    refine ⟨fun hin => ?_, hs.lives_nodup⟩
    obtain ⟨x, hx, heq⟩ := Multiset.mem_map.mp hin
    have hlt := hs.lives_lt x hx
    change x.life = v.ns.lives at heq
    omega

/-! ## What every move keeps -/

theorem expired_mono {t' : Nat} (h : e.expired t = true) (ht : t ≤ t') : e.expired t' = true := by
  obtain ⟨hne, hle⟩ := expires_of_expired h
  simp [Entry.expired, hne, hle.trans ht]

theorem Lapse.onward (h : Lapse lo v v') : Onward v v' := by
  cases h with
  | idle h => exact h.toOnward
  | drop t e h hlo hlast hexp hwhy => exact onward_dropped v e
  | hold t e h hlo hlast hexp => exact onward_heldFor v e

theorem Lapse.sound (h : Lapse lo v v') (hs : Sound others v) : Sound others v' := by
  cases h with
  | idle h => exact h.sound hs
  | drop t e h hlo hlast hexp hwhy => exact sound_dropped hs h
  | hold t e h hlo hlast hexp => exact sound_heldFor hs h (expires_of_expired hexp).1

theorem Lapse.get (h : Lapse lo v v') (k : Key) : v'.get k = v.get k ∨
    v'.get k = none ∧ ∃ e, v.get k = some e ∧ e.expired v.last = true := by
  cases h with
  | idle h => exact .inl (h.get k)
  | drop t e h hlo hlast hexp hwhy =>
    rw [get_dropped]
    by_cases hk : e.key = k
    · subst hk
      exact .inr ⟨if_pos rfl, e, h, expired_mono hexp hlast⟩
    · exact .inl (if_neg hk)
  | hold t e h hlo hlast hexp =>
    rw [get_heldFor]
    by_cases hk : e.key = k
    · subst hk
      exact .inr ⟨if_pos rfl, e, h, expired_mono hexp hlast⟩
    · exact .inl (if_neg hk)

variable {left : Option Wrote}

theorem Use.onward (h : Use settings key t left v v') : Onward v v' := by
  cases h with
  | absent h => exact Onward.refl v
  | drop e hkey h hexp => exact onward_dropped v e
  | write e w hkey h hexp => exact onward_wrote v e w
  | new w h hroom => exact onward_began hroom key w

theorem Use.sound (h : Use settings key t left v v') (hs : Sound others v) : Sound others v' := by
  cases h with
  | absent h => exact hs
  | drop e hkey h hexp => exact sound_dropped hs (hkey ▸ h)
  | write e w hkey h hexp => exact sound_wrote hs (hkey ▸ h) w
  | new w h hroom => exact sound_began hs h hroom

theorem Move.onward (h : Move lo v v') : Onward v v' := by
  cases h with
  | lapse h => exact h.onward
  | use t hlo hlast h => exact h.onward
  | evict t e h hlo hwhy => exact onward_dropped v e

theorem Move.sound (h : Move lo v v') (hs : Sound others v) : Sound others v' := by
  cases h with
  | lapse h => exact h.sound hs
  | use t hlo hlast h => exact h.sound hs
  | evict t e h hlo hwhy => exact sound_dropped hs h

variable {x : Entry}

theorem mem_of_cons_ne {R : Multiset Entry} (h : M = e ::ₘ R) (hx : x ∈ M) (hne : x ≠ e) :
    x ∈ R := by
  rw [h] at hx
  exact (Multiset.mem_cons.mp hx).resolve_left hne

theorem Move.keeps (h : Move lo v v') (hs : Sound others v) (hev : v.sh.expiry_events = true)
    (hx : x ∈ v.present) (hexp : x.expired lo = true) (hrem : remembered x.key = false) :
    x ∈ v'.present := by
  -- The entry of a move is another one: it has not expired, or it remembers a key.
  have hother : ∀ {e : Entry} {t : Nat}, lo ≤ t →
      e.expired t = false ∨ remembered e.key = true → x ≠ e := by
    rintro e t hlo hwhy rfl
    rcases hwhy with hlive | hwhy
    · rw [expired_mono hexp hlo] at hlive
      cases hlive
    · rw [hrem] at hwhy
      cases hwhy
  cases h with
  | lapse h =>
    cases h with
    | idle h => exact h.present.symm ▸ hx
    | drop t e h hlo hlast hexp' hwhy =>
      refine mem_of_cons_ne (present_dropped h) hx (hother hlo (.inr ?_))
      exact hwhy.resolve_left (by rw [hev]; decide)
    | hold t e h hlo hlast hexp' => exact (present_heldFor hs h).symm ▸ hx
  | use t hlo hlast h =>
    cases h with
    | absent h => exact hx
    | drop e hkey h hexp' =>
      exact mem_of_cons_ne (present_dropped (hkey ▸ h)) hx (hother hlo (.inl hexp'))
    | write e w hkey h hexp' =>
      rw [present_wrote]
      subst hkey
      exact Multiset.mem_cons_of_mem
        (mem_of_cons_ne (present_of_get h) hx (hother hlo (.inl hexp')))
    | new w h hroom =>
      rw [present_began hroom]
      exact Multiset.mem_cons_of_mem (present_of_absent h ▸ hx)
  | evict t e h hlo hwhy =>
    exact mem_of_cons_ne (present_dropped h) hx (hother hlo (hwhy hev))

theorem Move.lives (h : Move lo v v') (hs : Sound others v) (hx : x ∈ v'.present) :
    (∃ y ∈ v.present, y.life = x.life) ∨ v.ns.lives ≤ x.life := by
  have hof : ∀ {e : Entry}, v.get e.key = some e → x ∈ (v.dropped e).present →
      ∃ y ∈ v.present, y.life = x.life := fun h hx =>
    ⟨x, present_dropped h ▸ Multiset.mem_cons_of_mem hx, rfl⟩
  cases h with
  | lapse h =>
    cases h with
    | idle h => exact .inl ⟨x, h.present ▸ hx, rfl⟩
    | drop t e h hlo hlast hexp hwhy => exact .inl (hof h hx)
    | hold t e h hlo hlast hexp => exact .inl ⟨x, present_heldFor hs h ▸ hx, rfl⟩
  | use t hlo hlast h =>
    cases h with
    | absent h => exact .inl ⟨x, hx, rfl⟩
    | drop e hkey h hexp => exact .inl (hof (hkey ▸ h) hx)
    | write e w hkey h hexp =>
      subst hkey
      rw [present_wrote] at hx
      rw [present_of_get h]
      rcases Multiset.mem_cons.mp hx with rfl | hx
      · exact .inl ⟨e, Multiset.mem_cons_self _ _, rfl⟩
      · exact .inl ⟨x, Multiset.mem_cons_of_mem hx, rfl⟩
    | new w h hroom =>
      rw [present_began hroom] at hx
      rw [present_of_absent h]
      rcases Multiset.mem_cons.mp hx with rfl | hx
      · exact .inr (le_refl _)
      · exact .inl ⟨x, hx, rfl⟩
  | evict t e h hlo hwhy => exact .inl (hof h hx)

/-! ## Sequences of moves -/

def Lapses (lo : Nat) : View → View → Prop := Relation.ReflTransGen (Lapse lo)

def Moves (lo : Nat) : View → View → Prop := Relation.ReflTransGen (Move lo)

theorem Lapses.moves (h : Lapses lo v v') : Moves lo v v' := by
  induction h with
  | refl => exact .refl
  | tail _ h ih => exact ih.tail (.lapse h)

theorem Lapse.lapses (h : Lapse lo v v') : Lapses lo v v' := Relation.ReflTransGen.single h

theorem Move.moves (h : Move lo v v') : Moves lo v v' := Relation.ReflTransGen.single h

theorem Idle.lapses (h : Idle v v') : Lapses lo v v' := (Lapse.idle h).lapses

theorem Idle.moves (h : Idle v v') : Moves lo v v' := h.lapses.moves

variable {v'' : View}

theorem Lapses.trans (h : Lapses lo v v') (h' : Lapses lo v' v'') : Lapses lo v v'' :=
  Relation.ReflTransGen.trans h h'

theorem Moves.trans (h : Moves lo v v') (h' : Moves lo v' v'') : Moves lo v v'' :=
  Relation.ReflTransGen.trans h h'

variable {lo' : Nat}

theorem Lapse.mono (h : Lapse lo' v v') (hle : lo ≤ lo') : Lapse lo v v' := by
  cases h with
  | idle h => exact .idle h
  | drop t e h hlo hlast hexp hwhy => exact .drop t e h (hle.trans hlo) hlast hexp hwhy
  | hold t e h hlo hlast hexp => exact .hold t e h (hle.trans hlo) hlast hexp

theorem Lapses.mono (h : Lapses lo' v v') (hle : lo ≤ lo') : Lapses lo v v' := by
  induction h with
  | refl => exact .refl
  | tail _ h ih => exact ih.tail (h.mono hle)

theorem Moves.mono (h : Moves lo' v v') (hle : lo ≤ lo') : Moves lo v v' := by
  induction h with
  | refl => exact .refl
  | tail _ h ih =>
    refine ih.tail ?_
    cases h with
    | lapse h => exact .lapse (h.mono hle)
    | use t hlo hlast h => exact .use t (hle.trans hlo) hlast h
    | evict t e h hlo hwhy => exact .evict t e h (hle.trans hlo) hwhy

theorem Moves.onward (h : Moves lo v v') : Onward v v' := by
  induction h with
  | refl => exact Onward.refl v
  | tail _ h ih => exact ih.trans h.onward

theorem Moves.sound (h : Moves lo v v') (hs : Sound others v) : Sound others v' := by
  induction h with
  | refl => exact hs
  | tail _ h ih => exact h.sound ih

theorem Lapses.onward (h : Lapses lo v v') : Onward v v' := h.moves.onward

theorem Lapses.sound (h : Lapses lo v v') (hs : Sound others v) : Sound others v' :=
  h.moves.sound hs

theorem Moves.keeps (h : Moves lo v v') (hs : Sound others v) (hev : v.sh.expiry_events = true)
    (hx : x ∈ v.present) (hexp : x.expired lo = true) (hrem : remembered x.key = false) :
    x ∈ v'.present := by
  induction h with
  | refl => exact hx
  | tail hmoves h ih =>
    exact h.keeps (Moves.sound hmoves hs) ((Moves.onward hmoves).events.trans hev) ih hexp hrem

theorem Moves.lives (h : Moves lo v v') (hs : Sound others v) (hx : x ∈ v'.present) :
    (∃ y ∈ v.present, y.life = x.life) ∨ v.ns.lives ≤ x.life := by
  induction h generalizing x with
  | refl => exact .inl ⟨x, hx, rfl⟩
  | tail hmoves h ih =>
    rcases h.lives (Moves.sound hmoves hs) hx with ⟨y, hy, heq⟩ | hle
    · rcases ih hy with ⟨z, hz, heq'⟩ | hle
      · exact .inl ⟨z, hz, heq'.trans heq⟩
      · exact .inr (heq ▸ hle)
    · exact .inr ((Moves.onward hmoves).lives_le.trans hle)

theorem Lapses.get (h : Lapses lo v v') (hclock : Monotone v.sh.clock) (k : Key) :
    v'.get k = v.get k ∨ v'.get k = none ∧ ∃ e, v.get k = some e ∧ e.expired v'.last = true := by
  induction h with
  | refl => exact .inl rfl
  | tail hlapses h ih =>
    have hon := Lapses.onward hlapses
    have hlast := h.onward.last_le (hon.clock ▸ hclock)
    rcases ih with ih | ⟨hnone, e, he, hexp⟩
    · rw [← ih]
      rcases h.get k with h | ⟨hnone, e, he, hexp⟩
      · exact .inl h
      · exact .inr ⟨hnone, e, he, expired_mono hexp hlast⟩
    · refine .inr ⟨?_, e, he, expired_mono hexp hlast⟩
      rcases h.get k with h | ⟨hnone', -⟩
      · exact h.trans hnone
      · exact hnone'

theorem Lapses.get_of_none (h : Lapses lo v v') (hclock : Monotone v.sh.clock)
    (hnone : v.get key = none) : v'.get key = none := by
  rcases h.get hclock key with heq | ⟨hnone', -⟩
  · exact heq.trans hnone
  · exact hnone'

end View

end mqttd.rule_state.local_store
