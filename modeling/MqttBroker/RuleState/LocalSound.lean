-- The invariant of a local namespace: each shard's orders name its keys, each at its own
-- place, and the counts are the totals over the keys in the maps and the keys that are
-- held. Each operation on a shard is described by what it does to the entries.
import Mathlib.Algebra.BigOperators.Fin
import MqttBroker.Lib.MapBag
import MqttBroker.RuleState.LocalPlain

namespace mqttd.rule_state.local_store

open mqtt_rules BTreeMap

/-! ## One shard -/

structure Shard.Sound (shard_of : Key → Fin SHARDS) (i : Fin SHARDS) (tick : Nat) (s : Shard) :
    Prop where
  key_of : ∀ {k : Key} {e : Entry}, s.map[k]? = some e → e.key = k ∧ shard_of k = i
  expiry_iff : ∀ (slot : Nat) (k : Key), toLex (slot, k) ∈ s.expiry ↔
    ∃ e, s.map[k]? = some e ∧ e.expires_ms ≠ 0 ∧ expiry_slot e.expires_ms = slot
  used_iff : ∀ (u : Nat) (k : Key), s.used[u]? = some k ↔ u ≠ 0 ∧ ∃ e, s.map[k]? = some e ∧ e.used = u
  used_le : ∀ {k : Key} {e : Entry}, s.map[k]? = some e → e.used ≤ tick
  held_at : ∀ {p : Nat ×ₗ Nat} {e : Entry}, s.held[p]? = some e →
    (ofLex p).1 = expiry_slot e.expires_ms ∧ (ofLex p).2 ≤ s.held_seq ∧ e.expires_ms ≠ 0
  expires_le : ∀ {k : Key} {e : Entry}, s.map[k]? = some e → e.expires_ms ≤ u64_max
  held_le : ∀ {p : Nat ×ₗ Nat} {e : Entry}, s.held[p]? = some e → e.expires_ms ≤ u64_max
  sized : ∀ {k : Key} {e : Entry}, s.map[k]? = some e → ENTRY_OVERHEAD + e.key.length ≤ e.bytes

namespace Shard

def bag (s : Shard) : Multiset Entry := BTreeMap.bag s.map + BTreeMap.bag s.held

variable {shard_of : Key → Fin SHARDS} {i : Fin SHARDS} {tick : Nat} {s : Shard} {e : Entry}
  {key : Key}

theorem sound_empty : Sound shard_of i tick {} where
  key_of h := by simp at h
  expiry_iff slot k := by simp
  used_iff u k := by simp
  used_le h := by simp at h
  held_at h := by simp at h
  expires_le h := by simp at h
  held_le h := by simp at h
  sized h := by simp at h

theorem Sound.mono {tick' : Nat} (hs : Sound shard_of i tick s) (h : tick ≤ tick') :
    Sound shard_of i tick' s :=
  { hs with used_le := fun he => (hs.used_le he).trans h }

theorem get_without (s : Shard) (e : Entry) (k : Key) :
    (s.without e).map[k]? = if e.key = k then none else s.map[k]? := by
  unfold without
  rw [get_erase]
  by_cases hk : e.key = k
  · rw [if_pos hk, if_pos hk]
  · rw [if_neg hk, if_neg hk]

theorem bag_without (h : s.map[e.key]? = some e) : bag s = e ::ₘ bag (s.without e) := by
  unfold bag without
  rw [bag_erase h, Multiset.cons_add]

theorem Sound.without (hs : Sound shard_of i tick s) (h : s.map[e.key]? = some e) :
    Sound shard_of i tick (s.without e) where
  key_of hk := by
    rw [get_without] at hk
    split at hk
    · cases hk
    · exact hs.key_of hk
  expiry_iff slot k := by
    simp only [get_without]
    have hmem : toLex (slot, k) ∈ (s.without e).expiry ↔
        toLex (slot, k) ∈ s.expiry ∧ ¬ (e.key = k) := by
      unfold Shard.without
      dsimp only
      split
      · rw [BTreeSet.mem_erase, hs.expiry_iff, and_comm]
        refine and_congr_right (fun hin => ?_)
        obtain ⟨e', he', -, hslot⟩ := hin
        refine not_congr ⟨fun heq => ?_, fun hk => ?_⟩
        · exact (Prod.mk.inj (toLex.injective heq)).2.symm
        · subst hk
          cases h.symm.trans he'
          rw [hslot]
      · next hz =>
        rw [hs.expiry_iff]
        refine ⟨fun hin => ⟨hin, ?_⟩, fun hin => hin.1⟩
        rintro rfl
        obtain ⟨e', he', hne, -⟩ := hin
        cases h.symm.trans he'
        exact hz hne
    rw [hmem, hs.expiry_iff]
    constructor
    · rintro ⟨⟨e', he', hrest⟩, hk⟩
      exact ⟨e', by rw [if_neg hk]; exact he', hrest⟩
    · rintro ⟨e', he', hrest⟩
      split at he'
      · cases he'
      · next hk => exact ⟨⟨e', he', hrest⟩, hk⟩
  used_iff u k := by
    simp only [get_without]
    have hget : (s.without e).used[u]? = some k ↔ s.used[u]? = some k ∧ ¬ (e.key = k) := by
      unfold Shard.without
      dsimp only
      split
      · next hz =>
        rw [get_erase]
        by_cases hu : e.used = u
        · rw [if_pos hu]
          refine ⟨fun hnone => (by cases hnone), fun ⟨hk, hne⟩ => ?_⟩
          have hown : s.used[u]? = some e.key := (hs.used_iff u e.key).mpr ⟨hu ▸ hz, e, h, hu⟩
          rw [hown] at hk
          exact absurd (Option.some.inj hk) hne
        · rw [if_neg hu]
          refine ⟨fun hk => ⟨hk, ?_⟩, fun hk => hk.1⟩
          rintro rfl
          obtain ⟨-, e', he', hu'⟩ := (hs.used_iff u e.key).mp hk
          cases h.symm.trans he'
          exact hu hu'
      · next hz =>
        refine ⟨fun hk => ⟨hk, ?_⟩, fun hk => hk.1⟩
        rintro rfl
        obtain ⟨hu, e', he', hu'⟩ := (hs.used_iff u e.key).mp hk
        cases h.symm.trans he'
        exact hz (hu'.symm ▸ hu)
    rw [hget, hs.used_iff]
    constructor
    · rintro ⟨⟨hu, e', he', hrest⟩, hk⟩
      exact ⟨hu, e', by rw [if_neg hk]; exact he', hrest⟩
    · rintro ⟨hu, e', he', hrest⟩
      split at he'
      · cases he'
      · next hk => exact ⟨⟨hu, e', he', hrest⟩, hk⟩
  used_le hk := by
    rw [get_without] at hk
    split at hk
    · cases hk
    · exact hs.used_le hk
  held_at hp := hs.held_at hp
  expires_le hk := by
    rw [get_without] at hk
    split at hk
    · cases hk
    · exact hs.expires_le hk
  held_le hp := hs.held_le hp
  sized hk := by
    rw [get_without] at hk
    split at hk
    · cases hk
    · exact hs.sized hk

/-- The order names the key once: to take it out before is to take it out with its entry. -/
theorem without_erased (s : Shard) (hne : e.expires_ms ≠ 0) :
    Shard.without
      { s with expiry := s.expiry.erase (toLex (expiry_slot e.expires_ms, e.key)) } e =
      s.without e := by
  unfold Shard.without
  dsimp only
  rw [if_pos hne, if_pos hne, BTreeSet.erase_erase]

theorem expiry_head (hs : Sound shard_of i tick s) {x : Nat ×ₗ Key} {rest : List (Nat ×ₗ Key)}
    (h : s.expiry.toList = x :: rest) :
    ∃ e : Entry, s.map[e.key]? = some e ∧ e.expires_ms ≠ 0 ∧ e.expires_ms ≤ u64_max ∧
      x = toLex (expiry_slot e.expires_ms, e.key) := by
  have hmem : toLex ((ofLex x).1, (ofLex x).2) ∈ s.expiry := BTreeSet.mem_head h
  obtain ⟨e, he, hne, hslot⟩ := (hs.expiry_iff _ _).mp hmem
  obtain ⟨hkey, -⟩ := hs.key_of he
  refine ⟨e, hkey ▸ he, hne, hs.expires_le he, ?_⟩
  rw [hslot, hkey]
  rfl

theorem Sound.hold_free (hs : Sound shard_of i tick s) (slot : Nat) :
    s.held[toLex (slot, s.held_seq + 1)]? = none := by
  rcases hget : s.held[toLex (slot, s.held_seq + 1)]? with _ | e'
  · rfl
  · have hle := (hs.held_at hget).2.1
    simp only [ofLex_toLex] at hle
    omega

theorem get_hold (e : Entry) (p : Nat ×ₗ Nat) :
    (s.hold e).held[p]? =
      if toLex (expiry_slot e.expires_ms, s.held_seq + 1) = p then some e else s.held[p]? := by
  unfold hold
  rw [get_insert]

theorem bag_hold (hs : Sound shard_of i tick s) (e : Entry) : bag (s.hold e) = e ::ₘ bag s := by
  unfold bag hold
  rw [bag_insert_new e (hs.hold_free _), Multiset.add_cons]

theorem Sound.hold (hs : Sound shard_of i tick s) (hne : e.expires_ms ≠ 0)
    (hle : e.expires_ms ≤ u64_max) : Sound shard_of i tick (s.hold e) where
  key_of hk := hs.key_of hk
  expiry_iff := hs.expiry_iff
  used_iff := hs.used_iff
  used_le hk := hs.used_le hk
  held_at hp := by
    rw [get_hold] at hp
    split at hp
    · next hp' =>
      cases hp
      subst hp'
      exact ⟨rfl, le_refl _, hne⟩
    · obtain ⟨hslot, hseq, hne'⟩ := hs.held_at hp
      exact ⟨hslot, Nat.le_succ_of_le hseq, hne'⟩
  expires_le hk := hs.expires_le hk
  held_le hp := by
    rw [get_hold] at hp
    split at hp
    · cases hp
      exact hle
    · exact hs.held_le hp
  sized hk := hs.sized hk

theorem Sound.unhold {p : Nat ×ₗ Nat} (hs : Sound shard_of i tick s) :
    Sound shard_of i tick { s with held := s.held.erase p } where
  key_of hk := hs.key_of hk
  expiry_iff := hs.expiry_iff
  used_iff := hs.used_iff
  used_le hk := hs.used_le hk
  held_at hp := by
    rw [get_erase] at hp
    split at hp
    · cases hp
    · exact hs.held_at hp
  expires_le hk := hs.expires_le hk
  held_le hp := by
    rw [get_erase] at hp
    split at hp
    · cases hp
    · exact hs.held_le hp
  sized hk := hs.sized hk

end Shard

/-! ## An entry that is used -/

def Entry.expiresAfter (e : Entry) (ttl : Option Nat) (now_ms : Nat) : Nat :=
  match ttl with
  | none => e.expires_ms
  | some secs => View.expires_at now_ms secs

/-- The entry after a call that used it, in a namespace at `tick`. -/
def Entry.touched (e : Entry) (settings : NamespaceSettings) (tick : Nat) (ttl : Option Nat)
    (now_ms : Nat) : Entry :=
  { e with
    expires_ms := e.expiresAfter ttl now_ms
    used := match settings.eviction with
      | .Fail => e.used
      | .Lru => tick + 1 }

def Shard.touched (s : Shard) (settings : NamespaceSettings) (tick : Nat) (e : Entry)
    (ttl : Option Nat) (now_ms : Nat) : Shard :=
  { s with
    map := s.map.insert e.key (e.touched settings tick ttl now_ms)
    expiry := match ttl with
      | none => s.expiry
      | some secs =>
        let was := expiry_slot e.expires_ms
        let slot := expiry_slot (View.expires_at now_ms secs)
        if was ≠ slot then
          (if e.expires_ms ≠ 0 then s.expiry.erase (toLex (was, e.key)) else s.expiry).insert
            (toLex (slot, e.key))
        else s.expiry
    used := match settings.eviction with
      | .Fail => s.used
      | .Lru =>
        (if e.used ≠ 0 then s.used.erase e.used else s.used).insert (tick + 1) e.key }

/-- The place in the order of use that the namespace is at after a call. -/
def tickAfter (settings : NamespaceSettings) (tick : Nat) : Nat :=
  match settings.eviction with
  | .Fail => tick
  | .Lru => tick + 1

theorem View.touch_eq (v : View) (settings : NamespaceSettings) (i : Fin SHARDS) (e : Entry)
    (ttl : Option Nat) (now_ms : Nat) :
    v.touch settings i e ttl now_ms =
      { v with ns := { v.ns with
        shards := Function.update v.ns.shards i
          ((v.shard i).touched settings v.ns.tick e ttl now_ms)
        tick := tickAfter settings v.ns.tick } } := by
  unfold View.touch View.after
  cases ttl <;> cases hev : settings.eviction <;>
    simp [View.setShard, View.shard, Shard.touched, Shard.put, Entry.touched, Entry.expiresAfter,
      tickAfter, hev]

namespace Shard

variable {shard_of : Key → Fin SHARDS} {i : Fin SHARDS} {tick : Nat} {s : Shard} {e : Entry}
  {settings : NamespaceSettings} {ttl : Option Nat} {now_ms : Nat}

/-- The entry has the places in the orders that the shard has for its key. -/
def Was (s : Shard) (e : Entry) : Prop :=
  match s.map[e.key]? with
  | some e₀ => e₀.expires_ms = e.expires_ms ∧ e₀.used = e.used
  | none => e.expires_ms = 0 ∧ e.used = 0

theorem was_of_get {e₀ : Entry} (h : s.map[e.key]? = some e₀)
    (hplaces : e₀.expires_ms = e.expires_ms ∧ e₀.used = e.used) : Was s e := by
  unfold Was
  rw [h]
  exact hplaces

theorem was_of_absent (h : s.map[e.key]? = none) (hplaces : e.expires_ms = 0 ∧ e.used = 0) :
    Was s e := by
  unfold Was
  rw [h]
  exact hplaces

theorem Was.expiry_iff (hs : Sound shard_of i tick s) (h : Was s e) (slot : Nat) :
    toLex (slot, e.key) ∈ s.expiry ↔ e.expires_ms ≠ 0 ∧ expiry_slot e.expires_ms = slot := by
  rw [hs.expiry_iff]
  unfold Was at h
  split at h
  · next e₀ he₀ =>
    rw [← h.1]
    exact ⟨fun ⟨e', he', hrest⟩ => (by cases he₀.symm.trans he'; exact hrest),
      fun hrest => ⟨e₀, he₀, hrest⟩⟩
  · next hnone =>
    rw [h.1]
    simp [hnone]

theorem Was.used_iff (hs : Sound shard_of i tick s) (h : Was s e) (u : Nat) :
    s.used[u]? = some e.key ↔ u ≠ 0 ∧ e.used = u := by
  rw [hs.used_iff]
  unfold Was at h
  split at h
  · next e₀ he₀ =>
    rw [← h.2]
    exact ⟨fun ⟨hu, e', he', hrest⟩ => ⟨hu, by cases he₀.symm.trans he'; exact hrest⟩,
      fun ⟨hu, hrest⟩ => ⟨hu, e₀, he₀, hrest⟩⟩
  · next hnone =>
    rw [h.2]
    simp only [hnone, reduceCtorEq, false_and, exists_false, and_false, ne_eq, false_iff, not_and]
    exact fun hu h0 => hu h0.symm

theorem get_touched (s : Shard) (e : Entry) (k : Key) :
    (s.touched settings tick e ttl now_ms).map[k]? =
      if e.key = k then some (e.touched settings tick ttl now_ms) else s.map[k]? := by
  unfold Shard.touched
  rw [get_insert]
  by_cases hk : e.key = k
  · rw [if_pos hk, if_pos hk]
  · rw [if_neg hk, if_neg hk]

theorem expires_at_pos (now_ms secs : Nat) : View.expires_at now_ms secs ≠ 0 := by
  unfold View.expires_at
  omega

theorem expires_at_le (now_ms secs : Nat) : View.expires_at now_ms secs ≤ u64_max := by
  unfold View.expires_at add_saturating
  exact max_le (Nat.min_le_right _ _) (by decide)

theorem expiresAfter_le (h : e.expires_ms ≤ u64_max) : e.expiresAfter ttl now_ms ≤ u64_max := by
  cases ttl with
  | none => exact h
  | some secs => exact expires_at_le now_ms secs

theorem mem_touched_other (s : Shard) {slot : Nat} {k : Key} (hk : e.key ≠ k) :
    toLex (slot, k) ∈ (s.touched settings tick e ttl now_ms).expiry ↔
      toLex (slot, k) ∈ s.expiry := by
  have hne : ∀ slot' : Nat, toLex (slot, k) ≠ toLex (slot', e.key) := fun slot' heq =>
    hk (Prod.mk.inj (toLex.injective heq)).2.symm
  unfold Shard.touched
  cases ttl with
  | none => exact Iff.rfl
  | some secs =>
    dsimp only
    split
    · rw [BTreeSet.mem_insert]
      split
      · rw [BTreeSet.mem_erase]
        simp [hne]
      · simp [hne]
    · exact Iff.rfl

theorem mem_touched_own (hs : Sound shard_of i tick s) (h : Was s e) (slot : Nat) :
    toLex (slot, e.key) ∈ (s.touched settings tick e ttl now_ms).expiry ↔
      e.expiresAfter ttl now_ms ≠ 0 ∧ expiry_slot (e.expiresAfter ttl now_ms) = slot := by
  unfold Shard.touched Entry.expiresAfter
  cases ttl with
  | none => exact Was.expiry_iff hs h slot
  | some secs =>
    have hpos := expires_at_pos now_ms secs
    have hinj : toLex (slot, e.key) = toLex (expiry_slot (View.expires_at now_ms secs), e.key) ↔
        expiry_slot (View.expires_at now_ms secs) = slot :=
      ⟨fun heq => (Prod.mk.inj (toLex.injective heq)).1.symm, fun heq => by rw [heq]⟩
    simp only [ne_eq, hpos, not_false_eq_true, true_and]
    split
    · next hslot =>
      rw [BTreeSet.mem_insert, hinj]
      refine ⟨fun hor => ?_, fun heq => .inl heq⟩
      rcases hor with heq | hin
      · exact heq
      · exfalso
        split at hin
        · obtain ⟨hne, hin⟩ := (BTreeSet.mem_erase _ _ _).mp hin
          obtain ⟨-, hwas⟩ := (Was.expiry_iff hs h slot).mp hin
          exact hne (by rw [hwas])
        · next hzero => exact hzero ((Was.expiry_iff hs h slot).mp hin).1
    · next hslot =>
      rw [not_not] at hslot
      rw [Was.expiry_iff hs h, hslot]
      refine ⟨fun hin => hin.2, fun heq => ⟨fun hzero => ?_, heq⟩⟩
      -- A key with no expiry is in the second 0, and no expiry falls there.
      rw [hzero] at hslot
      unfold expiry_slot at hslot
      omega

theorem used_touched (hs : Sound shard_of i tick s) (h : Was s e) (u : Nat) (k : Key) :
    (s.touched settings tick e ttl now_ms).used[u]? = some k ↔
      u ≠ 0 ∧ ∃ e', (s.touched settings tick e ttl now_ms).map[k]? = some e' ∧ e'.used = u := by
  simp only [get_touched]
  have hother : ∀ u : Nat, e.key ≠ k → (s.used[u]? = some k ↔
      u ≠ 0 ∧ ∃ e', (if e.key = k then some (e.touched settings tick ttl now_ms)
        else s.map[k]?) = some e' ∧ e'.used = u) := by
    intro u hk
    rw [hs.used_iff]
    simp [hk]
  have hown : ∀ u : Nat, (u ≠ 0 ∧ ∃ e', (if e.key = e.key
      then some (e.touched settings tick ttl now_ms) else s.map[e.key]?) = some e' ∧ e'.used = u) ↔
      u ≠ 0 ∧ (e.touched settings tick ttl now_ms).used = u := by
    intro u
    simp
  unfold Shard.touched
  cases hev : settings.eviction with
  | Fail =>
    dsimp only
    by_cases hk : e.key = k
    · subst hk
      rw [hown, Was.used_iff hs h]
      simp [Entry.touched, hev]
    · exact hother u hk
  | Lru =>
    dsimp only
    rw [get_insert]
    by_cases hu : tick + 1 = u
    · rw [if_pos hu]
      by_cases hk : e.key = k
      · subst hk
        rw [hown]
        simp [Entry.touched, hev, hu]
        omega
      · refine ⟨fun heq => absurd (Option.some.inj heq) hk, fun ⟨_, e', he', hu'⟩ => ?_⟩
        rw [if_neg hk] at he'
        have := hs.used_le he'
        omega
    · rw [if_neg hu]
      have hkept : ∀ k, ((if e.used ≠ 0 then s.used.erase e.used else s.used)[u]? = some k ↔
          s.used[u]? = some k ∧ e.key ≠ k) := by
        intro k
        split
        · next hz =>
          rw [get_erase]
          by_cases heu : e.used = u
          · rw [if_pos heu, (Was.used_iff hs h u).mpr ⟨heu ▸ hz, heu⟩]
            simp
          · rw [if_neg heu]
            refine ⟨fun hg => ⟨hg, ?_⟩, fun hg => hg.1⟩
            rintro rfl
            exact heu ((Was.used_iff hs h u).mp hg).2
        · next hz =>
          refine ⟨fun hg => ⟨hg, ?_⟩, fun hg => hg.1⟩
          rintro rfl
          obtain ⟨hu0, heu⟩ := (Was.used_iff hs h u).mp hg
          exact hz (heu.symm ▸ hu0)
      rw [hkept]
      by_cases hk : e.key = k
      · subst hk
        rw [hown]
        simp [Entry.touched, hev, hu]
      · rw [and_iff_left hk]
        exact hother u hk

theorem Sound.touched (hs : Sound shard_of i tick s) (h : Was s e) (hi : shard_of e.key = i)
    (hle : e.expires_ms ≤ u64_max) (hused : e.used ≤ tick)
    (hsized : ENTRY_OVERHEAD + e.key.length ≤ e.bytes) :
    Sound shard_of i (tickAfter settings tick) (s.touched settings tick e ttl now_ms) where
  key_of hk := by
    rw [get_touched] at hk
    split at hk
    · next hek =>
      cases hk
      exact ⟨hek, hek ▸ hi⟩
    · exact hs.key_of hk
  expiry_iff slot k := by
    by_cases hk : e.key = k
    · subst hk
      rw [mem_touched_own hs h]
      simp [get_touched, Entry.touched]
    · rw [mem_touched_other s hk, hs.expiry_iff]
      simp [get_touched, hk]
  used_iff := used_touched hs h
  used_le hk := by
    rw [get_touched] at hk
    split at hk
    · cases hk
      unfold Entry.touched tickAfter
      cases settings.eviction with
      | Fail => exact hused
      | Lru => exact le_refl _
    · refine (hs.used_le hk).trans ?_
      unfold tickAfter
      cases settings.eviction <;> simp
  held_at hp := hs.held_at hp
  expires_le hk := by
    rw [get_touched] at hk
    split at hk
    · cases hk
      exact expiresAfter_le hle
    · exact hs.expires_le hk
  held_le hp := hs.held_le hp
  sized hk := by
    rw [get_touched] at hk
    split at hk
    · cases hk
      exact hsized
    · exact hs.sized hk

theorem bag_touched (s : Shard) (e : Entry) :
    bag (s.touched settings tick e ttl now_ms) =
      e.touched settings tick ttl now_ms ::ₘ
        (BTreeMap.bag (s.map.erase e.key) + BTreeMap.bag s.held) := by
  unfold bag Shard.touched
  rw [bag_insert, Multiset.cons_add]

end Shard

/-! ## A namespace -/

namespace View

/-- Everything that a namespace holds. -/
@[irreducible]
def present (v : View) : Multiset Entry := ∑ i, (v.shard i).bag

def elsewhere (v : View) (i : Fin SHARDS) : Multiset Entry :=
  ∑ j ∈ Finset.univ.erase i, (v.shard j).bag

variable {v v' : View} {i : Fin SHARDS} {e : Entry} {others : Nat} {M : Multiset Entry}

@[simp] theorem shard_setShard (v : View) (i : Fin SHARDS) (s : Shard) :
    (v.setShard i s).shard i = s := by
  simp [setShard, shard]

theorem shard_setShard_ne {j : Fin SHARDS} (v : View) (s : Shard) (h : j ≠ i) :
    (v.setShard i s).shard j = v.shard j := by
  simp [setShard, shard, h]

theorem present_congr (h : v'.ns.shards = v.ns.shards) : v'.present = v.present := by
  unfold present shard
  rw [h]

theorem present_eq (v : View) (i : Fin SHARDS) : v.present = (v.shard i).bag + v.elsewhere i := by
  unfold present
  exact (Finset.add_sum_erase _ _ (Finset.mem_univ i)).symm

theorem present_setShard (v : View) (i : Fin SHARDS) (s : Shard) :
    (v.setShard i s).present = s.bag + v.elsewhere i := by
  rw [present_eq _ i, shard_setShard]
  congr 1
  refine Finset.sum_congr rfl (fun j hj => ?_)
  rw [shard_setShard_ne v s (Finset.mem_erase.mp hj).1]

/-- The counts are those of the entries of `M`, beside the bytes of the other namespaces. -/
structure Accounted (others : Nat) (v : View) (M : Multiset Entry) : Prop where
  keys : v.ns.keys = Multiset.card M
  bytes : v.ns.bytes = (M.map Entry.bytes).sum
  total : v.sh.bytes = others + v.ns.bytes

/-- The invariant of a namespace that holds the entries of `M`, in its shards or taken out of
them and not yet released. -/
structure Holds (others : Nat) (v : View) (M : Multiset Entry) : Prop where
  shards : ∀ i, Shard.Sound v.ns.shard_of i v.ns.tick (v.shard i)
  account : Accounted others v M
  lives_lt : ∀ e ∈ M, e.life < v.ns.lives
  lives_nodup : (M.map Entry.life).Nodup

/-- The invariant of a namespace. -/
def Sound (others : Nat) (v : View) : Prop := Holds others v v.present

/-- What no step of a namespace changes, and what only grows. -/
structure Onward (v v' : View) : Prop where
  shard_of : v'.ns.shard_of = v.ns.shard_of
  name : v'.ns.name = v.ns.name
  events : v'.sh.expiry_events = v.sh.expiry_events
  clock : v'.sh.clock = v.sh.clock
  reads_le : v.sh.reads ≤ v'.sh.reads
  lives_le : v.ns.lives ≤ v'.ns.lives
  refused_le : ∀ r, v.ns.refused r ≤ v'.ns.refused r
  evicted_le : v.ns.evicted ≤ v'.ns.evicted
  evicted_eq : v.ns.evicted = v.ns.evictions.length → v'.ns.evicted = v'.ns.evictions.length
  unexpired : v.sh.expiry_events = true → ∀ x ∈ v'.ns.evictions, x ∈ v.ns.evictions ∨
    x.1.expired x.2 = false

theorem Onward.refl (v : View) : Onward v v :=
  ⟨rfl, rfl, rfl, rfl, le_refl _, le_refl _, fun _ => le_refl _, le_refl _, fun h => h,
    fun _ _ hx => .inl hx⟩

theorem Onward.trans {v'' : View} (h : Onward v v') (h' : Onward v' v'') : Onward v v'' where
  shard_of := h'.shard_of.trans h.shard_of
  name := h'.name.trans h.name
  events := h'.events.trans h.events
  clock := h'.clock.trans h.clock
  reads_le := h.reads_le.trans h'.reads_le
  lives_le := h.lives_le.trans h'.lives_le
  refused_le r := (h.refused_le r).trans (h'.refused_le r)
  evicted_le := h.evicted_le.trans h'.evicted_le
  evicted_eq heq := h'.evicted_eq (h.evicted_eq heq)
  unexpired hev x hx := by
    rcases h'.unexpired (h.events.trans hev) x hx with hx | hx
    · exact h.unexpired hev x hx
    · exact .inr hx

def last (v : View) : Nat := v.sh.clock (v.sh.reads - 1)

theorem last_ticked (v : View) : v.ticked.last = v.now := rfl

theorem Onward.now_le (h : Onward v v') (hclock : Monotone v.sh.clock) : v.now ≤ v'.now := by
  unfold now
  rw [h.clock]
  exact hclock h.reads_le

theorem Onward.last_le (h : Onward v v') (hclock : Monotone v.sh.clock) : v.last ≤ v'.last := by
  unfold last
  rw [h.clock]
  exact hclock (Nat.sub_le_sub_right h.reads_le 1)

/-- A step that leaves the shards and the counts. -/
structure Idle (v v' : View) : Prop extends Onward v v' where
  shards : v'.ns.shards = v.ns.shards
  keys : v'.ns.keys = v.ns.keys
  bytes : v'.ns.bytes = v.ns.bytes
  total : v'.sh.bytes = v.sh.bytes
  tick : v'.ns.tick = v.ns.tick
  lives : v'.ns.lives = v.ns.lives

theorem Idle.refl (v : View) : Idle v v := ⟨Onward.refl v, rfl, rfl, rfl, rfl, rfl, rfl⟩

theorem Idle.trans {v'' : View} (h : Idle v v') (h' : Idle v' v'') : Idle v v'' :=
  ⟨h.toOnward.trans h'.toOnward, h'.shards.trans h.shards, h'.keys.trans h.keys,
    h'.bytes.trans h.bytes, h'.total.trans h.total, h'.tick.trans h.tick, h'.lives.trans h.lives⟩

theorem Idle.shard (h : Idle v v') (i : Fin SHARDS) : v'.shard i = v.shard i :=
  congrFun h.shards i

theorem Idle.present (h : Idle v v') : v'.present = v.present := present_congr h.shards

theorem Idle.holds (h : Idle v v') (hs : Holds others v M) : Holds others v' M where
  shards i := by
    rw [h.shard_of, h.tick, h.shard i]
    exact hs.shards i
  account := ⟨h.keys.trans hs.account.keys, h.bytes.trans hs.account.bytes, by
    rw [h.total, h.bytes, hs.account.total]⟩
  lives_lt e he := h.lives.symm ▸ hs.lives_lt e he
  lives_nodup := hs.lives_nodup

theorem Idle.sound (h : Idle v v') (hs : Sound others v) : Sound others v' := by
  have := h.holds hs
  unfold Sound
  rwa [h.present]

theorem idle_ticked (v : View) : Idle v v.ticked :=
  ⟨{ Onward.refl v with reads_le := Nat.le_succ _ }, rfl, rfl, rfl, rfl, rfl, rfl⟩

theorem idle_note_oldest (v : View) (i : Fin SHARDS) : Idle v (v.note_oldest i) :=
  ⟨{ Onward.refl v with }, rfl, rfl, rfl, rfl, rfl, rfl⟩

theorem idle_note_used (v : View) (i : Fin SHARDS) : Idle v (v.note_used i) := by
  unfold note_used
  split
  · exact idle_note_oldest v i
  · exact Idle.refl v

theorem idle_refuse (v : View) (refusal : Refusal) (message : String) :
    Idle v (v.refuse refusal message).2 := by
  refine ⟨{ Onward.refl v with refused_le := fun r => ?_ }, rfl, rfl, rfl, rfl, rfl, rfl⟩
  by_cases hr : r = refusal
  · subst hr
    simp [refuse]
  · simp [refuse, hr]

theorem idle_evictedEntry (v : View) {e : Entry} {now_ms : Nat}
    (h : v.sh.expiry_events = true → e.expired now_ms = false) :
    Idle v (v.evictedEntry (some e) now_ms) := by
  refine ⟨{ Onward.refl v with evicted_le := Nat.le_succ _, evicted_eq := ?_, unexpired := ?_ },
    rfl, rfl, rfl, rfl, rfl, rfl⟩
  · intro heq
    simp [evictedEntry, heq]
  · intro hev x hx
    simp only [evictedEntry, Option.toList_some, List.map_cons, List.map_nil, List.mem_append,
      List.mem_singleton] at hx
    rcases hx with hx | rfl
    · exact .inl hx
    · exact .inr (h hev)

end View

end mqttd.rule_state.local_store
