-- How a call makes room: the purge of expired keys, the keys held for their events, and the
-- evictions. Each is a sequence of moves, and what it answers says whether a key went out.
import MqttBroker.RuleState.LocalMoves

namespace mqttd.rule_state.local_store

open mqtt_rules BTreeMap

namespace View

variable {v v' : View} {i : Fin SHARDS} {e : Entry} {others : Nat} {key : Key} {t lo now_ms : Nat}
  {settings : NamespaceSettings}

/-! ## The keys in the maps -/

theorem mapped_eq (v : View) : v.mapped = ∑ i, (v.shard i).map.size := by
  unfold mapped
  rw [← List.ofFn_eq_map, List.sum_ofFn]

theorem mapped_congr (h : ∀ j, (v'.shard j).map = (v.shard j).map) : v'.mapped = v.mapped := by
  rw [mapped_eq, mapped_eq]
  exact Finset.sum_congr rfl (fun j _ => by rw [h j])

theorem mapped_without (h : v.get e.key = some e)
    (hshard : ∀ j, (v'.shard j).map = if j = v.ns.shard_of e.key
      then (v.shard j).map.erase e.key else (v.shard j).map) :
    v'.mapped + 1 = v.mapped := by
  have hsize : ((v.shard (v.ns.shard_of e.key)).map.erase e.key).size + 1 =
      (v.shard (v.ns.shard_of e.key)).map.size := by
    have hcard := congrArg Multiset.card (bag_erase h)
    rw [Multiset.card_cons, card_bag, card_bag] at hcard
    exact hcard.symm
  have hrest : ∑ j ∈ Finset.univ.erase (v.ns.shard_of e.key), (v'.shard j).map.size =
      ∑ j ∈ Finset.univ.erase (v.ns.shard_of e.key), (v.shard j).map.size := by
    refine Finset.sum_congr rfl (fun j hj => ?_)
    rw [hshard j, if_neg (Finset.mem_erase.mp hj).1]
  rw [mapped_eq, mapped_eq, ← Finset.add_sum_erase _ _ (Finset.mem_univ (v.ns.shard_of e.key)),
    ← Finset.add_sum_erase _ _ (Finset.mem_univ (v.ns.shard_of e.key)), hrest, hshard, if_pos rfl]
  omega

theorem mapped_dropped (h : v.get e.key = some e) : (v.dropped e).mapped + 1 = v.mapped := by
  apply mapped_without h
  intro j
  by_cases hj : j = v.ns.shard_of e.key
  · subst hj
    rw [if_pos rfl]
    exact congrArg Shard.map (shard_setShard v _ _)
  · rw [if_neg hj]
    exact congrArg Shard.map (shard_setShard_ne v _ hj)

theorem mapped_heldFor (h : v.get e.key = some e) : (v.heldFor e).mapped + 1 = v.mapped := by
  apply mapped_without h
  intro j
  by_cases hj : j = v.ns.shard_of e.key
  · subst hj
    rw [if_pos rfl]
    exact congrArg Shard.map (shard_setShard v _ _)
  · rw [if_neg hj]
    exact congrArg Shard.map (shard_setShard_ne v _ hj)

theorem Idle.mapped (h : Idle v v') : v'.mapped = v.mapped :=
  mapped_congr (fun j => by rw [h.shard j])

theorem Lapse.mapped_le (h : Lapse lo v v') : v'.mapped ≤ v.mapped := by
  cases h with
  | idle h => exact le_of_eq h.mapped
  | drop t e h hlo hlast hexp hwhy =>
    have := mapped_dropped h
    omega
  | hold t e h hlo hlast hexp =>
    have := mapped_heldFor h
    omega

theorem Lapses.mapped_le (h : Lapses lo v v') : v'.mapped ≤ v.mapped := by
  induction h with
  | refl => exact le_refl _
  | tail _ h ih => exact h.mapped_le.trans ih

/-! ## A key that is removed, or has expired -/

theorem key_of_get (hs : Sound others v) (h : v.get key = some e) : e.key = key :=
  ((hs.shards _).key_of h).1

theorem remove_some (hs : Sound others v) (h : v.get key = some e) :
    v.remove (v.ns.shard_of key) key = (true, v.dropped e) := by
  have hkey := key_of_get hs h
  unfold get at h
  unfold remove Shard.take
  rw [h]
  subst hkey
  rfl

theorem remove_none (h : v.get key = none) : v.remove (v.ns.shard_of key) key = (false, v) := by
  unfold get at h
  unfold remove Shard.take
  rw [h]

theorem expire_some (hs : Sound others v) (h : v.get key = some e) :
    v.expire (v.ns.shard_of key) key =
      if v.sh.expiry_events && !remembered e.key then v.heldFor e else v.dropped e := by
  have hkey := key_of_get hs h
  unfold get at h
  unfold expire Shard.take
  rw [h]
  subst hkey
  rfl

theorem lapse_expire (hs : Sound others v) (h : v.get key = some e) (hlo : lo ≤ t)
    (hlast : t ≤ v.last) (hexp : e.expired t = true) :
    Lapse lo v (v.expire (v.ns.shard_of key) key) ∧
      (v.expire (v.ns.shard_of key) key).mapped + 1 = v.mapped ∧
      (v.expire (v.ns.shard_of key) key).get key = none := by
  have hkey := key_of_get hs h
  rw [expire_some hs h]
  subst hkey
  by_cases hwhy : (v.sh.expiry_events && !remembered e.key) = true
  · rw [if_pos hwhy]
    refine ⟨.hold t e h hlo hlast hexp, mapped_heldFor h, ?_⟩
    rw [get_heldFor, if_pos rfl]
  · rw [if_neg hwhy]
    refine ⟨.drop t e h hlo hlast hexp ?_, mapped_dropped h, ?_⟩
    · simp only [Bool.and_eq_true, Bool.not_eq_true', not_and, Bool.not_eq_false] at hwhy
      cases hev : v.sh.expiry_events with
      | false => exact .inl rfl
      | true => exact .inr (hwhy hev)
    · rw [get_dropped, if_pos rfl]

theorem lapses_expireFound (hs : Sound others v) (hlo : lo ≤ t) (hlast : t ≤ v.last) (key : Key) :
    Lapses lo v (v.expireFound (v.ns.shard_of key) key t) ∧
      ∀ e, (v.expireFound (v.ns.shard_of key) key t).get key = some e → e.expired t = false := by
  unfold expireFound
  by_cases hany : (v.shard (v.ns.shard_of key)).map[key]?.any (·.expired t) = true
  · rw [if_pos hany]
    obtain ⟨e, he, hexp⟩ := (Option.any_eq_true _ _).mp hany
    obtain ⟨hlapse, -, hnone⟩ := lapse_expire hs he hlo hlast hexp
    refine ⟨hlapse.lapses, fun e' he' => ?_⟩
    rw [hnone] at he'
    cases he'
  · rw [if_neg hany]
    refine ⟨.refl, fun e he => ?_⟩
    cases hexp : e.expired t with
    | false => rfl
    | true => exact absurd ((Option.any_eq_true _ _).mpr ⟨e, he, hexp⟩) hany

/-! ## The purge -/

theorem expired_of_slot (hne : e.expires_ms ≠ 0) (hle : e.expires_ms ≤ u64_max)
    (hdue : mul_saturating (expiry_slot e.expires_ms) 1000 ≤ t) : e.expired t = true := by
  have hslot : e.expires_ms ≤ expiry_slot e.expires_ms * 1000 := by
    unfold expiry_slot
    omega
  have hms : e.expires_ms ≤ t := (le_min hslot hle).trans hdue
  simp [Entry.expired, hne, hms]

theorem head_expiry (hs : Sound others v) {first : Nat ×ₗ Key} {rest : List (Nat ×ₗ Key)}
    (h : (v.shard i).expiry.toList = first :: rest) :
    ∃ e, v.get e.key = some e ∧ v.ns.shard_of e.key = i ∧ e.expires_ms ≠ 0 ∧
      e.expires_ms ≤ u64_max ∧ first = toLex (expiry_slot e.expires_ms, e.key) := by
  obtain ⟨e, he, hne, hle, hfirst⟩ := Shard.expiry_head (hs.shards i) h
  obtain ⟨-, hi⟩ := (hs.shards i).key_of he
  refine ⟨e, ?_, hi, hne, hle, hfirst⟩
  unfold get
  rw [hi]
  exact he

theorem purge_loop_step (hs : Sound others v) {first : Nat ×ₗ Key} {rest : List (Nat ×ₗ Key)}
    (h : (v.shard i).expiry.toList = first :: rest)
    (hdue : mul_saturating (ofLex first).1 1000 ≤ now_ms) (n : Nat) (any : Bool) :
    ∃ e, v.get e.key = some e ∧ e.expired now_ms = true ∧
      purge_loop i now_ms (n + 1) any v = purge_loop i now_ms n true (v.dropped e) := by
  obtain ⟨e, he, hi, hne, hle, hfirst⟩ := head_expiry hs h
  have hkey : (ofLex first).2 = e.key := by rw [hfirst]; rfl
  have hexp := expired_of_slot hne hle (t := now_ms) (by rw [hfirst] at hdue; exact hdue)
  refine ⟨e, he, hexp, ?_⟩
  have hany : (v.shard i).map[e.key]?.any (·.expired now_ms) = true := by
    rw [← hi]
    exact (Option.any_eq_true _ _).mpr ⟨e, he, hexp⟩
  have hremove : (v.setShard i { v.shard i with
      expiry := (v.shard i).expiry.erase (toLex (expiry_slot e.expires_ms, e.key)) }).remove i
        e.key = (true, v.dropped e) := by
    unfold get at he
    unfold remove Shard.take
    rw [shard_setShard]
    subst hi
    rw [he]
    dsimp only
    rw [Shard.without_erased _ hne]
    simp [dropped, setShard]
  conv_lhs => unfold purge_loop
  rw [h]
  dsimp only
  rw [if_pos hdue, hkey, if_pos hany, hfirst, hremove]
  simp

theorem lapses_purge_loop (hs : Sound others v) (hev : v.sh.expiry_events = false)
    (hlo : lo ≤ now_ms) (hlast : now_ms ≤ v.last) (n : Nat) (any : Bool) :
    Lapses lo v (purge_loop i now_ms n any v).2 ∧
      ((purge_loop i now_ms n any v).1 = true →
        any = true ∨ (purge_loop i now_ms n any v).2.mapped < v.mapped) := by
  induction n generalizing v any with
  | zero => exact ⟨.refl, .inl⟩
  | succ n ih =>
    rcases hlist : (v.shard i).expiry.toList with _ | ⟨first, rest⟩
    · unfold purge_loop
      rw [hlist]
      exact ⟨.refl, .inl⟩
    · by_cases hdue : mul_saturating (ofLex first).1 1000 ≤ now_ms
      · obtain ⟨e, he, hexp, heq⟩ := purge_loop_step hs hlist hdue n any
        rw [heq]
        have hlapse : Lapse lo v (v.dropped e) := .drop now_ms e he hlo hlast hexp (.inl hev)
        obtain ⟨hrest, -⟩ := ih (hlapse.sound hs) hev hlast true
        refine ⟨Relation.ReflTransGen.head hlapse hrest, fun _ => .inr ?_⟩
        have hle := Lapses.mapped_le hrest
        have hlt := mapped_dropped he
        omega
      · unfold purge_loop
        rw [hlist]
        dsimp only
        rw [if_neg hdue]
        exact ⟨.refl, .inl⟩

theorem lapses_purge (hs : Sound others v) (hlo : lo ≤ now_ms) (hlast : now_ms ≤ v.last) :
    Lapses lo v (v.purge i now_ms).2 ∧
      ((v.purge i now_ms).1 = true → (v.purge i now_ms).2.mapped < v.mapped) := by
  unfold purge
  by_cases hev : v.sh.expiry_events = true
  · rw [if_pos hev]
    exact ⟨.refl, fun h => by cases h⟩
  · rw [if_neg hev]
    obtain ⟨hlapses, hany⟩ := lapses_purge_loop (i := i) hs (Bool.not_eq_true _ ▸ hev) hlo hlast
      PURGE_BATCH false
    exact ⟨hlapses, fun h => (hany h).resolve_left (by decide)⟩

theorem lapses_purge_shards (hs : Sound others v) (hclock : Monotone v.sh.clock) (hlo : lo ≤ now_ms)
    (hlast : now_ms ≤ v.last) (shards : List (Fin SHARDS)) :
    Lapses lo v (purge_shards now_ms shards v).2 ∧
      ((purge_shards now_ms shards v).1 = true →
        (purge_shards now_ms shards v).2.mapped < v.mapped) := by
  induction shards generalizing v with
  | nil =>
    have hidle : Idle v { v with ns := { v.ns with purged_ms := max now_ms 1 } } :=
      ⟨{ Onward.refl v with }, rfl, rfl, rfl, rfl, rfl, rfl⟩
    exact ⟨hidle.lapses, fun h => by cases h⟩
  | cons i rest ih =>
    obtain ⟨hlapses, hany⟩ := lapses_purge (i := i) hs hlo hlast
    have hnote := idle_note_oldest (v.purge i now_ms).2 i
    unfold purge_shards
    dsimp only
    by_cases hfound : (v.purge i now_ms).1 = true
    · rw [if_pos hfound]
      refine ⟨hlapses.trans hnote.lapses, fun _ => ?_⟩
      rw [hnote.mapped]
      exact hany hfound
    · rw [if_neg hfound]
      have hall : Lapses lo v ((v.purge i now_ms).2.note_oldest i) := hlapses.trans hnote.lapses
      have hon := hall.onward
      obtain ⟨hrest, hmapped⟩ := ih (hall.sound hs) (hon.clock ▸ hclock)
        (hlast.trans (hon.last_le hclock))
      exact ⟨hall.trans hrest, fun h => (hmapped h).trans_le hall.mapped_le⟩

theorem lapses_purge_all (hs : Sound others v) (hclock : Monotone v.sh.clock) (hlo : lo ≤ v.now) :
    Lapses lo v v.purge_all.2 ∧ (v.purge_all.1 = true → v.purge_all.2.mapped < v.mapped) := by
  unfold purge_all
  by_cases hev : v.sh.expiry_events = true
  · rw [if_pos hev]
    exact ⟨.refl, fun h => by cases h⟩
  · rw [if_neg hev]
    dsimp only
    have htick := idle_ticked v
    split
    · exact ⟨htick.lapses, fun h => by cases h⟩
    · obtain ⟨hlapses, hmapped⟩ := lapses_purge_shards (htick.sound hs) hclock hlo
        (le_of_eq (last_ticked v).symm) (List.finRange SHARDS)
      exact ⟨htick.lapses.trans hlapses, fun h => (hmapped h).trans_eq htick.mapped⟩

/-! ## Keys held for their events -/

theorem head_used (hs : Sound others v) {u : Nat} {key : Key} {rest : List (Nat × Key)}
    (h : (v.shard i).used.toList = (u, key) :: rest) :
    v.ns.shard_of key = i ∧ ∃ e, v.get key = some e := by
  obtain ⟨-, e, he, -⟩ := ((hs.shards i).used_iff u key).mp (get_head h)
  obtain ⟨-, hi⟩ := (hs.shards i).key_of he
  refine ⟨hi, e, ?_⟩
  unfold get
  rw [hi]
  exact he

theorem lapses_hold_loop (hs : Sound others v) (hclock : Monotone v.sh.clock) (hlo : lo ≤ now_ms)
    (hlast : now_ms ≤ v.last) (n : Nat) (any : Bool) :
    Lapses lo v (hold_loop i now_ms n any v).2 := by
  induction n generalizing v any with
  | zero => exact .refl
  | succ n ih =>
    unfold hold_loop
    split
    · exact .refl
    · next key _ hlist =>
      split
      · next hany =>
        obtain ⟨e, he, hexp⟩ := (Option.any_eq_true _ _).mp hany
        obtain ⟨hi, -⟩ := head_used hs hlist
        subst hi
        obtain ⟨hlapse, -, -⟩ := lapse_expire hs he hlo hlast hexp
        have hon := hlapse.onward
        exact Relation.ReflTransGen.head hlapse (ih (hlapse.sound hs) (hon.clock ▸ hclock)
          (hlast.trans (hon.last_le hclock)) true)
      · exact .refl

theorem hold_loop_none {n : Nat} (h : (hold_loop i now_ms (n + 1) false v).1 = false) :
    (hold_loop i now_ms (n + 1) false v).2 = v ∧
      ∀ u key rest, (v.shard i).used.toList = (u, key) :: rest →
        ∀ e, (v.shard i).map[key]? = some e → e.expired now_ms = false := by
  have hkept : ∀ n v, (hold_loop i now_ms n true v).1 = true := by
    intro n
    induction n with
    | zero => exact fun _ => rfl
    | succ n ih =>
      intro v
      unfold hold_loop
      split
      · rfl
      · split
        · exact ih _
        · rfl
  unfold hold_loop at h ⊢
  rcases hlist : (v.shard i).used.toList with _ | ⟨⟨u, key⟩, rest⟩
  · refine ⟨rfl, fun u key rest hcons => ?_⟩
    cases hcons
  · rw [hlist] at h
    dsimp only at h ⊢
    by_cases hany : (v.shard i).map[key]?.any (·.expired now_ms) = true
    · rw [if_pos hany, hkept] at h
      cases h
    · rw [if_neg hany]
      refine ⟨rfl, fun u' key' rest' hcons e he => ?_⟩
      cases hcons
      cases hexp : e.expired now_ms with
      | false => rfl
      | true => exact absurd ((Option.any_eq_true _ _).mpr ⟨e, he, hexp⟩) hany

theorem lapses_hold_expired_oldest (hs : Sound others v) (hclock : Monotone v.sh.clock)
    (hlo : lo ≤ v.now) (i : Fin SHARDS) : Lapses lo v (v.hold_expired_oldest i).2.2 := by
  unfold hold_expired_oldest
  split
  · exact .refl
  · exact ((idle_ticked v).lapses).trans
      (lapses_hold_loop ((idle_ticked v).sound hs) hclock hlo (le_of_eq (last_ticked v).symm) _ _)

theorem hold_expired_oldest_none (h : (v.hold_expired_oldest i).1 = false) :
    (v.hold_expired_oldest i).2.1 = v.now ∧ Idle v (v.hold_expired_oldest i).2.2 ∧
      (v.sh.expiry_events = true → ∀ u key rest, (v.shard i).used.toList = (u, key) :: rest →
        ∀ e, (v.shard i).map[key]? = some e → e.expired v.now = false) := by
  unfold hold_expired_oldest at h ⊢
  cases hev : v.sh.expiry_events with
  | false => exact ⟨rfl, Idle.refl v, fun h => by cases h⟩
  | true =>
    rw [hev] at h
    obtain ⟨heq, hlive⟩ := hold_loop_none (v := v.ticked) (n := 63) h
    refine ⟨rfl, ?_, fun _ => hlive⟩
    change Idle v (hold_loop i v.now (63 + 1) false v.ticked).2
    rw [heq]
    exact idle_ticked v

/-! ## Evictions -/

/-- What an eviction comes to: moves that add no key to the maps, and a count where it found a
key. -/
structure Evicts (lo : Nat) (v : View) (out : Bool × View) : Prop where
  moves : Moves lo v out.2
  mapped_le : out.2.mapped ≤ v.mapped
  counts : out.1 = true → v.ns.evicted < out.2.ns.evicted

theorem evicts_entry (h : v.get e.key = some e) (hlo : lo ≤ t)
    (hlive : v.sh.expiry_events = true → e.expired t = false) {v' : View}
    (hnote : Idle (v.dropped e) v') : Evicts lo v (true, v'.evictedEntry (some e) t) := by
  have hev : v'.sh.expiry_events = v.sh.expiry_events := hnote.events
  have hmove : Move lo v (v.dropped e) := .evict t e h hlo (fun hev => .inl (hlive hev))
  have hcount : Idle v' (v'.evictedEntry (some e) t) :=
    idle_evictedEntry v' (fun h => hlive (hev ▸ h))
  refine ⟨(hmove.moves.trans hnote.moves).trans hcount.moves, ?_, fun _ => ?_⟩
  · have hmapped := mapped_dropped h
    rw [← hnote.mapped, ← hcount.mapped] at hmapped
    exact Nat.le_of_succ_le hmapped.le
  · exact Nat.lt_succ_of_le hnote.evicted_le

theorem Evicts.after {out : Bool × View} (hlapses : Lapses lo v v') (h : Evicts lo v' out) :
    Evicts lo v out :=
  ⟨hlapses.moves.trans h.moves, h.mapped_le.trans hlapses.mapped_le,
    fun hfound => hlapses.onward.evicted_le.trans_lt (h.counts hfound)⟩

theorem evicts_any (hs : Sound others v) (hlo : lo ≤ now_ms) (order : Fin SHARDS → List Key)
    (shards : List (Fin SHARDS)) : Evicts lo v (evict_any now_ms order shards v) := by
  induction shards with
  | nil => exact ⟨.refl, le_refl _, fun h => by cases h⟩
  | cons i rest ih =>
    unfold evict_any
    dsimp only
    split
    · next e hfound =>
      have hlive := List.find?_some hfound
      obtain ⟨key, -, he⟩ := List.mem_filterMap.mp
        (List.mem_of_mem_take (List.mem_of_find?_eq_some hfound))
      obtain ⟨hkey, hi⟩ := (hs.shards i).key_of he
      have hget : v.get e.key = some e := by
        unfold get
        rw [hkey, hi]
        exact he
      have hremove := remove_some hs hget
      rw [hkey, hi] at hremove
      rw [hkey, hremove]
      refine evicts_entry hget hlo (fun hev => ?_) (Idle.refl _)
      rw [hev] at hlive
      simpa using hlive
    · exact ih

theorem evicts_unordered (hs : Sound others v) (hlo : lo ≤ v.now) :
    Evicts lo v v.evict_unordered :=
  (evicts_any ((idle_ticked v).sound hs) hlo _ _).after (idle_ticked v).lapses

theorem evicts_loop (hs : Sound others v) (hclock : Monotone v.sh.clock) (hlo : lo ≤ v.now)
    (n : Nat) : Evicts lo v (evict_loop n v) := by
  induction n generalizing v with
  | zero => exact evicts_unordered hs hlo
  | succ n ih =>
    unfold evict_loop
    rcases holdest : v.oldest_shard with _ | i
    · exact evicts_unordered hs hlo
    · dsimp only
      have hlapses := lapses_hold_expired_oldest hs hclock hlo i
      rcases hheld : v.hold_expired_oldest i with ⟨any, now_ms, v₁⟩
      rw [hheld] at hlapses
      have hnote : Lapses lo v (v₁.note_oldest i) := hlapses.trans (idle_note_oldest v₁ i).lapses
      have hon := hnote.onward
      have hlo' := hlo.trans (hon.now_le hclock)
      cases any with
      | true => exact (ih (hnote.sound hs) (hon.clock ▸ hclock) hlo').after hnote
      | false =>
        obtain ⟨hnow, hidle, hlive⟩ := hold_expired_oldest_none (v := v) (i := i) (by rw [hheld])
        rw [hheld] at hnow hidle
        dsimp only at hnow hidle ⊢
        subst hnow
        split
        · exact (evicts_unordered (hnote.sound hs) hlo').after hnote
        · next key rest hlist =>
          obtain ⟨hi, e, he⟩ := head_used (hidle.sound hs) hlist
          have hremove := remove_some (hidle.sound hs) he
          have hkey := key_of_get (hidle.sound hs) he
          have hmap : (v₁.shard i).map[key]? = some e := by
            rw [← hi]
            exact he
          rw [hi] at hremove
          rw [hremove, hmap]
          dsimp only
          subst hkey
          refine Evicts.after hidle.lapses (evicts_entry he hlo ?_ (idle_note_oldest _ _))
          intro hev
          rw [hidle.shard i] at hlist hmap
          exact hlive (hidle.events ▸ hev) _ _ _ hlist e hmap

theorem evicts_one (hs : Sound others v) (hclock : Monotone v.sh.clock) (hlo : lo ≤ v.now) :
    Evicts lo v v.evict_one := evicts_loop hs hclock hlo _

end View

end mqttd.rule_state.local_store
