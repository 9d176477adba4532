-- Local namespaces over whole runs, with calls and sweeps in any order: they answer as plain
-- maps with expiry do, their orders name the keys that the plain maps hold, and their counts
-- are the totals over the keys in the maps and the keys held for their events.
import MqttBroker.RuleState.LocalRefines
import MqttBroker.RuleState.LocalRuns

namespace mqttd.rule_state.local_store

open mqtt_rules BTreeMap

/-! ## What the runs of the plain maps are -/

def Plain.empty : Plain := fun _ => none

/-- The answers of a run of the store from `s` are those of the plain maps `ms`, which the run
leaves as `ms'`: each call is answered at readings of the clock that were made during it. -/
def Refines (est : Estimate) : List Event → Store → List Plain → List Plain → Prop
  | [], _, ms, ms' => ms' = ms
  | .Call n settings op :: es, s, ms, ms' =>
    match ms[n]? with
    | none => (s.call est n settings op).1 = none ∧
        Refines est es (s.call est n settings op).2 ms ms'
    | some m => ∃ i j, s.shared.reads ≤ i ∧ i ≤ j ∧
        j < (s.call est n settings op).2.shared.reads ∧
        (s.call est n settings op).1 =
          some (m.call est settings op (s.shared.clock i) (s.shared.clock j)).1 ∧
        Refines est es (s.call est n settings op).2
          (ms.set n (m.call est settings op (s.shared.clock i) (s.shared.clock j)).2) ms'
  | e :: es, s, ms, ms' => Refines est es (s.step est e).2 ms ms'

def InMaps (ns : Namespace) (key : Key) : Prop :=
  ∃ e, (ns.shards (ns.shard_of key)).map[key]? = some e

/-- The orders of the shards name the keys as the plain map has them. -/
structure Named (ns : Namespace) (m : Plain) (now_ms : Nat) : Prop where
  held : ∀ {key}, InMaps ns key → ∃ h, m key = some h
  live : ∀ {key h}, m key = some h → h.expired now_ms = false → InMaps ns key
  expiry : ∀ (i : Fin SHARDS) (slot : Nat) (key : Key), toLex (slot, key) ∈ (ns.shards i).expiry ↔
    ns.shard_of key = i ∧ InMaps ns key ∧
      ∃ h, m key = some h ∧ h.expires_ms ≠ 0 ∧ expiry_slot h.expires_ms = slot
  used : ∀ (i : Fin SHARDS) (key : Key), (∃ u : Nat, (ns.shards i).used[u]? = some key) ↔
    ns.shard_of key = i ∧ InMaps ns key ∧ ∃ h, m key = some h ∧ h.lru = true
  used_once : ∀ {i : Fin SHARDS} {u u' : Nat} {key : Key}, (ns.shards i).used[u]? = some key →
    (ns.shards i).used[u']? = some key → u = u'

def bytesOf {κ : Type} [LinearOrder κ] (m : BTreeMap κ Entry) : Nat :=
  (m.toList.map (fun x => x.2.bytes)).sum

/-- The counts are the totals over the keys in the maps and the keys that are held. -/
structure Counted (ns : Namespace) : Prop where
  keys : ns.keys = ∑ i, ((ns.shards i).map.size + (ns.shards i).held.size)
  bytes : ns.bytes = ∑ i, (bytesOf (ns.shards i).map + bytesOf (ns.shards i).held)

variable {s s' : Store} {n : Nat} {ns : Namespace} {m : Plain} {ms : List Plain} {est : Estimate}
  {others : Nat} {v v' : View}

/-! ## What the invariant says -/

theorem bytesOf_eq {κ : Type} [LinearOrder κ] (m : BTreeMap κ Entry) :
    bytesOf m = ((BTreeMap.bag m).map Entry.bytes).sum := by
  unfold bytesOf BTreeMap.bag
  rw [Multiset.map_coe, Multiset.sum_coe, List.map_map]
  rfl

theorem sum_bytes {ι : Type} (t : Finset ι) (f : ι → Multiset Entry) :
    ((∑ i ∈ t, f i).map Entry.bytes).sum = ∑ i ∈ t, ((f i).map Entry.bytes).sum :=
  map_sum (Multiset.sumAddMonoidHom.comp (Multiset.mapAddMonoidHom Entry.bytes)) f t

theorem counted_of_sound (hs : View.Sound others v) : Counted v.ns := by
  have hkeys := hs.account.keys
  have hbytes := hs.account.bytes
  unfold View.present at hkeys hbytes
  constructor
  · rw [hkeys, Multiset.card_sum]
    refine Finset.sum_congr rfl (fun i _ => ?_)
    unfold Shard.bag
    rw [Multiset.card_add, card_bag, card_bag]
    rfl
  · rw [hbytes, sum_bytes]
    refine Finset.sum_congr rfl (fun i _ => ?_)
    unfold Shard.bag
    rw [Multiset.map_add, Multiset.sum_add, bytesOf_eq, bytesOf_eq]
    rfl

theorem named_of_agrees (hs : View.Sound others v) (h : Agrees v m) : Named v.ns m v.last where
  held := by
    rintro key ⟨e, he⟩
    exact ⟨heldOf e, h.same he⟩
  live hm hlive := h.live hm hlive
  expiry i slot key := by
    refine ((hs.shards i).expiry_iff slot key).trans ?_
    constructor
    · rintro ⟨e, he, hne, hslot⟩
      obtain ⟨-, hi⟩ := (hs.shards i).key_of he
      have hget : v.get key = some e := by
        unfold View.get
        rw [hi]
        exact he
      exact ⟨hi, ⟨e, hget⟩, heldOf e, h.same hget, hne, hslot⟩
    · rintro ⟨rfl, ⟨e, he⟩, held, hm, hne, hslot⟩
      cases (h.same he).symm.trans hm
      exact ⟨e, he, hne, hslot⟩
  used i key := by
    constructor
    · rintro ⟨u, hu⟩
      obtain ⟨hu0, e, he, rfl⟩ := ((hs.shards i).used_iff u key).mp hu
      obtain ⟨-, hi⟩ := (hs.shards i).key_of he
      have hget : v.get key = some e := by
        unfold View.get
        rw [hi]
        exact he
      exact ⟨hi, ⟨e, hget⟩, heldOf e, h.same hget, decide_eq_true hu0⟩
    · rintro ⟨rfl, ⟨e, he⟩, held, hm, hlru⟩
      cases (h.same he).symm.trans hm
      exact ⟨e.used, ((hs.shards _).used_iff e.used key).mpr ⟨of_decide_eq_true hlru, e, he, rfl⟩⟩
  used_once {i u u' key} hu hu' := by
    obtain ⟨-, e, he, rfl⟩ := ((hs.shards i).used_iff u key).mp hu
    obtain ⟨-, e', he', rfl⟩ := ((hs.shards i).used_iff u' key).mp hu'
    cases he.symm.trans he'
    rfl

/-! ## Events -/

structure Agreeing (s : Store) (ms : List Plain) : Prop where
  length : ms.length = s.namespaces.length
  each : ∀ {n : Nat} {ns : Namespace} {m : Plain}, s.namespaces[n]? = some ns → ms[n]? = some m →
    Agrees ⟨s.shared, ns⟩ m

/-- What a sweep takes out has expired in the plain map too. -/
theorem Agrees.gone {T : Multiset Entry} {now_ms : Nat} (h : Agrees v m)
    (hclock : Monotone v.sh.clock) (hgone : View.Gone now_ms v T v') (hlast : v'.last = now_ms) :
    Agrees v' m where
  same {k e} hk := by
    rcases hgone.get k with heq | ⟨hnone, -⟩
    · exact h.same (heq ▸ hk)
    · rw [hnone] at hk
      cases hk
  live {k held} hk hlive := by
    obtain ⟨e, he⟩ := h.live hk (held_expired_mono hlive (hgone.onward.last_le hclock))
    rcases hgone.get k with heq | ⟨-, e', he', hget⟩
    · exact ⟨e, heq.trans he⟩
    · have hheld := h.same hget
      rw [hk] at hheld
      cases hheld
      obtain ⟨hne, hle, hdue⟩ := hgone.due e' he'
      rw [hlast, expired_heldOf, View.expired_of_slot hne hle hdue] at hlive
      cases hlive

theorem Agreeing.sweep (h : Agreeing s ms) (hs : s.Sound) (hclock : Monotone s.shared.clock)
    (max : Nat) : Agreeing (s.sweep est max).2 ms := by
  obtain ⟨taken, hsweeps⟩ := Store.sweeps est hs max
  refine ⟨h.length.trans hsweeps.length.symm, fun {n ns m} hns hm => ?_⟩
  obtain ⟨ns₀, h₀⟩ : ∃ ns₀, s.namespaces[n]? = some ns₀ := by
    have hlt := (List.getElem?_eq_some_iff.mp hns).1
    exact ⟨_, List.getElem?_eq_getElem (hsweeps.length ▸ hlt)⟩
  refine (h.each h₀ hm).gone hclock (hsweeps.gone h₀ hns) ?_
  unfold View.last
  rw [hsweeps.reads, hsweeps.clock]
  rfl

theorem Agreeing.brownout (h : Agreeing s ms) (hclock : Monotone s.shared.clock) (on : Bool) :
    Agreeing (s.step est (.Brownout on)).2 ms :=
  ⟨h.length, fun hns hm => (h.each hns hm).onward (View.onward_shared _ rfl rfl (le_refl _)) hclock
    (fun _ => rfl)⟩

theorem Agreeing.call {settings : NamespaceSettings} {op : StateOp} (h : Agreeing s ms)
    (hs : s.Sound) (hclock : Monotone s.shared.clock) (hns : s.namespaces[n]? = some ns)
    (hm : ms[n]? = some m) (hun : Unrefused (s.called est ns settings op).2.ns) :
    ∃ i j, s.shared.reads ≤ i ∧ i ≤ j ∧ j < (s.call est n settings op).2.shared.reads ∧
      (s.call est n settings op).1 =
        some (m.call est settings op (s.shared.clock i) (s.shared.clock j)).1 ∧
      Agreeing (s.call est n settings op).2
        (ms.set n (m.call est settings op (s.shared.clock i) (s.shared.clock j)).2) := by
  obtain ⟨others, hsound⟩ := hs.each hns
  obtain ⟨i, j, hi, hij, hj, hanswer, hagrees⟩ := (h.each hns hm).call est hsound hclock op hun
  obtain ⟨-, hon⟩ := @Store.call_sound s est settings op hs hclock n
  have hcall := @Store.call_eq s n ns est settings op hns
  refine ⟨i, j, hi, hij, ?_, ?_, ?_⟩
  · rw [hcall]
    exact hj
  · rw [hcall]
    exact congrArg some hanswer
  · refine ⟨by rw [List.length_set, h.length, hon.length], fun {k ns' m'} hk hm' => ?_⟩
    rcases Store.get_call hns hk with ⟨rfl, hview⟩ | ⟨hne, hsame⟩
    · rw [List.getElem?_set_self (List.getElem?_eq_some_iff.mp hm).1] at hm'
      cases hm'
      rw [hview]
      exact hagrees
    · rw [List.getElem?_set_ne (Ne.symm hne)] at hm'
      exact (h.each hsame hm').onward (hon.each hsame hk) hclock (fun _ => rfl)

/-! ## Runs -/

theorem unrefused_before (hon : s.Onward s') (hun : ∀ ns ∈ s'.namespaces, Unrefused ns) :
    ∀ ns ∈ s.namespaces, Unrefused ns := by
  intro ns hns
  obtain ⟨n, hn⟩ := List.mem_iff_getElem?.mp hns
  obtain ⟨ns', hn'⟩ : ∃ ns', s'.namespaces[n]? = some ns' := by
    have hlt := (List.getElem?_eq_some_iff.mp hn).1
    exact ⟨_, List.getElem?_eq_getElem (hon.length ▸ hlt)⟩
  exact Unrefused.before (hon.each hn hn') (hun ns' (List.mem_of_getElem? hn'))

theorem run_refines (h : Agreeing s ms) (hs : s.Sound) (hclock : Monotone s.shared.clock)
    (es : List Event) (hun : ∀ ns ∈ (s.run est es).2.namespaces, Unrefused ns) :
    ∃ ms', Refines est es s ms ms' ∧ Agreeing (s.run est es).2 ms' := by
  induction es generalizing s ms with
  | nil => exact ⟨ms, rfl, h⟩
  | cons e es ih =>
    obtain ⟨hs', hon⟩ := @Store.step_sound s est hs hclock e
    have hclock' : Monotone (s.step est e).2.shared.clock := hon.clock ▸ hclock
    obtain ⟨-, hon'⟩ := @Store.run_sound _ est hs' hclock' es
    have hun' := unrefused_before hon' hun
    cases e with
    | Call n settings op =>
      unfold Refines
      rcases hm : ms[n]? with _ | m
      · have hnone : s.namespaces[n]? = none := by
          rw [List.getElem?_eq_none_iff, ← h.length]
          exact List.getElem?_eq_none_iff.mp hm
        have hcall : s.call est n settings op = (none, s) := by
          unfold Store.call
          rw [hnone]
        have hnext : Agreeing (s.call est n settings op).2 ms := by
          rw [hcall]
          exact h
        obtain ⟨ms', hrefines, hagreeing⟩ := ih hnext hs' hclock' hun
        exact ⟨ms', ⟨by rw [hcall], hrefines⟩, hagreeing⟩
      · obtain ⟨ns, hns⟩ : ∃ ns, s.namespaces[n]? = some ns := by
          have hlt := (List.getElem?_eq_some_iff.mp hm).1
          exact ⟨_, List.getElem?_eq_getElem (h.length ▸ hlt)⟩
        have hafter : Unrefused (s.called est ns settings op).2.ns := by
          apply hun'
          change _ ∈ (s.call est n settings op).2.namespaces
          rw [Store.call_eq hns]
          exact List.mem_set (List.getElem?_eq_some_iff.mp hns).1 _
        obtain ⟨i, j, hi, hij, hj, hanswer, hnext⟩ := h.call hs hclock hns hm hafter
        obtain ⟨ms', hrefines, hagreeing⟩ := ih hnext hs' hclock' hun
        exact ⟨ms', ⟨i, j, hi, hij, hj, hanswer, hrefines⟩, hagreeing⟩
    | Sweep max => exact ih (h.sweep hs hclock max) hs' hclock' hun
    | Brownout on => exact ih (h.brownout hclock on) hs' hclock' hun

theorem agreeing_fresh (h : s.Fresh) : Agreeing s (s.namespaces.map (fun _ => Plain.empty)) := by
  refine ⟨List.length_map _, fun {n ns m} hns hm => ?_⟩
  have hempty : m = Plain.empty := by
    rw [List.getElem?_map, hns] at hm
    exact (Option.some.inj hm).symm
  subst hempty
  refine ⟨fun {key e} hk => ?_, fun hm => by cases hm⟩
  rw [h.empty ns (List.mem_of_getElem? hns)] at hk
  simp [View.get, View.shard] at hk

/-- A local namespace is a map with expiry. In every run of calls and sweeps on a fresh store in
which no key is refused or evicted for room, each call answers what a plain map with expiry
answers; and at the end of it, so after every call, the orders of the shards name the keys that
expire, each at its second, and the keys that were used under `lru`, and the counts are the
totals over the keys in the maps and the keys held for their events. -/
theorem local_namespace_is_a_map_with_expiry (est : Estimate) (s : Store) (events : List Event)
    (hfresh : s.Fresh) (hclock : Monotone s.shared.clock)
    (hun : ∀ ns ∈ (s.run est events).2.namespaces, Unrefused ns) :
    ∃ ms, Refines est events s (s.namespaces.map (fun _ => Plain.empty)) ms ∧
      ms.length = (s.run est events).2.namespaces.length ∧
      (∀ (n : Nat) (ns : Namespace) (m : Plain), (s.run est events).2.namespaces[n]? = some ns →
        ms[n]? = some m →
        Named ns m (View.last ⟨(s.run est events).2.shared, ns⟩) ∧ Counted ns) ∧
      (s.run est events).2.shared.bytes =
        ((s.run est events).2.namespaces.map (·.bytes)).sum := by
  have hs := Store.sound_fresh hfresh
  obtain ⟨hs', -⟩ := @Store.run_sound s est hs hclock events
  obtain ⟨ms, hrefines, hagreeing⟩ := run_refines (agreeing_fresh hfresh) hs hclock events hun
  refine ⟨ms, hrefines, hagreeing.length, fun n ns m hns hm => ?_, hs'.total⟩
  obtain ⟨others, hsound⟩ := hs'.each hns
  exact ⟨named_of_agrees hsound (hagreeing.each hns hm), counted_of_sound hsound⟩

/-- A value that expires, a counter that counts a message once, and a sweep. -/
def someEvents : List Event :=
  [.Call 0 lruSettings (.Set [1] ⟨.Int 7, 8⟩ (some 1)), .Call 0 lruSettings (.Get [1]),
    .Call 0 lruSettings (.IncrOnce [2] 3 none [9]), .Call 0 lruSettings (.IncrOnce [2] 3 none [9]),
    .Sweep 10, .Call 0 lruSettings (.Get [2])]

theorem local_namespace_is_a_map_with_expiry_live :
    ∃ ms, Refines ⟨fun _ => 0⟩ someEvents (oneNamespace true) [Plain.empty] ms ∧ ms.length = 1 := by
  have hall : ((oneNamespace true).run ⟨fun _ => 0⟩ someEvents).2.namespaces.all (fun ns =>
      ns.evicted == 0 && ns.refused .NamespaceFull == 0 && ns.refused .StoreFull == 0 &&
        ns.refused .Brownout == 0) = true := by decide +kernel
  have hun : ∀ ns ∈ ((oneNamespace true).run ⟨fun _ => 0⟩ someEvents).2.namespaces,
      Unrefused ns := by
    intro ns hns
    have h := List.all_eq_true.mp hall ns hns
    simp only [Bool.and_eq_true, beq_iff_eq] at h
    obtain ⟨⟨⟨hevicted, hns⟩, hstore⟩, hbrown⟩ := h
    refine ⟨hevicted, fun refusal hfull => ?_⟩
    rcases hfull with rfl | rfl | rfl
    · exact hns
    · exact hstore
    · exact hbrown
  obtain ⟨ms, hrefines, hlen, -, -⟩ := local_namespace_is_a_map_with_expiry ⟨fun _ => 0⟩
    (oneNamespace true) someEvents (oneNamespace_fresh true) (oneNamespace_clock true) hun
  refine ⟨ms, hrefines, hlen.trans ?_⟩
  decide +kernel

end mqttd.rule_state.local_store
