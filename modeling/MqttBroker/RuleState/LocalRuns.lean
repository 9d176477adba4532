-- Runs of the store: each event keeps the invariant of every namespace, and what a sweep
-- returns is what it has taken out of the namespaces.
import MqttBroker.RuleState.LocalCalls
import MqttBroker.RuleState.LocalDue

namespace mqttd.rule_state.local_store

open mqtt_rules BTreeMap

/-! ## Sums over the namespaces -/

variable {α : Type} {l : List α} {a : α}

theorem sum_set {n : Nat} (f : α → Nat) (b : α) (h : l[n]? = some a) :
    ((l.set n b).map f).sum + f a = (l.map f).sum + f b := by
  induction l generalizing n with
  | nil => cases h
  | cons x l ih =>
    cases n with
    | zero =>
      simp only [List.getElem?_cons_zero, Option.some.injEq] at h
      subst h
      simp only [List.set_cons_zero, List.map_cons, List.sum_cons]
      omega
    | succ n =>
      have := ih h
      simp only [List.set_cons_succ, List.map_cons, List.sum_cons]
      omega

theorem le_sum {n : Nat} (f : α → Nat) (h : l[n]? = some a) : f a ≤ (l.map f).sum :=
  List.le_sum_of_mem (List.mem_map_of_mem (List.mem_of_getElem? h))

/-! ## The invariant of a store -/

open Sweeping (takenOf)

/-- The invariant of a store, with the entries of `owed` taken out and not yet given back. -/
structure Store.Holding (s : Store) (owed : List (Nat × Entry)) : Prop where
  each : ∀ {n : Nat} {ns : Namespace}, s.namespaces[n]? = some ns →
    ∃ others, View.Holds others ⟨s.shared, ns⟩ (View.present ⟨s.shared, ns⟩ + takenOf owed n)
  total : s.shared.bytes = (s.namespaces.map (·.bytes)).sum

def Store.Sound (s : Store) : Prop := s.Holding []

variable {s s' : Store} {n : Nat} {ns : Namespace}

theorem Store.Sound.each (hs : s.Sound) (h : s.namespaces[n]? = some ns) :
    ∃ others, View.Sound others ⟨s.shared, ns⟩ := by
  obtain ⟨others, hholds⟩ := Holding.each hs h
  refine ⟨others, ?_⟩
  have hzero : takenOf [] n = 0 := rfl
  rwa [hzero, add_zero] at hholds

variable {others : Nat} {sh sh' : Shared}

theorem View.Holds.share {M : Multiset Entry} (h : View.Holds others ⟨sh, ns⟩ M)
    (hle : ns.bytes ≤ sh'.bytes) : ∃ others', View.Holds others' ⟨sh', ns⟩ M :=
  ⟨sh'.bytes - ns.bytes, h.shards, ⟨h.account.keys, h.account.bytes, (Nat.sub_add_cancel hle).symm⟩,
    h.lives_lt, h.lives_nodup⟩

variable {v : View}

theorem Store.Holding.set {owed owed' : List (Nat × Entry)} (hs : s.Holding owed)
    (h : s.namespaces[n]? = some ns) (hothers : s.shared.bytes = others + ns.bytes)
    (hv : View.Holds others v (v.present + takenOf owed' n))
    (howed : ∀ k, k ≠ n → takenOf owed' k = takenOf owed k) :
    Store.Holding { shared := v.sh, namespaces := s.namespaces.set n v.ns } owed' := by
  have htotal : v.sh.bytes = ((s.namespaces.set n v.ns).map (·.bytes)).sum := by
    have hsum := sum_set (·.bytes) v.ns h
    have hv := hv.account.total
    have := hs.total
    omega
  refine ⟨fun {k ns'} hk => ?_, htotal⟩
  by_cases hkn : n = k
  · subst hkn
    rw [List.getElem?_set_self (List.getElem?_eq_some_iff.mp h).1] at hk
    cases hk
    exact ⟨others, hv⟩
  · have hle := le_sum (·.bytes) hk
    rw [← htotal] at hle
    rw [List.getElem?_set_ne hkn] at hk
    obtain ⟨others', hholds⟩ := hs.each hk
    have hpresent : View.present ⟨v.sh, ns'⟩ = View.present ⟨s.shared, ns'⟩ :=
      View.present_congr rfl
    rw [hpresent, howed k (Ne.symm hkn)]
    exact hholds.share hle

/-! ## What a sweep gives back -/

variable {est : Estimate} {now_ms : Nat}

/-- What it means for a sweep to be done with a namespace: the entries of `T` are gone. -/
structure View.Gone (now_ms : Nat) (v : View) (T : Multiset Entry) (v' : View) : Prop where
  onward : Onward v v'
  lives : v'.ns.lives = v.ns.lives
  present_eq : v.present = T + v'.present
  due : ∀ e ∈ T, e.Due now_ms
  get : ∀ k, v'.get k = v.get k ∨ v'.get k = none ∧ ∃ e ∈ T, v.get k = some e

/-- Only the counts differ. -/
structure Recounted (ns ns' : Namespace) : Prop where
  shard_of : ns'.shard_of = ns.shard_of
  name : ns'.name = ns.name
  shards : ns'.shards = ns.shards
  lives : ns'.lives = ns.lives
  refused : ns'.refused = ns.refused
  evicted : ns'.evicted = ns.evicted
  evictions : ns'.evictions = ns.evictions

theorem Recounted.refl (ns : Namespace) : Recounted ns ns := ⟨rfl, rfl, rfl, rfl, rfl, rfl, rfl⟩

theorem Recounted.trans {ns' ns'' : Namespace} (h : Recounted ns ns') (h' : Recounted ns' ns'') :
    Recounted ns ns'' :=
  ⟨h'.shard_of.trans h.shard_of, h'.name.trans h.name, h'.shards.trans h.shards,
    h'.lives.trans h.lives, h'.refused.trans h.refused, h'.evicted.trans h.evicted,
    h'.evictions.trans h.evictions⟩

variable {v' : View} {T : Multiset Entry}

theorem View.Took.gone {ns : Namespace} (h : View.Took now_ms v T v') (hns : Recounted v'.ns ns)
    (hclock : sh.clock = v.sh.clock) (hevents : sh.expiry_events = v.sh.expiry_events)
    (hreads : v.sh.reads ≤ sh.reads) : View.Gone now_ms v T ⟨sh, ns⟩ := by
  obtain ⟨hon, -, -, -, -, hlives⟩ := h.idle
  have hpresent : View.present ⟨sh, ns⟩ = v'.present := View.present_congr hns.shards
  have hget : ∀ k, View.get ⟨sh, ns⟩ k = v'.get k := by
    intro k
    unfold View.get View.shard
    rw [hns.shards, hns.shard_of]
  refine ⟨?_, hns.lives.trans hlives, by rw [hpresent]; exact h.present_eq, h.due, fun k => ?_⟩
  · refine ⟨hns.shard_of.trans hon.shard_of, hns.name.trans hon.name, hevents, hclock, hreads,
      ?_, fun r => ?_, ?_, fun heq => ?_, fun hev x hx => ?_⟩
    · rw [hns.lives]
      exact hon.lives_le
    · rw [hns.refused]
      exact hon.refused_le r
    · rw [hns.evicted]
      exact hon.evicted_le
    · rw [hns.evicted, hns.evictions]
      exact hon.evicted_eq heq
    · rw [hns.evictions] at hx
      exact hon.unexpired hev x hx
  · rw [hget]
    exact h.get k

/-- The reading of the clock comes first. -/
theorem View.Gone.untick (h : View.Gone now_ms v.ticked T v') : View.Gone now_ms v T v' := by
  have htick := View.idle_ticked v
  refine ⟨htick.toOnward.trans h.onward, h.lives, ?_, h.due, fun k => ?_⟩
  · rw [← htick.present]
    exact h.present_eq
  · rw [← htick.get]
    exact h.get k

theorem mul_saturating_mono {a b c : Nat} (h : a ≤ b) : mul_saturating a c ≤ mul_saturating b c := by
  unfold mul_saturating
  exact min_le_min_right _ (Nat.mul_le_mul_right c h)

namespace Sweeping

variable {st : Sweeping} {e : Entry}

def reportOf (est : Estimate) (namespaces : List Namespace) (x : Nat × Entry) : Option Expired :=
  if remembered x.2.key then none
  else namespaces[x.1]?.map (fun ns => Expired.ofEntry est ns.name x.1 x.2)

theorem takenOf_cons_self (x : Nat × Entry) (rest : List (Nat × Entry)) :
    takenOf (x :: rest) x.1 = x.2 ::ₘ takenOf rest x.1 := by
  simp [takenOf]

theorem takenOf_cons_other (x : Nat × Entry) (rest : List (Nat × Entry)) {k : Nat} (h : k ≠ x.1) :
    takenOf (x :: rest) k = takenOf rest k := by
  simp [takenOf, Ne.symm h]

/-- What handing over has done to the store that the batches left. -/
structure Handed (est : Estimate) (s : Store) (owed : List (Nat × Entry)) (st : Sweeping) : Prop where
  holding : st.store.Holding owed
  length : st.store.namespaces.length = s.namespaces.length
  recounted : ∀ {n : Nat} {ns₀ ns : Namespace}, s.namespaces[n]? = some ns₀ →
    st.store.namespaces[n]? = some ns → Recounted ns₀ ns
  clock : st.store.shared.clock = s.shared.clock
  events : st.store.shared.expiry_events = s.shared.expiry_events
  reads : st.store.shared.reads = s.shared.reads

theorem handed_step {x : Nat × Entry} {owed : List (Nat × Entry)}
    (h : Handed est s (x :: owed) st) (hplace : x.1 < s.namespaces.length) :
    Handed est s owed (st.handOver est x.1 x.2) ∧
      (st.handOver est x.1 x.2).swept.more = st.swept.more ∧
      (s.shared.expiry_events = true → (st.handOver est x.1 x.2).swept.expired =
        st.swept.expired ++ (reportOf est s.namespaces x).toList) := by
  obtain ⟨ns, hns⟩ : ∃ ns, st.store.namespaces[x.1]? = some ns :=
    ⟨_, List.getElem?_eq_getElem (h.length ▸ hplace)⟩
  obtain ⟨others, hholds⟩ := h.holding.each hns
  have hrelease : View.Holds others ((View.mk st.store.shared ns).release x.2)
      (((View.mk st.store.shared ns).release x.2).present + takenOf owed x.1) := by
    have hpresent : ((View.mk st.store.shared ns).release x.2).present =
        View.present ⟨st.store.shared, ns⟩ := View.present_congr rfl
    rw [takenOf_cons_self, Multiset.add_cons] at hholds
    rw [hpresent]
    obtain ⟨hlt, hnodup, -⟩ := View.lives_of_cons hholds.lives_lt hholds.lives_nodup
    exact ⟨hholds.shards, hholds.account.release, hlt, hnodup⟩
  have hholding := h.holding.set hns hholds.account.total hrelease
    (fun k hk => (takenOf_cons_other x owed hk).symm)
  have hset : ∀ {k : Nat} {ns₀ ns' : Namespace}, s.namespaces[k]? = some ns₀ →
      (st.store.namespaces.set x.1 ((View.mk st.store.shared ns).release x.2).ns)[k]? = some ns' →
      Recounted ns₀ ns' := by
    intro k ns₀ ns' h₀ h'
    by_cases hk : x.1 = k
    · subst hk
      rw [List.getElem?_set_self (List.getElem?_eq_some_iff.mp hns).1] at h'
      cases h'
      exact (h.recounted h₀ hns).trans ⟨rfl, rfl, rfl, rfl, rfl, rfl, rfl⟩
    · rw [List.getElem?_set_ne hk] at h'
      exact h.recounted h₀ h'
  have hhanded : Handed est s owed { st with store :=
      { shared := ((View.mk st.store.shared ns).release x.2).sh
        namespaces := st.store.namespaces.set x.1
          ((View.mk st.store.shared ns).release x.2).ns } } :=
    ⟨hholding, List.length_set.trans h.length, hset, h.clock, h.events, h.reads⟩
  have hname : reportOf est s.namespaces x = if remembered x.2.key then none
      else some (Expired.ofEntry est ns.name x.1 x.2) := by
    have h₀ := List.getElem?_eq_getElem hplace
    unfold reportOf
    rw [h₀, (h.recounted h₀ hns).name]
    rfl
  unfold handOver
  rw [hns]
  dsimp only
  by_cases hreport : (st.store.shared.expiry_events && !remembered x.2.key) = true
  · rw [if_pos hreport]
    refine ⟨⟨hhanded.holding, hhanded.length, hhanded.recounted, hhanded.clock, hhanded.events,
      hhanded.reads⟩, rfl, fun _ => ?_⟩
    simp only [Bool.and_eq_true, Bool.not_eq_true'] at hreport
    rw [hname, hreport.2]
    rfl
  · rw [if_neg hreport]
    refine ⟨⟨hhanded.holding, hhanded.length, hhanded.recounted, hhanded.clock, hhanded.events,
      hhanded.reads⟩, rfl, fun hev => ?_⟩
    rw [h.events, hev] at hreport
    simp only [Bool.true_and, Bool.not_eq_true', Bool.not_eq_false] at hreport
    rw [hname, hreport]
    simp

theorem handed_all {owed : List (Nat × Entry)} (h : Handed est s owed st)
    (hplaces : ∀ x ∈ owed, x.1 < s.namespaces.length) :
    Handed est s [] (owed.foldl (fun st x => st.handOver est x.1 x.2) st) ∧
      (owed.foldl (fun st x => st.handOver est x.1 x.2) st).swept.more = st.swept.more ∧
      (s.shared.expiry_events = true →
        (owed.foldl (fun st x => st.handOver est x.1 x.2) st).swept.expired =
          st.swept.expired ++ owed.filterMap (reportOf est s.namespaces)) := by
  induction owed generalizing st with
  | nil => exact ⟨h, rfl, fun _ => by simp⟩
  | cons x owed ih =>
    obtain ⟨hone, hmore, hexpired⟩ := handed_step h (hplaces x List.mem_cons_self)
    obtain ⟨hall, hmore', hexpired'⟩ := ih hone (fun y hy => hplaces y (List.mem_cons_of_mem _ hy))
    refine ⟨hall, hmore'.trans hmore, fun hev => ?_⟩
    rw [List.foldl_cons, hexpired' hev, hexpired hev, List.append_assoc, List.filterMap_cons]
    cases reportOf est s.namespaces x <;> rfl

end Sweeping

/-! ## A whole sweep -/

/-- What a sweep of the store `s` comes to. -/
structure Store.Sweeps (est : Estimate) (s : Store) (taken : List (Nat × Entry))
    (out : Swept × Store) : Prop where
  sound : out.2.Sound
  length : out.2.namespaces.length = s.namespaces.length
  clock : out.2.shared.clock = s.shared.clock
  events : out.2.shared.expiry_events = s.shared.expiry_events
  reads : out.2.shared.reads = s.shared.reads + 1
  gone : ∀ {n : Nat} {ns₀ ns : Namespace}, s.namespaces[n]? = some ns₀ →
    out.2.namespaces[n]? = some ns →
    View.Gone (s.shared.clock s.shared.reads) ⟨s.shared, ns₀⟩ (takenOf taken n)
      ⟨out.2.shared, ns⟩
  places : ∀ x ∈ taken, x.1 < s.namespaces.length
  sorted : taken.Pairwise (fun x y => expiry_slot x.2.expires_ms ≤ expiry_slot y.2.expires_ms)
  expired : s.shared.expiry_events = true →
    out.1.expired = taken.filterMap (Sweeping.reportOf est s.namespaces)
  done : out.1.more = false → ∀ {n : Nat} {ns : Namespace}, out.2.namespaces[n]? = some ns →
    ∀ e ∈ View.present ⟨out.2.shared, ns⟩, ¬ e.Due (s.shared.clock s.shared.reads)

/-- After the batches, the entries that they took are still accounted. -/
theorem Sweeping.Fine.holding {st : Sweeping} (hfine : Fine now_ms s st) (hs : s.Sound) :
    st.store.Holding st.taken := by
  have hlook : ∀ {n : Nat} {ns : Namespace}, st.store.namespaces[n]? = some ns →
      ∃ ns₀, s.namespaces[n]? = some ns₀ := by
    intro n ns hns
    have hlt := (List.getElem?_eq_some_iff.mp hns).1
    exact ⟨_, List.getElem?_eq_getElem (hfine.length ▸ hlt)⟩
  constructor
  · intro n ns hns
    obtain ⟨ns₀, h₀⟩ := hlook hns
    obtain ⟨others, hholds⟩ := hs.each h₀
    have htook := hfine.took h₀ hns
    obtain ⟨-, -, hkeys, hbytes, -, hlives⟩ := htook.idle
    have hM : View.present ⟨s.shared, ns₀⟩ =
        View.present ⟨s.shared, ns⟩ + takenOf st.taken n := by
      rw [htook.present_eq, add_comm]
    unfold View.Sound at hholds
    rw [hM] at hholds
    rw [hfine.shared]
    refine ⟨others, htook.shards, ⟨hkeys.trans hholds.account.keys,
      hbytes.trans hholds.account.bytes, ?_⟩, ?_, hholds.lives_nodup⟩
    · rw [hbytes]
      exact hholds.account.total
    · rw [hlives]
      exact hholds.lives_lt
  · have hmap : st.store.namespaces.map (·.bytes) = s.namespaces.map (·.bytes) := by
      refine List.ext_getElem? (fun n => ?_)
      rw [List.getElem?_map, List.getElem?_map]
      rcases hns : st.store.namespaces[n]? with _ | ns
      · have hle := List.getElem?_eq_none_iff.mp hns
        rw [hfine.length] at hle
        rw [List.getElem?_eq_none_iff.mpr hle]
      · obtain ⟨ns₀, h₀⟩ := hlook hns
        obtain ⟨-, -, -, hbytes, -⟩ := (hfine.took h₀ hns).idle
        rw [h₀]
        exact congrArg some hbytes
    rw [hmap, hfine.shared]
    exact hs.total

def Store.ticked (s : Store) : Store :=
  { s with shared := { s.shared with reads := s.shared.reads + 1 } }

def Store.looked (s : Store) (max : Nat) : Sweeping :=
  s.namespaces.zipIdx.foldl (fun st x => Sweeping.look st (s.shared.clock s.shared.reads) x.2 x.1)
    { store := s.ticked, left := max }

theorem Store.taking_eq (s : Store) (max : Nat) :
    s.taking max = Sweeping.loop (s.shared.clock s.shared.reads)
      (s.keys + (s.looked max).due.length + 1) (s.looked max) := rfl

theorem Store.sound_ticked (hs : s.Sound) : s.ticked.Sound := by
  refine ⟨fun {n ns} h => ?_, hs.total⟩
  obtain ⟨others, hholds⟩ := Store.Holding.each hs h
  have hpresent : View.present ⟨s.ticked.shared, ns⟩ = View.present ⟨s.shared, ns⟩ :=
    View.present_congr rfl
  rw [hpresent]
  exact ⟨others, hholds.shards, ⟨hholds.account.keys, hholds.account.bytes, hholds.account.total⟩,
    hholds.lives_lt, hholds.lives_nodup⟩

/-- The batches of a sweep: they end by themselves, at an empty heap or at the limit. -/
theorem Store.fine_taking (hs : s.Sound) (max : Nat) :
    Sweeping.Fine (s.shared.clock s.shared.reads) s.ticked (s.taking max) ∧
      ((s.taking max).due = [] ∨ (s.taking max).swept.more = true) := by
  have hs₁ := Store.sound_ticked hs
  have hsound : ∀ {n : Nat} {ns : Namespace}, s.ticked.namespaces[n]? = some ns →
      ∀ i, Shard.Sound ns.shard_of i ns.tick (ns.shards i) := fun h =>
    (hs₁.each h).choose_spec.shards
  have hkeys : ∀ {n : Nat} {ns : Namespace}, s.ticked.namespaces[n]? = some ns →
      ns.keys = Multiset.card (View.present ⟨s.ticked.shared, ns⟩) := fun h =>
    (hs₁.each h).choose_spec.account.keys
  have hlook : Sweeping.Fine (s.shared.clock s.shared.reads) s.ticked (s.looked max) :=
    Sweeping.fine_look max hsound hkeys
  rw [Store.taking_eq]
  apply Sweeping.fine_loop hlook hkeys
  change s.keys < _
  omega

theorem Store.sweeps (est : Estimate) (hs : s.Sound) (max : Nat) :
    ∃ taken, s.Sweeps est taken (s.sweep est max) := by
  obtain ⟨hfine, hend⟩ := Store.fine_taking hs max
  have hsweep : s.sweep est max =
      (((s.taking max).taken.foldl (fun st x => Sweeping.handOver est st x.1 x.2)
        (s.taking max)).swept,
        ((s.taking max).taken.foldl (fun st x => Sweeping.handOver est st x.1 x.2)
          (s.taking max)).store) := rfl
  rw [hsweep]
  generalize s.taking max = st at hfine hend
  have hhanded : Sweeping.Handed est st.store st.taken st := by
    refine ⟨hfine.holding (Store.sound_ticked hs), rfl, fun h h' => ?_, rfl, rfl, rfl⟩
    cases h.symm.trans h'
    exact Recounted.refl _
  obtain ⟨hall, hmore, hexpired⟩ := Sweeping.handed_all hhanded
    (fun x hx => hfine.length.symm ▸ hfine.places x hx)
  have hnames : ∀ x ∈ st.taken, Sweeping.reportOf est st.store.namespaces x =
      Sweeping.reportOf est s.namespaces x := by
    intro x hx
    obtain ⟨ns₀, h₀⟩ : ∃ ns₀, s.namespaces[x.1]? = some ns₀ :=
      ⟨_, List.getElem?_eq_getElem (hfine.places x hx)⟩
    obtain ⟨ns, hns⟩ : ∃ ns, st.store.namespaces[x.1]? = some ns :=
      ⟨_, List.getElem?_eq_getElem (hfine.length.symm ▸ hfine.places x hx)⟩
    have hname : ns.name = ns₀.name := (hfine.took h₀ hns).idle.1.name
    simp only [Sweeping.reportOf, hns, h₀, Option.map_some, hname]
  refine ⟨st.taken, hall.holding, hall.length.trans hfine.length, ?_, ?_, ?_, ?_, hfine.places,
    hfine.sorted, ?_, ?_⟩
  · exact hall.clock.trans (by rw [hfine.shared]; rfl)
  · exact hall.events.trans (by rw [hfine.shared]; rfl)
  · exact hall.reads.trans (by rw [hfine.shared]; rfl)
  · intro n ns₀ ns h₀ h'
    obtain ⟨ns₁, h₁⟩ : ∃ ns₁, st.store.namespaces[n]? = some ns₁ := by
      have hlt := (List.getElem?_eq_some_iff.mp h₀).1
      exact ⟨_, List.getElem?_eq_getElem (hfine.length.symm ▸ hlt)⟩
    have hclock : st.store.shared.clock = s.ticked.shared.clock := by rw [hfine.shared]
    have hevents : st.store.shared.expiry_events = s.ticked.shared.expiry_events := by
      rw [hfine.shared]
    have hreads : s.ticked.shared.reads = st.store.shared.reads := by rw [hfine.shared]
    exact ((hfine.took h₀ h₁).gone (hall.recounted h₁ h') (hall.clock.trans hclock)
      (hall.events.trans hevents) (le_of_eq (hreads.trans hall.reads.symm))).untick
  · intro hev
    have hev' : st.store.shared.expiry_events = true := by
      rw [hfine.shared]
      exact hev
    dsimp only
    rw [hexpired hev', hfine.expired, List.nil_append]
    exact List.filterMap_congr hnames
  · intro hdone n ns hns e he hdue
    dsimp only at hdone hns he
    rw [hmore] at hdone
    have hempty : st.due = [] := hend.resolve_right (by rw [hdone]; decide)
    obtain ⟨ns₁, h₁⟩ : ∃ ns₁, st.store.namespaces[n]? = some ns₁ := by
      have hlt := (List.getElem?_eq_some_iff.mp hns).1
      exact ⟨_, List.getElem?_eq_getElem (hall.length ▸ hlt)⟩
    -- The shard of an entry that is due would be named in the heap.
    obtain ⟨i, hi⟩ := View.mem_present.mp he
    have hshards := (hall.recounted h₁ hns).shards
    have hi : e ∈ Shard.bag (ns₁.shards i) := congrFun hshards i ▸ hi
    obtain ⟨a, ha, hle⟩ := Shard.first_expiry_le (hfine.sound_at h₁ i) hi hdue.1
    have hin := hfine.due_of h₁ ha ((mul_saturating_mono hle).trans hdue.2.2)
    rw [hempty] at hin
    cases hin

/-! ## Events -/

/-- What no event changes of a store, and what only grows. -/
structure Store.Onward (s s' : Store) : Prop where
  length : s'.namespaces.length = s.namespaces.length
  clock : s'.shared.clock = s.shared.clock
  events : s'.shared.expiry_events = s.shared.expiry_events
  reads_le : s.shared.reads ≤ s'.shared.reads
  each : ∀ {n : Nat} {ns ns' : Namespace}, s.namespaces[n]? = some ns →
    s'.namespaces[n]? = some ns' → View.Onward ⟨s.shared, ns⟩ ⟨s'.shared, ns'⟩

theorem View.onward_shared (ns : Namespace) (hclock : sh'.clock = sh.clock)
    (hevents : sh'.expiry_events = sh.expiry_events) (hreads : sh.reads ≤ sh'.reads) :
    View.Onward ⟨sh, ns⟩ ⟨sh', ns⟩ :=
  ⟨rfl, rfl, hevents, hclock, hreads, le_refl _, fun _ => le_refl _, le_refl _, fun h => h,
    fun _ _ hx => .inl hx⟩

theorem Store.Onward.refl (s : Store) : s.Onward s where
  length := rfl
  clock := rfl
  events := rfl
  reads_le := le_refl _
  each h h' := by
    cases h.symm.trans h'
    exact View.Onward.refl _

theorem Store.Onward.get (h : s.Onward s') (h' : s'.namespaces[n]? = some ns) :
    ∃ ns₀, s.namespaces[n]? = some ns₀ := by
  have hlt := (List.getElem?_eq_some_iff.mp h').1
  exact ⟨_, List.getElem?_eq_getElem (h.length ▸ hlt)⟩

theorem Store.Onward.trans {s'' : Store} (h : s.Onward s') (h' : s'.Onward s'') : s.Onward s'' where
  length := h'.length.trans h.length
  clock := h'.clock.trans h.clock
  events := h'.events.trans h.events
  reads_le := h.reads_le.trans h'.reads_le
  each h₀ h₂ := by
    obtain ⟨ns₁, h₁⟩ := h'.get h₂
    exact (h.each h₀ h₁).trans (h'.each h₁ h₂)

variable {settings : NamespaceSettings} {op : StateOp}

def Store.called (s : Store) (est : Estimate) (ns : Namespace) (settings : NamespaceSettings)
    (op : StateOp) : View.Answer StateReply :=
  View.call est settings op ⟨s.shared, ns⟩

theorem Store.call_eq (h : s.namespaces[n]? = some ns) :
    s.call est n settings op = (some (s.called est ns settings op).1,
      { shared := (s.called est ns settings op).2.sh
        namespaces := s.namespaces.set n (s.called est ns settings op).2.ns }) := by
  unfold Store.call
  rw [h]
  rfl

theorem Store.get_call {k : Nat} {ns' : Namespace} (h : s.namespaces[n]? = some ns)
    (h' : (s.call est n settings op).2.namespaces[k]? = some ns') :
    (k = n ∧ View.mk (s.call est n settings op).2.shared ns' =
      (s.called est ns settings op).2) ∨ (k ≠ n ∧ s.namespaces[k]? = some ns') := by
  rw [Store.call_eq h] at h' ⊢
  dsimp only at h' ⊢
  by_cases hk : n = k
  · subst hk
    rw [List.getElem?_set_self (List.getElem?_eq_some_iff.mp h).1] at h'
    cases h'
    exact .inl ⟨rfl, rfl⟩
  · rw [List.getElem?_set_ne hk] at h'
    exact .inr ⟨Ne.symm hk, h'⟩

theorem Store.call_sound (hs : s.Sound) (hclock : Monotone s.shared.clock) (n : Nat) :
    (s.call est n settings op).2.Sound ∧ s.Onward (s.call est n settings op).2 := by
  rcases h : s.namespaces[n]? with _ | ns
  · have hnone : s.call est n settings op = (none, s) := by
      unfold Store.call
      rw [h]
    rw [hnone]
    exact ⟨hs, Store.Onward.refl s⟩
  · obtain ⟨others, hns⟩ := hs.each h
    obtain ⟨hsound, hon⟩ := View.call_sound est settings op hns hclock
    have hput : (s.call est n settings op).2.Sound := by
      rw [Store.call_eq h]
      refine Store.Holding.set hs h hns.account.total ?_ (fun _ _ => rfl)
      have hzero : takenOf [] n = 0 := rfl
      rw [hzero, add_zero]
      exact hsound
    have hshared : (s.call est n settings op).2.shared = (s.called est ns settings op).2.sh := by
      rw [Store.call_eq h]
    refine ⟨hput, ?_, hshared ▸ hon.clock, hshared ▸ hon.events, hshared ▸ hon.reads_le, ?_⟩
    · rw [Store.call_eq h]
      exact List.length_set
    · intro k ns₀ ns' h₀ h'
      rcases Store.get_call h h' with ⟨rfl, hview⟩ | ⟨-, hsame⟩
      · cases h.symm.trans h₀
        rw [hview]
        exact hon
      · cases hsame.symm.trans h₀
        exact View.onward_shared _ (hshared ▸ hon.clock) (hshared ▸ hon.events)
          (hshared ▸ hon.reads_le)

theorem Store.brownout_sound (hs : s.Sound) (on : Bool) :
    (s.step est (.Brownout on)).2.Sound ∧ s.Onward (s.step est (.Brownout on)).2 := by
  refine ⟨⟨fun {n ns} h => ?_, hs.total⟩, rfl, rfl, rfl, le_refl _, fun {n ns ns'} h h' => ?_⟩
  · obtain ⟨others, hholds⟩ := Store.Holding.each hs h
    have hpresent : View.present ⟨(s.step est (.Brownout on)).2.shared, ns⟩ =
        View.present ⟨s.shared, ns⟩ := View.present_congr rfl
    rw [hpresent]
    exact ⟨others, hholds.shards,
      ⟨hholds.account.keys, hholds.account.bytes, hholds.account.total⟩, hholds.lives_lt,
      hholds.lives_nodup⟩
  · cases h.symm.trans h'
    exact View.onward_shared ns rfl rfl (le_refl _)

theorem Store.step_sound (hs : s.Sound) (hclock : Monotone s.shared.clock) (e : Event) :
    (s.step est e).2.Sound ∧ s.Onward (s.step est e).2 := by
  cases e with
  | Call n settings op => exact Store.call_sound hs hclock n
  | Sweep max =>
    obtain ⟨taken, hsweeps⟩ := Store.sweeps est hs max
    exact ⟨hsweeps.sound, hsweeps.length, hsweeps.clock, hsweeps.events,
      Nat.le_of_lt (Nat.lt_of_succ_le hsweeps.reads.ge), fun h h' => (hsweeps.gone h h').onward⟩
  | Brownout on => exact Store.brownout_sound hs on

theorem Store.run_sound (hs : s.Sound) (hclock : Monotone s.shared.clock) (es : List Event) :
    (s.run est es).2.Sound ∧ s.Onward (s.run est es).2 := by
  induction es generalizing s with
  | nil => exact ⟨hs, Store.Onward.refl s⟩
  | cons e es ih =>
    obtain ⟨hs', hon⟩ := @Store.step_sound s est hs hclock e
    obtain ⟨hs'', hon'⟩ := ih hs' (hon.clock ▸ hclock)
    exact ⟨hs'', hon.trans hon'⟩

/-! ## A fresh store -/

structure Store.Fresh (s : Store) : Prop where
  bytes : s.shared.bytes = 0
  empty : ∀ ns ∈ s.namespaces, ns = { name := ns.name, shard_of := ns.shard_of }

theorem View.present_fresh (sh : Shared) (name : String) (shard_of : Key → Fin SHARDS) :
    View.present ⟨sh, { name, shard_of }⟩ = 0 := by
  rw [Multiset.eq_zero_iff_forall_notMem]
  intro e he
  obtain ⟨i, hi⟩ := View.mem_present.mp he
  rcases Shard.mem_bag_iff.mp hi with ⟨k, hk⟩ | ⟨p, hp⟩
  · simp [View.shard] at hk
  · simp [View.shard] at hp

theorem Store.sound_fresh (h : s.Fresh) : s.Sound := by
  refine ⟨fun {n ns} hns => ?_, ?_⟩
  · have hempty := h.empty ns (List.mem_of_getElem? hns)
    rw [hempty]
    have hpresent : View.present ⟨s.shared, { name := ns.name, shard_of := ns.shard_of }⟩ +
        takenOf [] n = 0 := by
      rw [View.present_fresh]
      rfl
    rw [hpresent]
    refine ⟨0, fun i => Shard.sound_empty, ⟨rfl, rfl, h.bytes⟩, fun e he => ?_, ?_⟩
    · cases he
    · exact Multiset.nodup_zero
  · have hzero : ∀ x ∈ s.namespaces.map (·.bytes), x = 0 := by
      intro x hx
      obtain ⟨ns, hns, rfl⟩ := List.mem_map.mp hx
      rw [h.empty ns hns]
    rw [h.bytes, List.sum_eq_zero hzero]

/-- A store with one namespace, whose clock goes on by a second at each reading. -/
def oneNamespace (expiry_events : Bool) : Store :=
  { shared := { max_bytes := 100000, expiry_events, clock := fun n => 1000 * n, walk := fun _ _ => [] }
    namespaces := [{ name := "counts", shard_of := fun _ => ⟨0, shards_pos⟩ }] }

def lruSettings : NamespaceSettings :=
  { max_keys := 10, max_bytes := 10000, default_ttl_secs := some 60, eviction := .Lru
    dedupe_window_secs := 5 }

theorem oneNamespace_fresh (expiry_events : Bool) : (oneNamespace expiry_events).Fresh := by
  refine ⟨rfl, fun ns hns => ?_⟩
  rw [List.mem_singleton.mp hns]

theorem oneNamespace_clock (expiry_events : Bool) :
    Monotone (oneNamespace expiry_events).shared.clock :=
  fun _ _ h => Nat.mul_le_mul_left 1000 h

end mqttd.rule_state.local_store
