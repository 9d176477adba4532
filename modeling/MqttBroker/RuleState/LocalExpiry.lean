-- The expiry events of local rule state over whole runs: while a rule selects them, each life
-- of a key whose expiry is reached is returned by one sweep, once, as it was when it expired.
-- An expired key may wait in the map, be displaced, be passed over by an eviction or be held:
-- all of them keep it among the entries that are present.
import MqttBroker.RuleState.LocalRuns

namespace mqttd.rule_state.local_store

open mqtt_rules
open Sweeping (takenOf)

/-- What came back from an event. -/
def Outcome.expired : Outcome → List Expired
  | .Swept swept => swept.expired
  | _ => []

/-- What came back from a run. -/
def returned (os : List Outcome) : List Expired := os.flatMap Outcome.expired

/-- The entries that namespace `n` of the store holds. -/
def Store.Holds (s : Store) (n : Nat) (e : Entry) : Prop :=
  ∃ ns, s.namespaces[n]? = some ns ∧ e ∈ View.present ⟨s.shared, ns⟩

def Store.now (s : Store) : Nat := s.shared.clock s.shared.reads

/-- An idempotency key is not empty; `kv_incr` refuses one that is. -/
def Event.Keyed : Event → Prop
  | .Call _ _ (.IncrOnce _ _ _ once) => once ≠ []
  | _ => True

variable {s s' : Store} {n : Nat} {ns : Namespace} {e : Entry} {est : Estimate}

/-! ## One event -/

theorem present_shared {sh sh' : Shared} (h : e ∈ View.present ⟨sh, ns⟩) :
    e ∈ View.present ⟨sh', ns⟩ := by
  have heq : View.present ⟨sh', ns⟩ = View.present ⟨sh, ns⟩ := View.present_congr rfl
  rw [heq]
  exact h

variable {taken : List (Nat × Entry)}

theorem mem_takenOf : e ∈ takenOf taken n ↔ (n, e) ∈ taken := by
  unfold takenOf
  simp only [Multiset.mem_coe, List.mem_map, List.mem_filter, decide_eq_true_eq]
  constructor
  · rintro ⟨⟨k, e'⟩, ⟨hx, rfl⟩, rfl⟩
    exact hx
  · intro h
    exact ⟨(n, e), ⟨h, rfl⟩, rfl⟩

variable {out : Swept × Store} {x : Expired}

theorem Store.Sweeps.mem_expired (h : s.Sweeps est taken out)
    (hev : s.shared.expiry_events = true) :
    x ∈ out.1.expired ↔ ∃ n ns e, s.namespaces[n]? = some ns ∧ (n, e) ∈ taken ∧
      remembered e.key = false ∧ x = Expired.ofEntry est ns.name n e := by
  rw [h.expired hev, List.mem_filterMap]
  unfold Sweeping.reportOf
  constructor
  · rintro ⟨⟨n, e⟩, hin, heq⟩
    split at heq
    · cases heq
    · next hrem =>
      obtain ⟨ns, hns, rfl⟩ := Option.map_eq_some_iff.mp heq
      exact ⟨n, ns, e, hns, hin, Bool.not_eq_true _ ▸ hrem, rfl⟩
  · rintro ⟨n, ns, e, hns, hin, hrem, rfl⟩
    refine ⟨(n, e), hin, ?_⟩
    simp [hrem, hns]

theorem Store.Sweeps.holds (h : s.Sweeps est taken out) (hin : (n, e) ∈ taken) :
    s.Holds n e ∧ e.expired s.now = true := by
  have hlt := h.places _ hin
  obtain ⟨ns, hns⟩ : ∃ ns, s.namespaces[n]? = some ns := ⟨_, List.getElem?_eq_getElem hlt⟩
  obtain ⟨ns', hns'⟩ : ∃ ns', out.2.namespaces[n]? = some ns' :=
    ⟨_, List.getElem?_eq_getElem (h.length ▸ hlt)⟩
  have hgone := h.gone hns hns'
  have hmem : e ∈ takenOf taken n := mem_takenOf.mpr hin
  obtain ⟨hne, hle, hdue⟩ := hgone.due e hmem
  refine ⟨⟨ns, hns, ?_⟩, View.expired_of_slot hne hle hdue⟩
  rw [hgone.present_eq]
  exact Multiset.mem_add.mpr (.inl hmem)

variable {event : Event}

theorem Store.step_keeps (hs : s.Sound) (hclock : Monotone s.shared.clock)
    (hev : s.shared.expiry_events = true) (hkeyed : event.Keyed)
    (hns : s.namespaces[n]? = some ns) (he : e ∈ View.present ⟨s.shared, ns⟩)
    (hexp : e.expired s.now = true) (hrem : remembered e.key = false) :
    (s.step est event).2.Holds n e ∨
      Expired.ofEntry est ns.name n e ∈ (s.step est event).1.expired := by
  cases event with
  | Call k settings op =>
    refine .inl ?_
    obtain ⟨hs', hon⟩ := @Store.call_sound s est settings op hs hclock k
    obtain ⟨ns', hns'⟩ : ∃ ns', (s.call est k settings op).2.namespaces[n]? = some ns' := by
      have hlt := (List.getElem?_eq_some_iff.mp hns).1
      exact ⟨_, List.getElem?_eq_getElem (hon.length.symm ▸ hlt)⟩
    refine ⟨ns', hns', ?_⟩
    rcases hk : s.namespaces[k]? with _ | nsk
    · have hnone : s.call est k settings op = (none, s) := by
        unfold Store.call
        rw [hk]
      change (s.call est k settings op).2.namespaces[n]? = some ns' at hns'
      rw [hnone] at hns'
      cases hns.symm.trans hns'
      exact present_shared he
    · rcases Store.get_call hk hns' with ⟨rfl, hview⟩ | ⟨-, hsame⟩
      · cases hk.symm.trans hns
        obtain ⟨others, hsound⟩ := hs.each hns
        have hmoves := View.call_moves est settings op
          (fun key by_ ttl once heq => by subst heq; exact hkeyed) hsound hclock
        have hkeeps := hmoves.keeps hsound hev he hexp hrem
        change e ∈ View.present ⟨(s.call est n settings op).2.shared, ns'⟩
        rw [hview]
        exact hkeeps
      · cases hns.symm.trans hsame
        exact present_shared he
  | Sweep max =>
    obtain ⟨taken, hsweeps⟩ := Store.sweeps est hs max
    obtain ⟨ns', hns'⟩ : ∃ ns', (s.sweep est max).2.namespaces[n]? = some ns' := by
      have hlt := (List.getElem?_eq_some_iff.mp hns).1
      exact ⟨_, List.getElem?_eq_getElem (hsweeps.length ▸ hlt)⟩
    rw [(hsweeps.gone hns hns').present_eq] at he
    rcases Multiset.mem_add.mp he with he | he
    · exact .inr ((hsweeps.mem_expired hev).mpr ⟨n, ns, e, hns, mem_takenOf.mp he, hrem, rfl⟩)
    · exact .inl ⟨ns', hns', he⟩
  | Brownout on => exact .inl ⟨ns, hns, present_shared he⟩

/-! ## No life comes back twice -/

/-- What has been returned so far, `R`, are different lives, and they are over. -/
structure Over (s : Store) (R : List Expired) : Prop where
  nodup : (R.map (fun x => (x.of, x.life))).Nodup
  begun : ∀ x ∈ R, ∀ {ns : Namespace}, s.namespaces[x.of]? = some ns → x.life < ns.lives
  ended : ∀ x ∈ R, ∀ e, s.Holds x.of e → e.life ≠ x.life

theorem Store.call_lives {settings : NamespaceSettings} {op : StateOp} {k : Nat} (hs : s.Sound)
    (hclock : Monotone s.shared.clock) (hkeyed : (Event.Call k settings op).Keyed)
    (hns : s.namespaces[n]? = some ns) (he : (s.call est k settings op).2.Holds n e) :
    (∃ e', s.Holds n e' ∧ e'.life = e.life) ∨ ns.lives ≤ e.life := by
  obtain ⟨ns', hns', he⟩ := he
  rcases hk : s.namespaces[k]? with _ | nsk
  · have hnone : s.call est k settings op = (none, s) := by
      unfold Store.call
      rw [hk]
    rw [hnone] at hns' he
    exact .inl ⟨e, ⟨ns', hns', he⟩, rfl⟩
  · rcases Store.get_call hk hns' with ⟨rfl, hview⟩ | ⟨-, hsame⟩
    · cases hk.symm.trans hns
      obtain ⟨others, hsound⟩ := hs.each hns
      have hmoves := View.call_moves est settings op
        (fun key by_ ttl once heq => by subst heq; exact hkeyed) hsound hclock
      rw [hview] at he
      rcases hmoves.lives hsound he with ⟨e', he', heq⟩ | hle
      · exact .inl ⟨e', ⟨ns, hns, he'⟩, heq⟩
      · exact .inr hle
    · exact .inl ⟨e, ⟨ns', hsame, present_shared he⟩, rfl⟩

/-- Lives that differ in each namespace differ. -/
theorem nodup_taken (h : ∀ n, ((takenOf taken n).map Entry.life).Nodup) :
    (taken.map (fun x => (x.1, x.2.life))).Nodup := by
  induction taken with
  | nil => exact List.nodup_nil
  | cons x rest ih =>
    have hown := h x.1
    rw [Sweeping.takenOf_cons_self, Multiset.map_cons, Multiset.nodup_cons] at hown
    rw [List.map_cons, List.nodup_cons]
    refine ⟨fun hin => ?_, ih (fun k => ?_)⟩
    · obtain ⟨⟨k, e⟩, hy, heq⟩ := List.mem_map.mp hin
      obtain ⟨rfl, hlife⟩ := Prod.mk.inj heq
      exact hown.1 (Multiset.mem_map.mpr ⟨e, mem_takenOf.mpr hy, hlife⟩)
    · by_cases hk : k = x.1
      · subst hk
        exact hown.2
      · rw [← Sweeping.takenOf_cons_other x rest hk]
        exact h k

theorem reports_sublist (namespaces : List Namespace) (taken : List (Nat × Entry)) :
    ((taken.filterMap (Sweeping.reportOf est namespaces)).map (fun x => (x.of, x.life))).Sublist
      (taken.map (fun x => (x.1, x.2.life))) := by
  induction taken with
  | nil => exact List.Sublist.refl _
  | cons x rest ih =>
    rw [List.filterMap_cons, List.map_cons]
    rcases hreport : Sweeping.reportOf est namespaces x with _ | y
    · exact ih.cons _
    · unfold Sweeping.reportOf at hreport
      split at hreport
      · cases hreport
      · obtain ⟨ns, -, rfl⟩ := Option.map_eq_some_iff.mp hreport
        exact ih.cons_cons _

theorem Store.Sweeps.lives (h : s.Sweeps est taken out) (hs : s.Sound)
    (hns : s.namespaces[n]? = some ns) {ns' : Namespace} (hns' : out.2.namespaces[n]? = some ns') :
    (∀ e ∈ takenOf taken n, e.life < ns'.lives) ∧ ((takenOf taken n).map Entry.life).Nodup ∧
      ∀ e ∈ takenOf taken n, ∀ e' ∈ View.present ⟨out.2.shared, ns'⟩, e'.life ≠ e.life := by
  obtain ⟨others, hsound⟩ := hs.each hns
  have hgone := h.gone hns hns'
  have hlt := hsound.lives_lt
  have hnodup := hsound.lives_nodup
  rw [hgone.present_eq] at hlt hnodup
  rw [Multiset.map_add, Multiset.nodup_add] at hnodup
  refine ⟨fun e he => ?_, hnodup.1, fun e he e' he' heq => ?_⟩
  · have hlives : ns'.lives = ns.lives := hgone.lives
    rw [hlives]
    exact hlt e (Multiset.mem_add.mpr (.inl he))
  · refine Multiset.disjoint_left.mp hnodup.2.2 (Multiset.mem_map_of_mem _ he) ?_
    exact heq ▸ Multiset.mem_map_of_mem _ he'

variable {R : List Expired}

theorem Over.step (h : Over s R) (hs : s.Sound) (hclock : Monotone s.shared.clock)
    (hev : s.shared.expiry_events = true) (hkeyed : event.Keyed) :
    Over (s.step est event).2 (R ++ (s.step est event).1.expired) := by
  obtain ⟨-, hon⟩ := @Store.step_sound s est hs hclock event
  have hbegun : ∀ x ∈ R, ∀ {ns' : Namespace},
      (s.step est event).2.namespaces[x.of]? = some ns' → x.life < ns'.lives := by
    intro x hx ns' hns'
    obtain ⟨ns, hns⟩ := hon.get hns'
    exact (h.begun x hx hns).trans_le (hon.each hns hns').lives_le
  cases event with
  | Call k settings op =>
    have hnone : (s.step est (.Call k settings op)).1.expired = [] := rfl
    rw [hnone, List.append_nil]
    refine ⟨h.nodup, hbegun, fun x hx e he heq => ?_⟩
    obtain ⟨ns, hns⟩ : ∃ ns, s.namespaces[x.of]? = some ns := by
      obtain ⟨ns', hns', -⟩ := he
      exact hon.get hns'
    rcases Store.call_lives hs hclock hkeyed hns he with ⟨e', he', hlife⟩ | hle
    · exact h.ended x hx e' he' (hlife.trans heq)
    · have := h.begun x hx hns
      omega
  | Sweep max =>
    obtain ⟨taken, hsweeps⟩ := Store.sweeps est hs max
    change Over (s.sweep est max).2 (R ++ (s.sweep est max).1.expired)
    have hget : ∀ {k : Nat}, k < s.namespaces.length →
        (∃ ns, s.namespaces[k]? = some ns) ∧ ∃ ns', (s.sweep est max).2.namespaces[k]? = some ns' :=
      fun hlt => ⟨⟨_, List.getElem?_eq_getElem hlt⟩,
        ⟨_, List.getElem?_eq_getElem (hsweeps.length ▸ hlt)⟩⟩
    have hdiffer : ∀ k, ((takenOf taken k).map Entry.life).Nodup := by
      intro k
      by_cases hlt : k < s.namespaces.length
      · obtain ⟨⟨ns, hns⟩, ns', hns'⟩ := hget hlt
        exact (hsweeps.lives hs hns hns').2.1
      · have hzero : takenOf taken k = 0 := by
          rw [Multiset.eq_zero_iff_forall_notMem]
          exact fun e he => hlt (hsweeps.places _ (mem_takenOf.mp he))
        rw [hzero]
        exact Multiset.nodup_zero
    refine ⟨?_, fun x hx => ?_, fun x hx e he heq => ?_⟩
    · rw [List.map_append, List.nodup_append]
      refine ⟨h.nodup, ?_, fun a ha b hb hab => ?_⟩
      · rw [hsweeps.expired hev]
        exact (nodup_taken hdiffer).sublist (reports_sublist _ _)
      · subst hab
        obtain ⟨x, hx, rfl⟩ := List.mem_map.mp ha
        obtain ⟨y, hy, heq⟩ := List.mem_map.mp hb
        obtain ⟨k, ns, e, -, hin, -, rfl⟩ := (hsweeps.mem_expired hev).mp hy
        obtain ⟨hof, hlife⟩ := Prod.mk.inj heq
        refine h.ended x hx e ?_ hlife
        rw [← hof]
        exact (hsweeps.holds hin).1
    · rcases List.mem_append.mp hx with hx | hx
      · exact hbegun x hx
      · obtain ⟨k, ns, e, hns, hin, -, rfl⟩ := (hsweeps.mem_expired hev).mp hx
        intro ns' hns'
        exact (hsweeps.lives hs hns hns').1 e (mem_takenOf.mpr hin)
    · obtain ⟨ns', hns', he⟩ := he
      rcases List.mem_append.mp hx with hx | hx
      · obtain ⟨ns, hns⟩ := hon.get hns'
        refine h.ended x hx e ⟨ns, hns, ?_⟩ heq
        rw [(hsweeps.gone hns hns').present_eq]
        exact Multiset.mem_add.mpr (.inr he)
      · obtain ⟨k, ns, e', hns, hin, -, rfl⟩ := (hsweeps.mem_expired hev).mp hx
        exact (hsweeps.lives hs hns hns').2.2 e' (mem_takenOf.mpr hin) e he heq
  | Brownout on =>
    have hnone : (s.step est (.Brownout on)).1.expired = [] := rfl
    rw [hnone, List.append_nil]
    refine ⟨h.nodup, hbegun, fun x hx e he => ?_⟩
    obtain ⟨ns, hns, he⟩ := he
    exact h.ended x hx e ⟨ns, hns, present_shared he⟩

/-! ## Runs -/

theorem Store.run_append (es es' : List Event) :
    s.run est (es ++ es') = ((s.run est es).1 ++ ((s.run est es).2.run est es').1,
      ((s.run est es).2.run est es').2) := by
  induction es generalizing s with
  | nil => rfl
  | cons e es ih =>
    simp only [List.cons_append, Store.run]
    rw [ih]

theorem returned_append (os os' : List Outcome) : returned (os ++ os') = returned os ++ returned os' :=
  List.flatMap_append

theorem Over.run (h : Over s R) (hs : s.Sound) (hclock : Monotone s.shared.clock)
    (hev : s.shared.expiry_events = true) (es : List Event) (hkeyed : ∀ event ∈ es, event.Keyed) :
    Over (s.run est es).2 (R ++ returned (s.run est es).1) := by
  induction es generalizing s R with
  | nil =>
    have hnil : returned (s.run est []).1 = [] := rfl
    rw [hnil, List.append_nil]
    exact h
  | cons e es ih =>
    obtain ⟨hs', hon⟩ := @Store.step_sound s est hs hclock e
    have hone : Over (s.step est e).2 _ := h.step hs hclock hev (hkeyed e List.mem_cons_self)
    have hrest := ih hone hs' (hon.clock ▸ hclock) (hon.events.trans hev)
      (fun event hin => hkeyed event (List.mem_cons_of_mem _ hin))
    rw [List.append_assoc] at hrest
    exact hrest

theorem Store.run_keeps (hs : s.Sound) (hclock : Monotone s.shared.clock)
    (hev : s.shared.expiry_events = true) (es : List Event) (hkeyed : ∀ event ∈ es, event.Keyed)
    (hns : s.namespaces[n]? = some ns) (he : e ∈ View.present ⟨s.shared, ns⟩)
    (hexp : e.expired s.now = true) (hrem : remembered e.key = false) :
    (s.run est es).2.Holds n e ∨
      Expired.ofEntry est ns.name n e ∈ returned (s.run est es).1 := by
  induction es generalizing s ns with
  | nil => exact .inl ⟨ns, hns, he⟩
  | cons event es ih =>
    obtain ⟨hs', hon⟩ := @Store.step_sound s est hs hclock event
    have hreturned : returned (s.run est (event :: es)).1 = (s.step est event).1.expired ++
        returned ((s.step est event).2.run est es).1 := rfl
    rw [hreturned]
    rcases Store.step_keeps hs hclock hev (hkeyed event List.mem_cons_self) hns he hexp hrem with
      ⟨ns', hns', he'⟩ | hin
    · have hnow : s.now ≤ (s.step est event).2.now := by
        unfold Store.now
        rw [hon.clock]
        exact hclock hon.reads_le
      have hname : ns'.name = ns.name := (hon.each hns hns').name
      rcases ih hs' (hon.clock ▸ hclock) (hon.events.trans hev)
        (fun event hin => hkeyed event (List.mem_cons_of_mem _ hin)) hns' he'
        (View.expired_mono hexp hnow) with hholds | hin
      · exact .inl hholds
      · rw [hname] at hin
        exact .inr (List.mem_append.mpr (.inr hin))
    · exact .inr (List.mem_append.mpr (.inl hin))

theorem filter_life (h : (R.map (fun x => (x.of, x.life))).Nodup) (hx : x ∈ R) :
    R.filter (fun y => y.of = x.of ∧ y.life = x.life) = [x] := by
  induction R with
  | nil => cases hx
  | cons y R ih =>
    rw [List.map_cons, List.nodup_cons] at h
    have hrest : ∀ {z : Expired}, (z.of, z.life) = (y.of, y.life) →
        R.filter (fun w => w.of = z.of ∧ w.life = z.life) = [] := by
      intro z hz
      rw [List.filter_eq_nil_iff]
      intro w hw heq
      simp only [decide_eq_true_eq] at heq
      apply h.1
      rw [← hz]
      exact List.mem_map.mpr ⟨w, hw, Prod.ext heq.1 heq.2⟩
    rcases List.mem_cons.mp hx with rfl | hx
    · rw [List.filter_cons_of_pos (by simp), hrest rfl]
    · have hne : ¬ (y.of = x.of ∧ y.life = x.life) := by
        intro heq
        apply h.1
        rw [show (y.of, y.life) = (x.of, x.life) from Prod.ext heq.1 heq.2]
        exact List.mem_map.mpr ⟨x, hx, rfl⟩
      rw [List.filter_cons_of_neg (by simpa using hne)]
      exact ih h.2 hx

theorem over_fresh (s : Store) : Over s [] :=
  ⟨List.nodup_nil, fun _ hx => (by cases hx), fun _ hx => (by cases hx)⟩

theorem Store.Sweeps.expired_sorted (h : s.Sweeps est taken out)
    (hev : s.shared.expiry_events = true) :
    out.1.expired.Pairwise (fun x y => expiry_slot x.expired_ms ≤ expiry_slot y.expired_ms) := by
  rw [h.expired hev]
  refine List.Pairwise.filterMap _ ?_ h.sorted
  intro x y hxy a ha b hb
  have hms : ∀ {x : Nat × Entry} {a : Expired}, Sweeping.reportOf est s.namespaces x = some a →
      a.expired_ms = x.2.expires_ms := by
    intro x a ha
    unfold Sweeping.reportOf at ha
    split at ha
    · cases ha
    · obtain ⟨ns, -, rfl⟩ := Option.map_eq_some_iff.mp ha
      rfl
  rw [hms ha, hms hb]
  exact hxy

/-- Every expiry of local rule state is raised once. In every run on a fresh store while a rule
selects the expiry event, no life of a key is returned twice; a sweep returns entries that had
expired, as they were, in the order of their seconds; an entry that is present when the clock
reaches its expiry has been returned, once, as soon as a sweep made after its second says that no
more are due; and no evicted entry had expired. -/
theorem every_expiry_is_raised_once (est : Estimate) (s : Store) (events : List Event)
    (hfresh : s.Fresh) (hclock : Monotone s.shared.clock) (hev : s.shared.expiry_events = true)
    (hkeyed : ∀ event ∈ events, event.Keyed) :
    ((returned (s.run est events).1).map (fun x => (x.of, x.life))).Nodup ∧
    (∀ (pre rest : List Event) (max : Nat), events = pre ++ .Sweep max :: rest →
      (∀ x ∈ ((s.run est pre).2.sweep est max).1.expired,
        ∃ n ns e, (s.run est pre).2.namespaces[n]? = some ns ∧
          e ∈ View.present ⟨(s.run est pre).2.shared, ns⟩ ∧ remembered e.key = false ∧
          e.expired (s.run est pre).2.now = true ∧ x = Expired.ofEntry est ns.name n e) ∧
      ((s.run est pre).2.sweep est max).1.expired.Pairwise
        (fun x y => expiry_slot x.expired_ms ≤ expiry_slot y.expired_ms)) ∧
    (∀ (pre mid rest : List Event) (max n : Nat) (ns : Namespace) (e : Entry),
      events = pre ++ (mid ++ .Sweep max :: rest) →
      (s.run est pre).2.namespaces[n]? = some ns →
      e ∈ View.present ⟨(s.run est pre).2.shared, ns⟩ → remembered e.key = false →
      e.expired (s.run est pre).2.now = true →
      mul_saturating (expiry_slot e.expires_ms) 1000 ≤ (s.run est (pre ++ mid)).2.now →
      ((s.run est (pre ++ mid)).2.sweep est max).1.more = false →
      (returned (s.run est events).1).filter (fun x => x.of = n ∧ x.life = e.life) =
        [Expired.ofEntry est ns.name n e]) ∧
    (∀ ns ∈ (s.run est events).2.namespaces, ns.evicted = ns.evictions.length ∧
      ∀ x ∈ ns.evictions, x.1.expired x.2 = false) := by
  have hs := Store.sound_fresh hfresh
  have hover : Over (s.run est events).2 _ := (over_fresh s).run hs hclock hev events hkeyed
  rw [List.nil_append] at hover
  refine ⟨hover.nodup, ?_, ?_, ?_⟩
  · rintro pre rest max rfl
    obtain ⟨hs₁, hon⟩ := @Store.run_sound s est hs hclock pre
    obtain ⟨taken, hsweeps⟩ := Store.sweeps est hs₁ max
    have hev₁ := hon.events.trans hev
    refine ⟨fun x hx => ?_, hsweeps.expired_sorted hev₁⟩
    obtain ⟨n, ns, e, hns, hin, hrem, rfl⟩ := (hsweeps.mem_expired hev₁).mp hx
    obtain ⟨⟨ns', hns', he⟩, hexp⟩ := hsweeps.holds hin
    cases hns.symm.trans hns'
    exact ⟨n, ns, e, hns, he, hrem, hexp, rfl⟩
  · intro pre mid rest max n ns e hevents hns he hrem hexp hsecond hmore
    obtain ⟨hs₁, hon⟩ := @Store.run_sound s est hs hclock pre
    have hclock₁ : Monotone (s.run est pre).2.shared.clock := hon.clock ▸ hclock
    have hev₁ := hon.events.trans hev
    -- After that sweep the entry is not present, so it has been returned.
    have hback : Expired.ofEntry est ns.name n e ∈
        returned ((s.run est pre).2.run est (mid ++ [.Sweep max])).1 := by
      refine (Store.run_keeps hs₁ hclock₁ hev₁ (mid ++ [.Sweep max]) (fun event hin => ?_) hns he
        hexp hrem).resolve_left ?_
      · apply hkeyed
        rw [hevents]
        simp only [List.mem_append, List.mem_cons] at hin ⊢
        tauto
      · rintro ⟨ns', hns', he'⟩
        rw [Store.run_append] at hsecond hmore
        rw [Store.run_append] at hns' he'
        obtain ⟨hs₂, -⟩ := @Store.run_sound _ est hs₁ hclock₁ mid
        obtain ⟨taken, hsweeps⟩ := Store.sweeps est hs₂ max
        obtain ⟨others, hsound⟩ := hs₁.each hns
        have hle : e.expires_ms ≤ u64_max := by
          obtain ⟨i, hi⟩ := View.mem_present.mp he
          rcases Shard.mem_bag_iff.mp hi with ⟨k, hk⟩ | ⟨p, hp⟩
          · exact (hsound.shards i).expires_le hk
          · exact (hsound.shards i).held_le hp
        exact hsweeps.done hmore hns' e he'
          ⟨(View.expires_of_expired hexp).1, hle, hsecond⟩
    have hall : Expired.ofEntry est ns.name n e ∈ returned (s.run est events).1 := by
      have hsplit : events = pre ++ ((mid ++ [.Sweep max]) ++ rest) := by
        rw [hevents]
        simp
      rw [hsplit, Store.run_append, Store.run_append, returned_append, returned_append]
      exact List.mem_append.mpr (.inr (List.mem_append.mpr (.inl hback)))
    exact filter_life hover.nodup hall
  · intro ns hns
    obtain ⟨-, hon⟩ := @Store.run_sound s est hs hclock events
    obtain ⟨n, hn⟩ := List.mem_iff_getElem?.mp hns
    obtain ⟨ns₀, hn₀⟩ := hon.get hn
    have hempty := hfresh.empty ns₀ (List.mem_of_getElem? hn₀)
    have hmoved := hon.each hn₀ hn
    rw [hempty] at hmoved
    refine ⟨hmoved.evicted_eq rfl, fun x hx => ?_⟩
    exact (hmoved.unexpired hev x hx).resolve_left (by simp)

/-- A value is set for a second, is found expired by the next call, and is swept. -/
def setAndSweep : List Event :=
  [.Call 0 lruSettings (.Set [1] ⟨.Int 7, 8⟩ (some 1)), .Call 0 lruSettings (.Get [1]), .Sweep 10]

theorem every_expiry_is_raised_once_live : ∃ (name : String) (e : Entry), e.key = [1] ∧
    e.expires_ms = 1000 ∧
    (returned ((oneNamespace true).run ⟨fun _ => 0⟩ setAndSweep).1).filter
      (fun x => x.of = 0 ∧ x.life = e.life) = [Expired.ofEntry ⟨fun _ => 0⟩ name 0 e] := by
  have hkeyed : ∀ event ∈ setAndSweep, event.Keyed := by
    intro event hin
    simp only [setAndSweep, List.mem_cons, List.not_mem_nil, or_false] at hin
    rcases hin with rfl | rfl | rfl <;> trivial
  obtain ⟨-, -, hraised, -⟩ := every_expiry_is_raised_once ⟨fun _ => 0⟩ (oneNamespace true)
    setAndSweep (oneNamespace_fresh true) (oneNamespace_clock true) rfl hkeyed
  -- The entry that the first call leaves.
  have hfound : (((oneNamespace true).run ⟨fun _ => 0⟩ (setAndSweep.take 1)).2.namespaces[0]?.bind
      (fun ns => View.get ⟨((oneNamespace true).run ⟨fun _ => 0⟩ (setAndSweep.take 1)).2.shared, ns⟩
        [1])).any (fun e => decide (e.key = [1]) && decide (e.expires_ms = 1000) &&
          e.expired ((oneNamespace true).run ⟨fun _ => 0⟩ (setAndSweep.take 1)).2.now) = true := by
    decide +kernel
  obtain ⟨e, he, hfacts⟩ := (Option.any_eq_true _ _).mp hfound
  obtain ⟨ns, hns, hget⟩ := Option.bind_eq_some_iff.mp he
  simp only [Bool.and_eq_true, decide_eq_true_eq] at hfacts
  obtain ⟨⟨hkey, hexpires⟩, hexp⟩ := hfacts
  refine ⟨ns.name, e, hkey, hexpires, ?_⟩
  refine hraised (setAndSweep.take 1) [setAndSweep[1]] [] 10 0 ns e rfl hns ?_ ?_ hexp ?_ ?_
  · rw [View.present_of_get hget]
    exact Multiset.mem_cons_self _ _
  · rw [hkey]
    decide
  · rw [hexpires]
    decide +kernel
  · decide +kernel

end mqttd.rule_state.local_store
