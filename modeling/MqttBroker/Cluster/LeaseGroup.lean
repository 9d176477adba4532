-- The reference model of fencing (`lease.rs`): a placement group's replicas with the highest
-- epoch that each has acknowledged. Any two quorums share a replica, whose fence stops the
-- older of two epochs.
import MqttBroker.Lib.Majority
import MqttBroker.Lib.OrderedMap

namespace mqtt_cluster.lease

abbrev NodeId := String

abbrev Epoch := Nat

/-! ## A group and its two calls -/

/-- Who may write the group's logs, and the epoch that allows it. -/
structure OwnershipLease where
  holder : NodeId
  epoch : Epoch
  deriving DecidableEq, Repr

inductive LeaseError
  | NoQuorum (epoch : Epoch) (accepted needed : Nat)
  deriving DecidableEq, Repr

structure LeaseGroup where
  /-- The highest epoch that each replica has acknowledged. -/
  fences : BTreeMap NodeId Epoch
  quorum : Nat

namespace LeaseGroup

/-- A group with a majority quorum. There is none over no replicas. -/
def new (replicas : List NodeId) : Option LeaseGroup :=
  let fences : BTreeMap NodeId Epoch := replicas.foldl (fun m n => m.insert n 0) ∅
  if fences.isEmpty then none else some { fences, quorum := fences.keys.length / 2 + 1 }

/-- The highest epoch a node has acknowledged; 0 if it is not a member. -/
def fence_of (g : LeaseGroup) (node : NodeId) : Epoch := (g.fences[node]?).getD 0

/-- A voter grants an epoch that is strictly greater than its own. -/
def vote (epoch : Epoch) (r : BTreeMap NodeId Epoch × Nat) (voter : NodeId) :
    BTreeMap NodeId Epoch × Nat :=
  match r.1[voter]? with
  | none => r
  | some f => if f < epoch then (r.1.insert voter epoch, r.2 + 1) else r

/-- An election: the voters that grant keep the epoch, whether or not it is won. -/
def grant (g : LeaseGroup) (candidate : NodeId) (epoch : Epoch) (voters : List NodeId) :
    Except LeaseError OwnershipLease × LeaseGroup :=
  let r := voters.foldl (vote epoch) (g.fences, 0)
  (if g.quorum ≤ r.2 then .ok { holder := candidate, epoch } else .error (.NoQuorum epoch r.2 g.quorum),
    { g with fences := r.1 })

/-- An append: the replicas that are not past its epoch take it, if they are a quorum. -/
def replicate (g : LeaseGroup) (lease : OwnershipLease) : Except LeaseError Unit × LeaseGroup :=
  let accepted := g.fences.toList.countP (fun x => decide (x.2 ≤ lease.epoch))
  if g.quorum ≤ accepted then
    (.ok (), { g with fences := g.fences.map (fun _ f => if f ≤ lease.epoch then lease.epoch else f) })
  else (.error (.NoQuorum lease.epoch accepted g.quorum), g)

end LeaseGroup

inductive Call
  | Grant (candidate : NodeId) (epoch : Epoch) (voters : List NodeId)
  | Replicate (lease : OwnershipLease)
  deriving DecidableEq, Repr

namespace Call

def epoch : Call → Epoch
  | .Grant _ epoch _ => epoch
  | .Replicate lease => lease.epoch

def isGrant : Call → Bool
  | .Grant _ _ _ => true
  | .Replicate _ => false

end Call

namespace LeaseGroup

def step (g : LeaseGroup) : Call → LeaseGroup
  | .Grant candidate epoch voters => (g.grant candidate epoch voters).2
  | .Replicate lease => (g.replicate lease).2

def succeeds (g : LeaseGroup) : Call → Bool
  | .Grant candidate epoch voters => (g.grant candidate epoch voters).1.isOk
  | .Replicate lease => (g.replicate lease).1.isOk

def run (g : LeaseGroup) (calls : List Call) : LeaseGroup := calls.foldl step g

variable {g g' : LeaseGroup}

/-! ## Quorums -/

/-- A quorum of replicas whose fences pass. -/
def Quorate (g : LeaseGroup) (P : Epoch → Prop) : Prop :=
  ∃ ms : List NodeId, ms.Nodup ∧ g.quorum ≤ ms.length ∧ ∀ n ∈ ms, ∃ f, g.fences[n]? = some f ∧ P f

def Majority (g : LeaseGroup) : Prop := g.fences.keys.length < 2 * g.quorum

theorem keys_nodup (m : BTreeMap NodeId Epoch) : m.keys.Nodup :=
  (BTreeMap.keys_sorted m).imp (fun h => ne_of_lt h)

/-- Two quorums share a replica. -/
theorem Quorate.meet {P Q : Epoch → Prop} (hg : Majority g) (hP : Quorate g P)
    (hQ : Quorate g Q) : ∃ f, P f ∧ Q f := by
  obtain ⟨xs, hxs, hxl, hxP⟩ := hP
  obtain ⟨ys, hys, hyl, hyQ⟩ := hQ
  unfold Majority at hg
  have hcard := List.toFinset_card_of_nodup (keys_nodup g.fences)
  have hmem {n : NodeId} {f : Epoch} (h : g.fences[n]? = some f) : n ∈ g.fences.keys.toFinset :=
    List.mem_toFinset.mpr ((BTreeMap.mem_keys g.fences n).mpr ⟨f, h⟩)
  obtain ⟨n, hnx, hny⟩ := Majority.meet (s := g.fences.keys.toFinset) hxs hys
    (fun n hn => by obtain ⟨f, hf, -⟩ := hxP n hn; exact hmem hf)
    (fun n hn => by obtain ⟨f, hf, -⟩ := hyQ n hn; exact hmem hf) (by omega)
  obtain ⟨f, hf, hPf⟩ := hxP n hnx
  obtain ⟨f', hf', hQf⟩ := hyQ n hny
  rw [hf] at hf'
  cases hf'
  exact ⟨f, hPf, hQf⟩

/-! ## What a call does -/

/-- The members stay, no fence goes back, and the quorum is the same. -/
structure Onward (g g' : LeaseGroup) : Prop where
  members : ∀ n : NodeId, g'.fences[n]?.isSome = g.fences[n]?.isSome
  fences : ∀ (n : NodeId) (f : Epoch), g.fences[n]? = some f →
    ∃ f', g'.fences[n]? = some f' ∧ f ≤ f'
  quorum : g'.quorum = g.quorum

theorem Onward.refl (g : LeaseGroup) : Onward g g :=
  ⟨fun _ => rfl, fun _ f h => ⟨f, h, le_refl f⟩, rfl⟩

theorem Onward.trans {g'' : LeaseGroup} (h : Onward g g') (h' : Onward g' g'') : Onward g g'' := by
  refine ⟨fun n => (h'.members n).trans (h.members n), ?_, h'.quorum.trans h.quorum⟩
  intro n f hf
  obtain ⟨f', hf', hle⟩ := h.fences n f hf
  obtain ⟨f'', hf'', hle'⟩ := h'.fences n f' hf'
  exact ⟨f'', hf'', le_trans hle hle'⟩

/-- The group has as many members as before. -/
theorem Onward.length (h : Onward g g') : g'.fences.keys.length = g.fences.keys.length := by
  apply List.Perm.length_eq
  rw [List.perm_ext_iff_of_nodup (keys_nodup _) (keys_nodup _)]
  intro n
  rw [BTreeMap.mem_keys, BTreeMap.mem_keys, ← Option.isSome_iff_exists,
    ← Option.isSome_iff_exists, h.members]

theorem Onward.majority (h : Onward g g') (hg : Majority g) : Majority g' := by
  unfold Majority at *
  rw [h.length, h.quorum]
  exact hg

variable {e : Epoch}

theorem Onward.quorate (h : Onward g g') (hq : Quorate g (e ≤ ·)) : Quorate g' (e ≤ ·) := by
  obtain ⟨ms, hnodup, hlen, hms⟩ := hq
  refine ⟨ms, hnodup, ?_, fun n hn => ?_⟩
  · rw [h.quorum]
    exact hlen
  · obtain ⟨f, hf, hle⟩ := hms n hn
    obtain ⟨f', hf', hle'⟩ := h.fences n f hf
    exact ⟨f', hf', le_trans hle hle'⟩

theorem Onward.fence_of (h : Onward g g') (n : NodeId) : g.fence_of n ≤ g'.fence_of n := by
  unfold LeaseGroup.fence_of
  rcases hf : g.fences[n]? with _ | f
  · simp
  · obtain ⟨f', hf', hle⟩ := h.fences n f hf
    simpa [hf'] using hle

/-- The voters that granted: they were below the epoch and stand at it. -/
structure Won (before after : BTreeMap NodeId Epoch) (epoch : Epoch) (won : List NodeId) : Prop where
  nodup : won.Nodup
  granted : ∀ n ∈ won, (∃ f, before[n]? = some f ∧ f < epoch) ∧ after[n]? = some epoch
  others : ∀ n ∉ won, after[n]? = before[n]?

variable {before : BTreeMap NodeId Epoch} {epoch : Epoch} {r : BTreeMap NodeId Epoch × Nat}
  {won : List NodeId}

theorem won_vote (h : Won before r.1 epoch won) (hn : r.2 = won.length) (voter : NodeId) :
    ∃ won', Won before (vote epoch r voter).1 epoch won' ∧
      (vote epoch r voter).2 = won'.length := by
  unfold vote
  rcases hf : r.1[voter]? with _ | f
  · exact ⟨won, h, hn⟩
  · simp only
    by_cases hlt : f < epoch
    · rw [if_pos hlt]
      have hnew : voter ∉ won := by
        intro hmem
        have hat := (h.granted voter hmem).2
        rw [hf] at hat
        cases hat
        exact lt_irrefl _ hlt
      have hbefore : before[voter]? = some f := by
        rw [← h.others voter hnew]
        exact hf
      refine ⟨voter :: won, ⟨List.nodup_cons.mpr ⟨hnew, h.nodup⟩, ?_, ?_⟩, by simp [hn]⟩
      · intro n hmem
        rw [BTreeMap.get_insert]
        rcases List.mem_cons.mp hmem with rfl | hmem
        · exact ⟨⟨f, hbefore, hlt⟩, if_pos rfl⟩
        · have hne : voter ≠ n := by
            rintro rfl
            exact hnew hmem
          refine ⟨(h.granted n hmem).1, ?_⟩
          rw [if_neg hne]
          exact (h.granted n hmem).2
      · intro n hmem
        rw [List.mem_cons, not_or] at hmem
        rw [BTreeMap.get_insert, if_neg (fun he => hmem.1 he.symm)]
        exact h.others n hmem.2
    · rw [if_neg hlt]
      exact ⟨won, h, hn⟩

theorem won_votes (voters : List NodeId) (h : Won before r.1 epoch won) (hn : r.2 = won.length) :
    ∃ won', Won before (voters.foldl (vote epoch) r).1 epoch won' ∧
      (voters.foldl (vote epoch) r).2 = won'.length := by
  induction voters generalizing r won with
  | nil => exact ⟨won, h, hn⟩
  | cons voter rest ih =>
    obtain ⟨won', h', hn'⟩ := won_vote h hn voter
    exact ih h' hn'

theorem grant_won (g : LeaseGroup) (candidate : NodeId) (epoch : Epoch) (voters : List NodeId) :
    ∃ won, Won g.fences (g.grant candidate epoch voters).2.fences epoch won ∧
      ((g.grant candidate epoch voters).1.isOk = true ↔ g.quorum ≤ won.length) := by
  have hnone : Won g.fences (g.fences, 0).1 epoch [] := ⟨List.nodup_nil, nofun, fun _ _ => rfl⟩
  obtain ⟨won, h, hn⟩ := won_votes voters (r := (g.fences, 0)) hnone rfl
  refine ⟨won, h, ?_⟩
  unfold grant
  simp only [hn]
  by_cases hq : g.quorum ≤ won.length
  · simp [hq, Except.isOk, Except.toBool]
  · simp [hq, Except.isOk, Except.toBool]

theorem onward_grant (g : LeaseGroup) (candidate : NodeId) (epoch : Epoch) (voters : List NodeId) :
    Onward g (g.grant candidate epoch voters).2 := by
  obtain ⟨won, h, -⟩ := grant_won g candidate epoch voters
  refine ⟨fun n => ?_, fun n f hf => ?_, rfl⟩
  · by_cases hn : n ∈ won
    · obtain ⟨⟨f, hf, -⟩, hafter⟩ := h.granted n hn
      rw [hf, hafter]
      rfl
    · rw [h.others n hn]
  · by_cases hn : n ∈ won
    · obtain ⟨⟨f', hf', hlt⟩, hafter⟩ := h.granted n hn
      rw [hf] at hf'
      cases hf'
      exact ⟨epoch, hafter, le_of_lt hlt⟩
    · exact ⟨f, (h.others n hn).trans hf, le_refl f⟩

theorem quorate_of_count {P : Epoch → Bool}
    (h : g.quorum ≤ g.fences.toList.countP (fun x => P x.2)) : Quorate g (fun f => P f = true) := by
  refine ⟨(g.fences.toList.filter (fun x => P x.2)).map Prod.fst, ?_, ?_, ?_⟩
  · have hsorted : (g.fences.toList.map Prod.fst).Nodup := by
      rw [List.Nodup, List.pairwise_map]
      exact (BTreeMap.toList_sorted g.fences).imp (fun h => ne_of_lt h)
    exact hsorted.sublist (List.filter_sublist.map Prod.fst)
  · rw [List.length_map, ← List.countP_eq_length_filter]
    exact h
  · intro n hn
    obtain ⟨x, hx, rfl⟩ := List.mem_map.mp hn
    obtain ⟨hmem, hP⟩ := List.mem_filter.mp hx
    exact ⟨x.2, (BTreeMap.mem_toList g.fences x.1 x.2).mp hmem, hP⟩

theorem get_replicate (lease : OwnershipLease) (n : NodeId) :
    (g.replicate lease).2.fences[n]? = g.fences[n]? ∨
      (g.replicate lease).1.isOk = true ∧ (g.replicate lease).2.fences[n]? =
        (g.fences[n]?).map (fun f => if f ≤ lease.epoch then lease.epoch else f) := by
  unfold replicate
  simp only
  split
  · right
    exact ⟨rfl, Std.ExtTreeMap.getElem?_map⟩
  · exact .inl rfl

theorem onward_replicate (g : LeaseGroup) (lease : OwnershipLease) :
    Onward g (g.replicate lease).2 := by
  refine ⟨fun n => ?_, fun n f hf => ?_, ?_⟩
  · rcases get_replicate (g := g) lease n with h | ⟨-, h⟩
    · rw [h]
    · rw [h, Option.isSome_map]
  · rcases get_replicate (g := g) lease n with h | ⟨-, h⟩
    · exact ⟨f, h.trans hf, le_refl f⟩
    · rw [h, hf]
      refine ⟨_, rfl, ?_⟩
      simp only
      split
      · assumption
      · exact le_refl f
  · unfold replicate
    simp only
    split <;> rfl

variable {lease : OwnershipLease}

theorem replicate_failed (h : (g.replicate lease).1.isOk = false) : (g.replicate lease).2 = g := by
  unfold replicate at *
  simp only at *
  split at h
  · cases h
  · rename_i hq
    rw [if_neg hq]

theorem replicate_ok (h : (g.replicate lease).1.isOk = true) :
    Quorate g (· ≤ lease.epoch) ∧ Quorate (g.replicate lease).2 (lease.epoch ≤ ·) := by
  have hq : Quorate g (· ≤ lease.epoch) := by
    unfold replicate at h
    simp only at h
    split at h
    · rename_i hcount
      have hq := quorate_of_count (P := fun f => decide (f ≤ lease.epoch)) hcount
      simpa only [decide_eq_true_eq] using hq
    · cases h
  refine ⟨hq, ?_⟩
  obtain ⟨ms, hnodup, hlen, hms⟩ := hq
  refine ⟨ms, hnodup, ?_, fun n hn => ?_⟩
  · rw [(onward_replicate g lease).quorum]
    exact hlen
  · obtain ⟨f, hf, hle⟩ := hms n hn
    unfold replicate at h ⊢
    simp only at h ⊢
    split
    · rename_i hcount
      refine ⟨lease.epoch, ?_, le_refl _⟩
      simp [Std.ExtTreeMap.getElem?_map, hf, hle]
    · rename_i hcount
      rw [if_neg hcount] at h
      cases h

theorem grant_ok {candidate : NodeId} {voters : List NodeId}
    (h : (g.grant candidate epoch voters).1.isOk = true) :
    Quorate g (· < epoch) ∧ Quorate (g.grant candidate epoch voters).2 (epoch ≤ ·) := by
  obtain ⟨won, hwon, hok⟩ := grant_won g candidate epoch voters
  have hlen := hok.mp h
  refine ⟨⟨won, hwon.nodup, hlen, fun n hn => (hwon.granted n hn).1⟩, won, hwon.nodup, hlen, ?_⟩
  intro n hn
  exact ⟨epoch, (hwon.granted n hn).2, le_refl _⟩

/-! ## Runs -/

theorem onward_step (g : LeaseGroup) (c : Call) : Onward g (g.step c) := by
  cases c with
  | Grant candidate epoch voters => exact onward_grant g candidate epoch voters
  | Replicate lease => exact onward_replicate g lease

theorem onward_run (g : LeaseGroup) (calls : List Call) : Onward g (g.run calls) := by
  induction calls generalizing g with
  | nil => exact Onward.refl g
  | cons c rest ih => exact (onward_step g c).trans (ih (g.step c))

theorem majority_new {replicas : List NodeId} (h : new replicas = some g) : Majority g := by
  unfold new at h
  simp only at h
  split at h
  · cases h
  · cases h
    unfold Majority
    simp only
    omega

variable {c : Call}

theorem quorate_of_succeeds (h : g.succeeds c = true) : Quorate (g.step c) (c.epoch ≤ ·) := by
  cases c with
  | Grant candidate epoch voters => exact (grant_ok h).2
  | Replicate lease => exact (replicate_ok h).2

theorem fenced (hg : Majority g) (hq : Quorate g (e ≤ ·)) (h : g.succeeds c = true) :
    e ≤ c.epoch ∧ (c.isGrant = true → e < c.epoch) := by
  cases c with
  | Grant candidate epoch voters =>
    obtain ⟨f, hle, hlt⟩ := hq.meet hg (grant_ok h).1
    have hlt' : e < epoch := lt_of_le_of_lt hle hlt
    exact ⟨le_of_lt hlt', fun _ => hlt'⟩
  | Replicate lease =>
    obtain ⟨f, hle, hle'⟩ := hq.meet hg (replicate_ok h).1
    exact ⟨le_trans hle hle', nofun⟩

/-- Once a call at an epoch has succeeded, no later append below it and no later grant at it or
below it succeeds. -/
theorem fenced_after (hg : Majority g) (h : g.succeeds c = true) (later : List Call) {c' : Call}
    (h' : ((g.step c).run later).succeeds c' = true) :
    c.epoch ≤ c'.epoch ∧ (c'.isGrant = true → c.epoch < c'.epoch) := by
  have honward := onward_run (g.step c) later
  apply fenced _ (honward.quorate (quorate_of_succeeds h)) h'
  exact honward.majority ((onward_step g c).majority hg)

end LeaseGroup

open LeaseGroup

/-- Fencing is exclusive over every sequence of calls: a call that succeeds shuts out every
earlier epoch, and every grant at its own; no fence goes back; and an append that fails changes
nothing. -/
theorem lease_fencing_is_exclusive (replicas : List NodeId) (g : LeaseGroup)
    (hnew : LeaseGroup.new replicas = some g) :
    (∀ (before between : List Call) (c c' : Call), (g.run before).succeeds c = true →
      (g.run (before ++ c :: between)).succeeds c' = true →
      c.epoch ≤ c'.epoch ∧ (c'.isGrant = true → c.epoch < c'.epoch)) ∧
    (∀ (before between : List Call) (c c' : Call), c.isGrant = true → c'.isGrant = true →
      (g.run before).succeeds c = true → (g.run (before ++ c :: between)).succeeds c' = true →
      c.epoch ≠ c'.epoch) ∧
    (∀ (before after : List Call) (n : NodeId),
      (g.run before).fence_of n ≤ (g.run (before ++ after)).fence_of n) ∧
    ∀ (before : List Call) (lease : OwnershipLease),
      (g.run before).succeeds (.Replicate lease) = false →
      ∀ n, ((g.run before).step (.Replicate lease)).fence_of n = (g.run before).fence_of n := by
  have hmajority (calls : List Call) : Majority (g.run calls) :=
    (onward_run g calls).majority (majority_new hnew)
  have happend (before after : List Call) : g.run (before ++ after) = (g.run before).run after :=
    List.foldl_append
  have hfenced (before between : List Call) (c c' : Call) (h : (g.run before).succeeds c = true)
      (h' : (g.run (before ++ c :: between)).succeeds c' = true) :
      c.epoch ≤ c'.epoch ∧ (c'.isGrant = true → c.epoch < c'.epoch) := by
    rw [happend] at h'
    exact fenced_after (hmajority before) h between h'
  refine ⟨hfenced, ?_, ?_, ?_⟩
  · intro before between c c' _ hgrant h h'
    exact ne_of_lt ((hfenced before between c c' h h').2 hgrant)
  · intro before after n
    rw [happend]
    exact (onward_run (g.run before) after).fence_of n
  · intro before lease h n
    have hsame : (g.run before).step (.Replicate lease) = g.run before := replicate_failed h
    rw [hsame]

/-- An election at epoch 1 by two of three replicas, and one at epoch 2 by another two. -/
def two_elections : List Call :=
  [.Grant "a" 1 ["a", "b", "a", "x"], .Grant "c" 2 ["b", "c"]]

theorem a_superseded_holder_is_fenced :
    ∃ g, LeaseGroup.new ["a", "b", "c"] = some g ∧
      (g.run []).succeeds (.Grant "a" 1 ["a", "b", "a", "x"]) = true ∧
      (g.run two_elections).succeeds (.Replicate ⟨"a", 1⟩) = false ∧
      (g.run two_elections).succeeds (.Replicate ⟨"c", 2⟩) = true ∧
      g.fence_of "b" ≤ (g.run two_elections).fence_of "b" := by
  have hnew : (LeaseGroup.new ["a", "b", "c"]).isSome = true := by decide +kernel
  obtain ⟨g, hg⟩ := Option.isSome_iff_exists.mp hnew
  have hfenced := (lease_fencing_is_exclusive ["a", "b", "c"] g hg).1
  have hmonotone := (lease_fencing_is_exclusive ["a", "b", "c"] g hg).2.2.1 [] two_elections "b"
  have hruns : (LeaseGroup.new ["a", "b", "c"]).all (fun g =>
      (g.run []).succeeds (.Grant "a" 1 ["a", "b", "a", "x"]) &&
      (g.run ([.Grant "a" 1 ["a", "b", "a", "x"]] ++ .Grant "c" 2 ["b", "c"] :: [])).succeeds
        (.Replicate ⟨"c", 2⟩) &&
      (g.run [.Grant "a" 1 ["a", "b", "a", "x"]]).succeeds (.Grant "c" 2 ["b", "c"])) = true := by
    decide +kernel
  rw [hg] at hruns
  simp only [Option.all_some, Bool.and_eq_true] at hruns
  refine ⟨g, hg, hruns.1.1, ?_, hruns.1.2, hmonotone⟩
  -- The second election shuts out the first holder.
  rw [← Bool.not_eq_true]
  intro hstale
  have h := (hfenced [.Grant "a" 1 ["a", "b", "a", "x"]] [] (.Grant "c" 2 ["b", "c"])
    (.Replicate ⟨"a", 1⟩) hruns.2 hstale).1
  exact absurd h (by decide)

end mqtt_cluster.lease
