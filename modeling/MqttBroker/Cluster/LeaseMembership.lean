-- The voters and learners of the lease group, brought in line with the cluster
-- (`lease_membership.rs`). The leader keeps the voters that are still eligible, fills
-- the free seats from the failure domains with the fewest voters, and lets those go
-- that left the cluster.
import Mathlib.Data.List.MinMax
import MqttBroker.Lib.Spread
import MqttBroker.Lib.MapBag
import MqttBroker.Cluster.LeaseRaft

namespace mqtt_cluster.lease_membership

open lease_raft

/-! ## The choice of the voters -/

abbrev FailureDomain := String

/-- How many members of a set share the failure domain of a node. One without a label is a domain
of its own. -/
def domain_load (set : BTreeSet RaftNodeId) (id : RaftNodeId)
    (domains : BTreeMap RaftNodeId FailureDomain) : Nat :=
  match domains[id]? with
  | none => 0
  | some d => (set.toList.filter (fun m => domains[m]? = some d)).length

/-- One turn of the loop for each candidate that is left, as long as seats are free. -/
def pick_loop (cap : Nat) (domains : BTreeMap RaftNodeId FailureDomain) :
    Nat → BTreeSet RaftNodeId → BTreeSet RaftNodeId → BTreeSet RaftNodeId
  | 0, result, _ => result
  | turns + 1, result, remaining =>
    if result.size < cap then
      match remaining.toList.argmin (fun id => toLex (domain_load result id domains, id)) with
      | none => result
      | some next => pick_loop cap domains turns (result.insert next) (remaining.erase next)
    else result

/-- Grows `seed` up to `cap` members, each time by the candidate whose domain has the fewest. -/
def pick_balanced (cap : Nat) (pool seed : BTreeSet RaftNodeId)
    (domains : BTreeMap RaftNodeId FailureDomain) : BTreeSet RaftNodeId :=
  let remaining := pool \ seed
  pick_loop cap domains remaining.size seed remaining

/-- The voters to have: those that are eligible still, up to the cap, and others in the free
seats. -/
def target_voters (cap : Nat) (eligible current : BTreeSet RaftNodeId)
    (domains : BTreeMap RaftNodeId FailureDomain) : BTreeSet RaftNodeId :=
  let cap := max cap 1
  let live := current ∩ eligible
  if cap ≤ live.size then pick_balanced cap live ∅ domains
  else pick_balanced cap (eligible \ live) live domains

/-! ## The decision -/

inductive MembershipAction
  | None
  | Initialize (voters : BTreeSet RaftNodeId)
  | Reconcile (target_voters add_as_learner : BTreeSet RaftNodeId)
  | Drop (departed : BTreeSet RaftNodeId)
  deriving DecidableEq

/-- What a node sees of the group: all of its nodes are voters or learners. -/
structure RaftView where
  initialized : Bool
  is_leader : Bool
  changing : Bool
  voters : BTreeSet RaftNodeId
  nodes : BTreeSet RaftNodeId

/-- The policy of one node. A cap of no voters cannot be built. -/
structure MembershipReconciler where
  local_ : RaftNodeId
  can_bootstrap : Bool
  voter_cap : Nat
  one_le_cap : 1 ≤ voter_cap

namespace MembershipReconciler

def new (local_ : RaftNodeId) (can_bootstrap : Bool) (voter_cap : Nat) : MembershipReconciler :=
  ⟨local_, can_bootstrap, max voter_cap 1, Nat.le_max_right _ _⟩

def decide_with_domains (r : MembershipReconciler) (view : RaftView)
    (eligible : BTreeSet RaftNodeId) (domains : BTreeMap RaftNodeId FailureDomain) :
    MembershipAction :=
  if eligible.isEmpty then .None
  else if !view.initialized then
    if r.can_bootstrap then .Initialize ((∅ : BTreeSet RaftNodeId).insert r.local_) else .None
  else if !view.is_leader then .None
  else if view.changing then .None
  else
    let target_voters := target_voters r.voter_cap eligible view.voters domains
    let add_as_learner := eligible \ view.nodes
    if target_voters ≠ view.voters ∨ add_as_learner.isEmpty = false then
      .Reconcile target_voters add_as_learner
    else
      let departed := view.nodes \ eligible
      if departed.isEmpty = false then .Drop departed else .None

end MembershipReconciler

/-- What the group is once an action is applied and has settled: new members are learners first,
and a voter that is dropped stays as a learner. -/
def apply_action (view : RaftView) : MembershipAction → RaftView
  | .None => view
  | .Initialize voters => { view with initialized := true, voters, nodes := voters }
  | .Reconcile target_voters add_as_learner =>
    { view with voters := target_voters, nodes := view.nodes ∪ add_as_learner }
  | .Drop departed => { view with nodes := view.nodes \ departed }

/-! ## What is picked -/

section

variable {cap : Nat} {domains : BTreeMap RaftNodeId FailureDomain}
  {pool seed result remaining eligible current : BTreeSet RaftNodeId}

theorem domain_load_eq (set : BTreeSet RaftNodeId) (id : RaftNodeId) :
    domain_load set id domains = Spread.load (fun m => domains[m]?) set.toFinset id := by
  unfold domain_load Spread.load
  dsimp only
  cases h : domains[id]? with
  | none => rfl
  | some d =>
    have hclass : Spread.classOf (fun m => domains[m]?) set.toFinset d =
        (set.toList.filter (fun m => domains[m]? = some d)).toFinset := by
      ext m
      simp [Spread.mem_classOf]
    dsimp only
    rw [hclass, List.toFinset_card_of_nodup (set.toList_nodup.filter _)]

/-- What the loop leaves: a set that grew from the seed, up to the cap or by the whole pool. -/
structure Picked (cap : Nat) (domains : BTreeMap RaftNodeId FailureDomain)
    (pool seed picked : BTreeSet RaftNodeId) : Prop where
  grown : Spread.Grown (fun m => domains[m]?) pool.toFinset seed.toFinset picked.toFinset
  within : ∀ id ∈ picked, id ∈ seed ∨ id ∈ pool
  size_le : picked.size ≤ max seed.size cap
  full : cap ≤ picked.size ∨ ∀ id ∈ pool, id ∈ picked

theorem picked_loop {turns : Nat}
    (hgrown : Spread.Grown (fun m => domains[m]?) pool.toFinset seed.toFinset result.toFinset)
    (hwithin : ∀ id ∈ result, id ∈ seed ∨ id ∈ pool) (hsize : result.size ≤ max seed.size cap)
    (hremaining : ∀ id, id ∈ remaining ↔ id ∈ pool ∧ id ∉ result)
    (hturns : remaining.size ≤ turns) :
    Picked cap domains pool seed (pick_loop cap domains turns result remaining) := by
  induction turns generalizing result remaining with
  | zero =>
    refine ⟨hgrown, hwithin, hsize, Or.inr fun id hid => ?_⟩
    by_contra hnot
    have hmem := BTreeSet.mem_toFinset.mpr ((hremaining id).mpr ⟨hid, hnot⟩)
    have hpos := Finset.card_pos.mpr ⟨id, hmem⟩
    rw [BTreeSet.card_toFinset] at hpos
    omega
  | succ turns ih =>
    unfold pick_loop
    split
    · rename_i hroom
      split
      · rename_i hnone
        rw [List.argmin_eq_none] at hnone
        refine ⟨hgrown, hwithin, hsize, Or.inr fun id hid => ?_⟩
        by_contra hnot
        exact BTreeSet.not_mem_of_nil hnone id ((hremaining id).mpr ⟨hid, hnot⟩)
      · rename_i next hnext
        obtain ⟨hmem, hleast, -⟩ := List.mem_argmin_iff.mp hnext
        rw [Std.ExtTreeSet.mem_toList] at hmem
        obtain ⟨hpool, hnew⟩ := (hremaining next).mp hmem
        -- The candidate has the least load of those that are left.
        have hload : ∀ id ∈ pool, id ∉ result → domain_load result next domains ≤
            domain_load result id domains := by
          intro id hid hnot
          have hlex := hleast id (Std.ExtTreeSet.mem_toList.mpr ((hremaining id).mpr ⟨hid, hnot⟩))
          rw [Prod.Lex.toLex_le_toLex] at hlex
          rcases hlex with hlt | ⟨heq, -⟩
          · exact hlt.le
          · exact heq.le
        have hinsert : (BTreeSet.toFinset (result.insert next)).card = result.size + 1 := by
          rw [BTreeSet.toFinset_insert, Finset.card_insert_of_notMem (by simpa using hnew),
            BTreeSet.card_toFinset]
        apply ih
        · rw [BTreeSet.toFinset_insert]
          apply hgrown.take (by simpa using hpool) (by simpa using hnew)
          intro id hid hnot
          rw [BTreeSet.mem_toFinset] at hid hnot
          rw [← domain_load_eq, ← domain_load_eq]
          exact hload id hid hnot
        · intro id hid
          rcases (BTreeSet.mem_insert _ _ _).mp hid with rfl | hid
          · exact Or.inr hpool
          · exact hwithin id hid
        · rw [← BTreeSet.card_toFinset, hinsert]
          exact le_trans hroom (le_max_right _ _)
        · intro id
          rw [BTreeSet.mem_erase, BTreeSet.mem_insert, hremaining]
          tauto
        · have herase := Std.ExtTreeSet.size_erase (t := remaining) (k := next)
          rw [if_pos (Std.ExtTreeSet.mem_iff_contains.mp hmem)] at herase
          omega
    · rename_i hroom
      exact ⟨hgrown, hwithin, hsize, Or.inl (Nat.le_of_not_lt hroom)⟩

theorem picked_balanced (cap : Nat) (pool seed : BTreeSet RaftNodeId)
    (domains : BTreeMap RaftNodeId FailureDomain) :
    Picked cap domains pool seed (pick_balanced cap pool seed domains) := by
  apply picked_loop Spread.Grown.seed (fun id hid => Or.inl hid) (le_max_left _ _)
  · intro id
    rw [Std.ExtTreeSet.mem_diff_iff]
  · exact Nat.le_refl _

theorem Picked.keeps_seed {picked : BTreeSet RaftNodeId} (h : Picked cap domains pool seed picked) :
    ∀ id ∈ seed, id ∈ picked :=
  BTreeSet.toFinset_subset.mp h.grown.seed_subset

/-! ## The target -/

theorem mem_live (id : RaftNodeId) : id ∈ current ∩ eligible ↔ id ∈ current ∧ id ∈ eligible :=
  Std.ExtTreeSet.mem_inter_iff

theorem size_live_le : (current ∩ eligible).size ≤ eligible.size :=
  BTreeSet.size_le_of_subset fun id hid => ((mem_live id).mp hid).2

theorem target_within (cap : Nat) (eligible current : BTreeSet RaftNodeId)
    (domains : BTreeMap RaftNodeId FailureDomain) :
    ∀ id ∈ target_voters cap eligible current domains, id ∈ eligible := by
  intro id hid
  unfold target_voters at hid
  dsimp only at hid
  split at hid
  · rcases (picked_balanced _ _ _ _).within id hid with hid | hid
    · simp at hid
    · exact ((mem_live id).mp hid).2
  · rcases (picked_balanced _ _ _ _).within id hid with hid | hid
    · exact ((mem_live id).mp hid).2
    · exact (Std.ExtTreeSet.mem_diff_iff.mp hid).1

theorem size_target (cap : Nat) (eligible current : BTreeSet RaftNodeId)
    (domains : BTreeMap RaftNodeId FailureDomain) :
    (target_voters cap eligible current domains).size = min (max cap 1) eligible.size := by
  have hlive : (current ∩ eligible).size ≤ eligible.size := size_live_le
  have hle : (target_voters cap eligible current domains).size ≤ eligible.size :=
    BTreeSet.size_le_of_subset (target_within cap eligible current domains)
  unfold target_voters at hle ⊢
  dsimp only at hle ⊢
  split
  · rename_i hfull
    rw [if_pos hfull] at hle
    have hpick := picked_balanced (max cap 1) (current ∩ eligible) ∅ domains
    have hbound := hpick.size_le
    rw [Std.ExtTreeSet.size_empty] at hbound
    rcases hpick.full with hcap | hall
    · omega
    · have hmore := BTreeSet.size_le_of_subset hall
      omega
  · rename_i hfree
    rw [if_neg hfree] at hle
    have hpick := picked_balanced (max cap 1) (eligible \ (current ∩ eligible)) (current ∩ eligible)
      domains
    have hbound := hpick.size_le
    rcases hpick.full with hcap | hall
    · omega
    · have hmore : eligible.size ≤ _ := BTreeSet.size_le_of_subset (fun id hid => by
        by_cases hin : id ∈ current ∩ eligible
        · exact hpick.keeps_seed id hin
        · exact hall id (Std.ExtTreeSet.mem_diff_iff.mpr ⟨hid, hin⟩))
      omega

/-- As long as they are not more than the cap, the voters that are eligible still keep their
seats. -/
theorem target_sticky (hlive : (current ∩ eligible).size ≤ max cap 1) :
    ∀ id ∈ current ∩ eligible, id ∈ target_voters cap eligible current domains := by
  unfold target_voters
  dsimp only
  split
  · rename_i hfull
    have hpick := picked_balanced (max cap 1) (current ∩ eligible) ∅ domains
    have hwithin : ∀ id ∈ pick_balanced (max cap 1) (current ∩ eligible) ∅ domains,
        id ∈ current ∩ eligible := fun id hid => (hpick.within id hid).resolve_left (by simp)
    rcases hpick.full with hcap | hall
    · have hsame := BTreeSet.eq_of_size_le hwithin (le_trans hlive hcap)
      intro id hid
      rw [hsame]
      exact hid
    · exact hall
  · exact (picked_balanced _ _ _ _).keeps_seed

theorem target_of_target (hwithin : ∀ id ∈ current, id ∈ eligible)
    (hsize : current.size = min (max cap 1) eligible.size) :
    target_voters cap eligible current domains = current := by
  have hall : ∀ id ∈ current, id ∈ current ∩ eligible :=
    fun id hid => (mem_live id).mpr ⟨hid, hwithin id hid⟩
  have hlive : (current ∩ eligible).size ≤ current.size :=
    BTreeSet.size_le_of_subset fun id hid => ((mem_live id).mp hid).1
  have hsticky : ∀ id ∈ current ∩ eligible, id ∈ target_voters cap eligible current domains :=
    target_sticky (by omega)
  refine (BTreeSet.eq_of_size_le (fun id hid => hsticky id (hall id hid)) ?_).symm
  rw [size_target, hsize]

/-! ## The spread over the domains -/

/-- The largest number of members that share one domain. -/
def widest_domain (domains : BTreeMap RaftNodeId FailureDomain) (set : BTreeSet RaftNodeId) : Nat :=
  Spread.widest (fun m => domains[m]?) set.toFinset

theorem Picked.widest_le {picked set : BTreeSet RaftNodeId}
    (h : Picked cap domains pool seed picked) (hseed : ∀ id ∈ seed, id ∈ set)
    (hpool : ∀ id ∈ set, id ∈ seed ∨ id ∈ pool) (hsize : picked.size ≤ set.size) :
    widest_domain domains picked ≤ widest_domain domains set := by
  apply h.grown.widest_le (BTreeSet.toFinset_subset.mpr hseed)
  · intro id hid
    rw [Finset.mem_union, BTreeSet.mem_toFinset, BTreeSet.mem_toFinset]
    exact hpool id (BTreeSet.mem_toFinset.mp hid)
  · simpa using hsize

end

/-- No other choice that keeps the voters as the target does leaves its largest domain with fewer
members. -/
theorem voters_are_spread (cap : Nat) (eligible current : BTreeSet RaftNodeId)
    (domains : BTreeMap RaftNodeId FailureDomain) (set : BTreeSet RaftNodeId)
    (hsize : set.size = (target_voters cap eligible current domains).size)
    (hset : (cap ≤ (current ∩ eligible).size ∧ ∀ id ∈ set, id ∈ current ∩ eligible) ∨
      ((∀ id ∈ current ∩ eligible, id ∈ set) ∧ ∀ id ∈ set, id ∈ eligible)) :
    widest_domain domains (target_voters cap eligible current domains) ≤
      widest_domain domains set := by
  have hcap : set.size ≤ max cap 1 := by
    rw [hsize, size_target]
    exact Nat.min_le_left _ _
  unfold target_voters at hsize ⊢
  dsimp only at hsize ⊢
  split
  · rename_i hfull
    rw [if_pos hfull] at hsize
    have hwithin : ∀ id ∈ set, id ∈ current ∩ eligible := by
      rcases hset with ⟨-, hwithin⟩ | ⟨hkeeps, -⟩
      · exact hwithin
      · have hsame := BTreeSet.eq_of_size_le hkeeps (le_trans hcap hfull)
        intro id hid
        rw [hsame]
        exact hid
    apply (picked_balanced _ _ _ _).widest_le _ _ hsize.ge
    · simp
    · exact fun id hid => Or.inr (hwithin id hid)
  · rename_i hfree
    rw [if_neg hfree] at hsize
    rcases hset with ⟨hmany, hwithin⟩ | ⟨hkeeps, hwithin⟩
    · -- A cap of no voters is a cap of one, and nobody has a seat yet.
      have hnone : ∀ id, id ∉ current ∩ eligible := by
        intro id hid
        have hpos := Finset.card_pos.mpr ⟨id, BTreeSet.mem_toFinset.mpr hid⟩
        rw [BTreeSet.card_toFinset] at hpos
        omega
      apply (picked_balanced _ _ _ _).widest_le _ _ hsize.ge
      · exact fun id hid => absurd hid (hnone id)
      · exact fun id hid => Or.inl (hwithin id hid)
    · apply (picked_balanced _ _ _ _).widest_le hkeeps _ hsize.ge
      intro id hid
      by_cases hin : id ∈ current ∩ eligible
      · exact Or.inl hin
      · exact Or.inr (Std.ExtTreeSet.mem_diff_iff.mpr ⟨hwithin id hid, hin⟩)

def zones : BTreeMap RaftNodeId FailureDomain :=
  Std.ExtTreeMap.ofList [(1, "a"), (2, "a"), (3, "b"), (4, "c")]

def members : BTreeSet RaftNodeId := Std.ExtTreeSet.ofList [1, 2, 3, 4]

theorem founder_is_joined_from_other_zones :
    widest_domain zones (target_voters 3 members (Std.ExtTreeSet.ofList [1]) zones) ≤
      widest_domain zones (Std.ExtTreeSet.ofList [1, 2, 3]) := by
  apply voters_are_spread
  · decide +kernel
  · refine Or.inr ⟨BTreeSet.toFinset_subset.mp ?_, BTreeSet.toFinset_subset.mp ?_⟩
    · decide +kernel
    · decide +kernel

/-! ## The leader's turns -/

/-- One turn of the leader: it decides, and the action is applied. -/
def turn (r : MembershipReconciler) (eligible : BTreeSet RaftNodeId)
    (domains : BTreeMap RaftNodeId FailureDomain) (view : RaftView) : RaftView :=
  apply_action view (r.decide_with_domains view eligible domains)

def turns (r : MembershipReconciler) (eligible : BTreeSet RaftNodeId)
    (domains : BTreeMap RaftNodeId FailureDomain) (view : RaftView) (n : Nat) : RaftView :=
  (turn r eligible domains)^[n] view

/-- A view on which the leader acts: of an initialised group with no change in flight. -/
structure Acts (view : RaftView) : Prop where
  initialized : view.initialized = true
  is_leader : view.is_leader = true
  settled : view.changing = false

section

variable {r : MembershipReconciler} {eligible current : BTreeSet RaftNodeId}
  {domains : BTreeMap RaftNodeId FailureDomain} {view : RaftView}

theorem isEmpty_sdiff (s t : BTreeSet RaftNodeId) :
    (s \ t).isEmpty = true ↔ ∀ id ∈ s, id ∈ t := by
  rw [BTreeSet.isEmpty_iff]
  apply forall_congr'
  intro id
  rw [Std.ExtTreeSet.mem_diff_iff]
  tauto

/-- Everything that a leader decides. -/
theorem decide_cases (r : MembershipReconciler) (domains : BTreeMap RaftNodeId FailureDomain)
    (hne : eligible.isEmpty = false) (hacts : Acts view) :
    ((target_voters r.voter_cap eligible view.voters domains ≠ view.voters ∨
        ∃ id ∈ eligible, id ∉ view.nodes) ∧
      r.decide_with_domains view eligible domains =
        .Reconcile (target_voters r.voter_cap eligible view.voters domains) (eligible \ view.nodes)) ∨
    (target_voters r.voter_cap eligible view.voters domains = view.voters ∧
      (∀ id ∈ eligible, id ∈ view.nodes) ∧
      (r.decide_with_domains view eligible domains = .Drop (view.nodes \ eligible) ∨
        (r.decide_with_domains view eligible domains = .None ∧
          ∀ id ∈ view.nodes, id ∈ eligible))) := by
  unfold MembershipReconciler.decide_with_domains
  simp only [hne, hacts.initialized, hacts.is_leader, hacts.settled, Bool.false_eq_true,
    if_false, Bool.not_true]
  split
  · rename_i hmore
    refine Or.inl ⟨hmore.imp id ?_, rfl⟩
    intro hsome
    by_contra hall
    have hempty := (isEmpty_sdiff eligible view.nodes).mpr (by simpa using hall)
    rw [hempty] at hsome
    cases hsome
  · rename_i hdone
    rw [not_or, not_not, Bool.not_eq_false, isEmpty_sdiff] at hdone
    refine Or.inr ⟨hdone.1, hdone.2, ?_⟩
    split
    · exact Or.inl rfl
    · rename_i hnone
      rw [Bool.not_eq_false, isEmpty_sdiff] at hnone
      exact Or.inr ⟨rfl, hnone⟩

theorem acts_turn (hne : eligible.isEmpty = false) (hacts : Acts view) :
    Acts (turn r eligible domains view) := by
  unfold turn
  rcases decide_cases r domains hne hacts with ⟨-, h⟩ | ⟨-, -, h | ⟨h, -⟩⟩
  · rw [h]
    exact ⟨hacts.initialized, hacts.is_leader, hacts.settled⟩
  · rw [h]
    exact ⟨hacts.initialized, hacts.is_leader, hacts.settled⟩
  · rw [h]
    exact hacts

/-- The voters have their seats, and every eligible member is in the group. -/
structure Seated (r : MembershipReconciler) (eligible : BTreeSet RaftNodeId) (view : RaftView) :
    Prop where
  within : ∀ id ∈ view.voters, id ∈ eligible
  size : view.voters.size = min r.voter_cap eligible.size
  joined : ∀ id ∈ eligible, id ∈ view.nodes

/-- And nobody else is. -/
structure Settled (r : MembershipReconciler) (eligible : BTreeSet RaftNodeId) (view : RaftView) :
    Prop extends Seated r eligible view where
  gone : ∀ id ∈ view.nodes, id ∈ eligible

theorem seated_of_target (htarget : view.voters =
      target_voters r.voter_cap eligible current domains)
    (hjoined : ∀ id ∈ eligible, id ∈ view.nodes) : Seated r eligible view := by
  refine ⟨?_, ?_, hjoined⟩
  · rw [htarget]
    exact target_within r.voter_cap eligible current domains
  · rw [htarget, size_target, max_eq_left r.one_le_cap]

theorem Seated.target (h : Seated r eligible view) :
    target_voters r.voter_cap eligible view.voters domains = view.voters := by
  apply target_of_target h.within
  rw [h.size, max_eq_left r.one_le_cap]

theorem seated_turn (hne : eligible.isEmpty = false) (hacts : Acts view) :
    Seated r eligible (turn r eligible domains view) := by
  unfold turn
  rcases decide_cases r domains hne hacts with ⟨-, h⟩ | ⟨htarget, hjoined, h | ⟨h, -⟩⟩
  · rw [h]
    apply seated_of_target rfl
    intro id hid
    change id ∈ view.nodes ∪ (eligible \ view.nodes)
    rw [Std.ExtTreeSet.mem_union_iff, Std.ExtTreeSet.mem_diff_iff]
    tauto
  · rw [h]
    have hvoters : (apply_action view (.Drop (view.nodes \ eligible))).voters =
      target_voters r.voter_cap eligible view.voters domains := htarget.symm
    apply seated_of_target hvoters
    intro id hid
    change id ∈ view.nodes \ (view.nodes \ eligible)
    rw [Std.ExtTreeSet.mem_diff_iff, Std.ExtTreeSet.mem_diff_iff]
    exact ⟨hjoined id hid, fun hgone => hgone.2 hid⟩
  · rw [h]
    exact seated_of_target htarget.symm hjoined

theorem Seated.decide_cases (h : Seated r eligible view) (hne : eligible.isEmpty = false)
    (hacts : Acts view) :
    r.decide_with_domains view eligible domains = .Drop (view.nodes \ eligible) ∨
      (r.decide_with_domains view eligible domains = .None ∧ ∀ id ∈ view.nodes, id ∈ eligible) := by
  rcases lease_membership.decide_cases r domains hne hacts with ⟨hmore, -⟩ | ⟨-, -, hdecide⟩
  · rcases hmore with htarget | ⟨id, hid, hnot⟩
    · exact absurd h.target htarget
    · exact absurd (h.joined id hid) hnot
  · exact hdecide

theorem Seated.settled_turn (h : Seated r eligible view) (hne : eligible.isEmpty = false)
    (hacts : Acts view) : Settled r eligible (turn r eligible domains view) := by
  have hseated : Seated r eligible (turn r eligible domains view) := seated_turn hne hacts
  refine ⟨hseated, ?_⟩
  unfold turn
  rcases h.decide_cases hne hacts with hdrop | ⟨hnone, hgone⟩
  · rw [hdrop]
    intro id hid
    have hmem : id ∈ view.nodes \ (view.nodes \ eligible) := hid
    rw [Std.ExtTreeSet.mem_diff_iff, Std.ExtTreeSet.mem_diff_iff] at hmem
    by_contra hnot
    exact hmem.2 ⟨hmem.1, hnot⟩
  · rw [hnone]
    exact hgone

theorem Settled.decide_none (h : Settled r eligible view) (hne : eligible.isEmpty = false)
    (hacts : Acts view) : r.decide_with_domains view eligible domains = .None := by
  unfold MembershipReconciler.decide_with_domains
  have hlearners := (isEmpty_sdiff eligible view.nodes).mpr h.joined
  have hdeparted := (isEmpty_sdiff view.nodes eligible).mpr h.gone
  simp [hne, hacts.initialized, hacts.is_leader, hacts.settled, h.target, hlearners, hdeparted]

theorem turns_succ (r : MembershipReconciler) (eligible : BTreeSet RaftNodeId)
    (domains : BTreeMap RaftNodeId FailureDomain) (view : RaftView) (n : Nat) :
    turns r eligible domains view (n + 1) = turn r eligible domains (turns r eligible domains view n) :=
  Function.iterate_succ_apply' _ _ _

theorem acts_turns (hne : eligible.isEmpty = false) (hacts : Acts view) (n : Nat) :
    Acts (turns r eligible domains view n) := by
  induction n with
  | zero => exact hacts
  | succ n ih =>
    rw [turns_succ]
    exact acts_turn hne ih

theorem settled_turns (hne : eligible.isEmpty = false) (hacts : Acts view) (n : Nat) :
    Settled r eligible (turns r eligible domains view (n + 2)) := by
  have hseated : Seated r eligible (turns r eligible domains view (n + 1)) := by
    rw [turns_succ]
    exact seated_turn hne (acts_turns hne hacts n)
  rw [turns_succ]
  exact hseated.settled_turn hne (acts_turns hne hacts (n + 1))

/-- Nobody is dropped who votes. -/
theorem drops_no_voter (hne : eligible.isEmpty = false) (hacts : Acts view)
    {departed : BTreeSet RaftNodeId}
    (h : r.decide_with_domains view eligible domains = .Drop departed) :
    ∀ id ∈ departed, id ∉ view.voters := by
  rcases decide_cases r domains hne hacts with ⟨-, hdecide⟩ | ⟨htarget, -, hdecide | ⟨hdecide, -⟩⟩
  · rw [hdecide] at h
    cases h
  · rw [hdecide] at h
    cases h
    intro id hid hvotes
    rw [← htarget] at hvotes
    exact (Std.ExtTreeSet.mem_diff_iff.mp hid).2 (target_within _ _ _ _ id hvotes)
  · rw [hdecide] at h
    cases h

theorem loses_seat_to_cap (hne : eligible.isEmpty = false) (hacts : Acts view) {id : RaftNodeId}
    (hid : id ∈ eligible) (hvotes : id ∈ view.voters)
    (hlost : id ∉ (turn r eligible domains view).voters) :
    r.voter_cap < (view.voters ∩ eligible).size := by
  by_contra hfits
  apply hlost
  have hsticky : id ∈ target_voters r.voter_cap eligible view.voters domains := by
    apply target_sticky _ id ((mem_live id).mpr ⟨hvotes, hid⟩)
    rw [max_eq_left r.one_le_cap]
    omega
  unfold turn
  rcases decide_cases r domains hne hacts with ⟨-, h⟩ | ⟨-, -, h | ⟨h, -⟩⟩
  · rw [h]
    exact hsticky
  · rw [h]
    exact hvotes
  · rw [h]
    exact hvotes

end

/-- A leader that repeats its turn comes to rest, with the seats taken by eligible members and
nobody else in the group; on the way it drops no voter, and takes a seat from an eligible voter
only when there are more of them than the cap. -/
theorem reconciliation_settles (r : MembershipReconciler) (eligible : BTreeSet RaftNodeId)
    (domains : BTreeMap RaftNodeId FailureDomain) (view : RaftView)
    (hne : eligible.isEmpty = false) (hacts : Acts view) :
    (∃ n, ∀ m ≥ n,
      r.decide_with_domains (turns r eligible domains view m) eligible domains = .None ∧
      turns r eligible domains view m = turns r eligible domains view n ∧
      (∀ id ∈ (turns r eligible domains view m).voters, id ∈ eligible) ∧
      (turns r eligible domains view m).voters.size = min r.voter_cap eligible.size ∧
      (turns r eligible domains view m).nodes = eligible) ∧
    (∀ n departed,
      r.decide_with_domains (turns r eligible domains view n) eligible domains = .Drop departed →
        ∀ id ∈ departed, id ∉ (turns r eligible domains view n).voters) ∧
    ∀ n, ∀ id ∈ eligible, id ∈ (turns r eligible domains view n).voters →
      id ∉ (turns r eligible domains view (n + 1)).voters →
        r.voter_cap < ((turns r eligible domains view n).voters ∩ eligible).size := by
  have hnone : ∀ m ≥ 2,
      r.decide_with_domains (turns r eligible domains view m) eligible domains = .None := by
    intro m hm
    obtain ⟨n, rfl⟩ := Nat.exists_eq_add_of_le' hm
    exact (settled_turns hne hacts n).decide_none hne (acts_turns hne hacts (n + 2))
  refine ⟨⟨2, fun m hm => ⟨hnone m hm, ?_, ?_⟩⟩, ?_, ?_⟩
  · induction m, hm using Nat.le_induction with
    | base => rfl
    | succ m hm ih =>
      rw [turns_succ]
      unfold turn
      rw [hnone m hm]
      exact ih
  · obtain ⟨n, rfl⟩ := Nat.exists_eq_add_of_le' hm
    have hsettled : Settled r eligible (turns r eligible domains view (n + 2)) :=
      settled_turns hne hacts n
    refine ⟨hsettled.within, hsettled.size, ?_⟩
    exact Std.ExtTreeSet.ext_mem fun id => ⟨hsettled.gone id, hsettled.joined id⟩
  · intro n departed h
    exact drops_no_voter hne (acts_turns hne hacts n) h
  · intro n id hid hvotes hlost
    rw [turns_succ] at hlost
    exact loses_seat_to_cap hne (acts_turns hne hacts n) hid hvotes hlost

/-- A leader whose voter 2 has left the cluster. -/
def left_behind : RaftView where
  initialized := true
  is_leader := true
  changing := false
  voters := Std.ExtTreeSet.ofList [1, 2, 3]
  nodes := Std.ExtTreeSet.ofList [1, 2, 3, 4, 5]

theorem a_left_voter_is_replaced_and_dropped :
    ∃ n, (turns (.new 1 true 3) (Std.ExtTreeSet.ofList [1, 3, 4, 5]) zones left_behind n).nodes =
      Std.ExtTreeSet.ofList [1, 3, 4, 5] := by
  obtain ⟨⟨n, hn⟩, -⟩ := reconciliation_settles (.new 1 true 3) (Std.ExtTreeSet.ofList [1, 3, 4, 5])
    zones left_behind (by decide +kernel) ⟨rfl, rfl, rfl⟩
  exact ⟨n, (hn n (Nat.le_refl n)).2.2.2.2⟩

end mqtt_cluster.lease_membership
