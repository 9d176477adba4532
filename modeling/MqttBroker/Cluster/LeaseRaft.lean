-- The lease state machine that the consensus group agrees on (`lease_raft.rs`):
-- which node holds each placement group and at what epoch, and the factor of
-- replication with the change of it that may be open.
import MqttBroker.Cluster.ReplicaOps

namespace mqtt_cluster.lease_raft

open cluster_log

abbrev RaftNodeId := Nat

/-! ## The requests and the state -/

/-- A command that the group agrees on. -/
inductive LeaseRequest
  | Assign (group : GroupId) (node : RaftNodeId)
  | AssignMany (assignments : List (GroupId × RaftNodeId))
  | SetReplicas (r : Nat)
  | BeginReplicaChange (from_ to_ : Nat)
  | CommitReplicaChange (to_ : Nat)
  deriving DecidableEq, Repr

def REPLICAS_LEGACY : Nat := 3
def REPLICAS_MIN : Nat := 2
def REPLICAS_MAX : Nat := 7

/-- A change from one factor to another. `since` is the highest epoch minted before it was
opened: every lease has been minted again above it. -/
structure ReplicaChange where
  from_ : Nat
  to_ : Nat
  since : Epoch
  deriving DecidableEq, Repr

def ReplicaChange.joint_width (c : ReplicaChange) : Nat := max c.from_ c.to_

def ReplicaChange.prefix_width (c : ReplicaChange) : Nat := min c.from_ c.to_

structure ReplicationRecord where
  replicas : Option Nat := none
  change : Option ReplicaChange := none
  deriving DecidableEq, Repr

structure LeaseResponse where
  group : GroupId
  holder : RaftNodeId
  epoch : Epoch
  deriving DecidableEq, Repr

structure LeaseRecord where
  holder : RaftNodeId
  epoch : Epoch
  deriving DecidableEq, Repr

structure LeaseMap where
  leases : BTreeMap GroupId LeaseRecord := ∅
  next_epoch : Epoch := 0
  replication : ReplicationRecord := {}

/-! ## The replication record -/

namespace ReplicationRecord

def effective (r : ReplicationRecord) : Nat := r.replicas.getD REPLICAS_LEGACY

def valid (r : Nat) : Bool := decide (REPLICAS_MIN ≤ r ∧ r ≤ REPLICAS_MAX)

def can_begin (r : ReplicationRecord) (from_ to_ : Nat) : Bool :=
  r.change.isNone && from_ == r.effective && valid to_ && to_ != from_

/-- One replication command. A change is opened by `LeaseMap.apply`, which also mints the
leases again. -/
def apply (r : ReplicationRecord) : LeaseRequest → ReplicationRecord
  | .SetReplicas n =>
    if r.replicas.isNone && r.change.isNone && valid n then { r with replicas := some n } else r
  | .CommitReplicaChange to_ =>
    if r.change.any (fun c => c.to_ == to_) then { replicas := some to_, change := none } else r
  | .BeginReplicaChange .. | .Assign .. | .AssignMany .. => r

end ReplicationRecord

/-! ## The lease map -/

namespace LeaseMap

def new : LeaseMap := {}

/-- Assigns one group at a fresh epoch. The counter is a `u64`. -/
def assign_one (m : LeaseMap) (group : GroupId) (node : RaftNodeId) : LeaseMap × LeaseResponse :=
  let epoch := (m.next_epoch + 1) % 2 ^ 64
  ({ m with
      leases := m.leases.insert group { holder := node, epoch := epoch }
      next_epoch := epoch },
    { group := group, holder := node, epoch := epoch })

/-- The assignments of a list one after another, with the lease that each one minted. -/
def assign_all (m : LeaseMap) : List (GroupId × RaftNodeId) → LeaseMap × List LeaseResponse
  | [] => (m, [])
  | (group, node) :: rest =>
    let (m, r) := m.assign_one group node
    let (m, rs) := assign_all m rest
    (m, r :: rs)

/-- Who holds what, to be minted again. -/
def held (m : LeaseMap) : List (GroupId × RaftNodeId) :=
  m.leases.toList.map (fun x => (x.1, x.2.holder))

/-- The map with the joint phase open, its leases not yet minted again. -/
def opened (m : LeaseMap) (from_ to_ : Nat) : LeaseMap :=
  { m with replication := { m.replication with
      change := some { from_ := from_, to_ := to_, since := m.next_epoch } } }

/-- Applies a committed request and answers with the last lease that it minted. -/
def apply (m : LeaseMap) (req : LeaseRequest) : LeaseMap × Option LeaseResponse :=
  match req with
  | .Assign group node =>
    let (m, r) := m.assign_one group node
    (m, some r)
  | .AssignMany assignments =>
    let (m, rs) := m.assign_all assignments
    (m, rs.getLast?)
  | .BeginReplicaChange from_ to_ =>
    if !m.replication.can_begin from_ to_ then (m, none)
    else
      let (m, rs) := (m.opened from_ to_).assign_all m.held
      (m, rs.getLast?)
  | .SetReplicas _ | .CommitReplicaChange _ =>
    ({ m with replication := m.replication.apply req }, none)

def get (m : LeaseMap) (group : GroupId) : Option LeaseRecord := m.leases[group]?

/-- The highest epoch minted so far. -/
def high_epoch (m : LeaseMap) : Epoch := m.next_epoch

/-! ## What a request mints -/

def assigns (m : LeaseMap) : LeaseRequest → List (GroupId × RaftNodeId)
  | .Assign group node => [(group, node)]
  | .AssignMany assignments => assignments
  | .BeginReplicaChange from_ to_ => if m.replication.can_begin from_ to_ then m.held else []
  | .SetReplicas _ | .CommitReplicaChange _ => []

def records (m : LeaseMap) (req : LeaseRequest) : ReplicationRecord :=
  match req with
  | .BeginReplicaChange from_ to_ =>
    if m.replication.can_begin from_ to_ then (m.opened from_ to_).replication else m.replication
  | _ => m.replication.apply req

def minted (m : LeaseMap) (req : LeaseRequest) : List LeaseResponse :=
  ({ m with replication := m.records req }.assign_all (m.assigns req)).2

variable (m : LeaseMap) (group : GroupId) (as : List (GroupId × RaftNodeId))

theorem apply_eq (req : LeaseRequest) :
    m.apply req =
      (({ m with replication := m.records req }.assign_all (m.assigns req)).1,
        (m.minted req).getLast?) := by
  unfold minted
  cases req with
  | Assign group node => rfl
  | AssignMany assignments => rfl
  | SetReplicas r => rfl
  | CommitReplicaChange to_ => rfl
  | BeginReplicaChange from_ to_ =>
    unfold apply records assigns
    by_cases h : m.replication.can_begin from_ to_ = true
    · simp [h, opened]
    · simp [h, assign_all]

/-! ## Runs -/

def run (m : LeaseMap) (reqs : List LeaseRequest) : LeaseMap :=
  reqs.foldl (fun m req => (m.apply req).1) m

def mints (m : LeaseMap) : List LeaseRequest → List LeaseResponse
  | [] => []
  | req :: reqs => m.minted req ++ mints (m.apply req).1 reqs

theorem run_append (as bs : List LeaseRequest) :
    m.run (as ++ bs) = (m.run as).run bs := List.foldl_append

theorem mints_append (as bs : List LeaseRequest) :
    m.mints (as ++ bs) = m.mints as ++ (m.run as).mints bs := by
  induction as generalizing m with
  | nil => rfl
  | cons req as ih =>
    rw [List.cons_append, mints, ih, mints, List.append_assoc]
    rfl

theorem run_snoc (reqs : List LeaseRequest) (req : LeaseRequest) :
    m.run (reqs ++ [req]) = ((m.run reqs).apply req).1 := by
  rw [run_append]
  rfl

theorem mints_snoc (reqs : List LeaseRequest) (req : LeaseRequest) :
    m.mints (reqs ++ [req]) = m.mints reqs ++ (m.run reqs).minted req := by
  rw [mints_append]
  simp [mints]

/-! ## A list of assignments -/

def lastLease (log : List LeaseResponse) (group : GroupId) : Option LeaseRecord :=
  (log.filter (fun r => r.group = group)).getLast?.map
    (fun r => { holder := r.holder, epoch := r.epoch })

@[simp] theorem lastLease_nil : lastLease [] group = none := rfl

theorem lastLease_append (as bs : List LeaseResponse) (group : GroupId) :
    lastLease (as ++ bs) group = (lastLease bs group).or (lastLease as group) := by
  unfold lastLease
  rw [List.filter_append, List.getLast?_append]
  cases (bs.filter (fun r => decide (r.group = group))).getLast? <;> rfl

theorem lastLease_mem {log : List LeaseResponse} {group : GroupId} {a : LeaseRecord}
    (h : lastLease log group = some a) :
    { group := group, holder := a.holder, epoch := a.epoch } ∈ log := by
  unfold lastLease at h
  rw [Option.map_eq_some_iff] at h
  obtain ⟨r, hr, rfl⟩ := h
  have hmem := List.mem_of_getLast? hr
  rw [List.mem_filter, decide_eq_true_eq] at hmem
  obtain ⟨hmem, rfl⟩ := hmem
  exact hmem

/-- What a list of assignments leaves, when the counter has room for it. -/
structure Assigned (m : LeaseMap) (as : List (GroupId × RaftNodeId)) (m' : LeaseMap)
    (log : List LeaseResponse) : Prop where
  next : m'.next_epoch = m.next_epoch + as.length
  names : log.map (fun r => (r.group, r.holder)) = as
  epochs : log.map (fun r => r.epoch) = List.range' (m.next_epoch + 1) as.length
  leases : ∀ group, m'.get group = (lastLease log group).or (m.get group)
  replication : m'.replication = m.replication

theorem assigned_all (hroom : m.next_epoch + as.length < 2 ^ 64) :
    Assigned m as (m.assign_all as).1 (m.assign_all as).2 := by
  induction as generalizing m with
  | nil => exact ⟨rfl, rfl, rfl, fun group => rfl, rfl⟩
  | cons a as ih =>
    obtain ⟨group, node⟩ := a
    rw [List.length_cons] at hroom
    have hepoch : (m.next_epoch + 1) % 2 ^ 64 = m.next_epoch + 1 := by
      apply Nat.mod_eq_of_lt
      unfold Epoch at *
      omega
    have hnext : (m.assign_one group node).1.next_epoch = m.next_epoch + 1 := hepoch
    have h := ih (m.assign_one group node).1 (by rw [hnext]; unfold Epoch at *; omega)
    simp only [assign_all]
    refine ⟨?_, ?_, ?_, ?_, ?_⟩
    · rw [h.next, hnext, List.length_cons]
      unfold Epoch at *
      omega
    · rw [List.map_cons, h.names]
      rfl
    · rw [List.map_cons, h.epochs, hnext, List.length_cons, List.range'_succ]
      simp only [assign_one, hepoch]
    · intro g
      rw [← List.singleton_append, lastLease_append, h.leases g]
      simp only [assign_one, get, BTreeMap.get_insert, lastLease]
      by_cases hg : group = g
      · simp [hg]
      · simp [hg]
    · exact h.replication

theorem assign_all_length : (m.assign_all as).2.length = as.length := by
  induction as generalizing m with
  | nil => rfl
  | cons a as ih => simp [assign_all, ih]

theorem assigned_apply (req : LeaseRequest)
    (hroom : m.next_epoch + (m.minted req).length < 2 ^ 64) :
    Assigned { m with replication := m.records req } (m.assigns req) (m.apply req).1
      (m.minted req) := by
  rw [apply_eq]
  apply assigned_all
  unfold minted at hroom
  rw [assign_all_length] at hroom
  exact hroom

theorem Assigned.above {m m' : LeaseMap} {as : List (GroupId × RaftNodeId)}
    {log : List LeaseResponse} (h : Assigned m as m' log) {r : LeaseResponse} (hr : r ∈ log) :
    m.next_epoch < r.epoch := by
  have hmem : r.epoch ∈ log.map (fun r => r.epoch) := List.mem_map_of_mem hr
  rw [h.epochs, List.mem_range'_1] at hmem
  exact hmem.1

/-! ## The node that was named last -/

def lastNamed (as : List (GroupId × RaftNodeId)) (group : GroupId) : Option RaftNodeId :=
  (as.filter (fun a => a.1 = group)).getLast?.map (fun a => a.2)

theorem lastNamed_append (bs : List (GroupId × RaftNodeId)) (group : GroupId) :
    lastNamed (as ++ bs) group = (lastNamed bs group).or (lastNamed as group) := by
  unfold lastNamed
  rw [List.filter_append, List.getLast?_append]
  cases (bs.filter (fun a => decide (a.1 = group))).getLast? <;> rfl

theorem lastLease_holder (log : List LeaseResponse) (group : GroupId) :
    (lastLease log group).map LeaseRecord.holder =
      lastNamed (log.map (fun r => (r.group, r.holder))) group := by
  unfold lastLease lastNamed
  rw [List.filter_map, List.getLast?_map]
  simp only [Option.map_map]
  rfl

theorem mem_held (node : RaftNodeId) :
    (group, node) ∈ m.held ↔ (m.get group).map LeaseRecord.holder = some node := by
  unfold held get
  rw [List.mem_map, Option.map_eq_some_iff]
  constructor
  · rintro ⟨⟨g, a⟩, hmem, heq⟩
    rw [Prod.mk.injEq] at heq
    obtain ⟨rfl, rfl⟩ := heq
    exact ⟨a, (BTreeMap.mem_toList _ _ _).mp hmem, rfl⟩
  · rintro ⟨a, ha, rfl⟩
    exact ⟨(group, a), (BTreeMap.mem_toList _ _ _).mpr ha, rfl⟩

theorem lastNamed_held : lastNamed m.held group = (m.get group).map LeaseRecord.holder := by
  unfold lastNamed
  rcases hlast : (m.held.filter (fun a => decide (a.1 = group))).getLast? with _ | ⟨g, node⟩
  · rcases hget : (m.get group).map LeaseRecord.holder with _ | node
    · rw [hlast]
      rfl
    · have hmem := (m.mem_held group node).mpr hget
      rw [List.getLast?_eq_none_iff, List.filter_eq_nil_iff] at hlast
      simpa using hlast _ hmem
  · have hmem := List.mem_of_getLast? hlast
    rw [List.mem_filter, decide_eq_true_eq] at hmem
    obtain ⟨hmem, hg⟩ := hmem
    dsimp only at hg
    subst hg
    rw [(m.mem_held g node).mp hmem, hlast]
    rfl

/-! ## What every run keeps -/

end LeaseMap

def LeaseRequest.named : LeaseRequest → List (GroupId × RaftNodeId)
  | .Assign group node => [(group, node)]
  | .AssignMany assignments => assignments
  | .SetReplicas _ | .BeginReplicaChange .. | .CommitReplicaChange _ => []

namespace LeaseMap

/-- The open change against the factor in force and the leases. -/
structure Joint (m : LeaseMap) (c : ReplicaChange) : Prop where
  from_eq : c.from_ = m.replication.effective
  target : ReplicationRecord.valid c.to_ = true
  since_le : c.since ≤ m.next_epoch
  above : ∀ group a, m.get group = some a → c.since < a.epoch

/-- The map against every mint so far and every assignment that was named. -/
structure Kept (m : LeaseMap) (log : List LeaseResponse) (named : List (GroupId × RaftNodeId)) :
    Prop where
  next : m.next_epoch = log.length
  epochs : log.map (fun r => r.epoch) = List.range' 1 log.length
  leases : ∀ group, m.get group = lastLease log group
  holders : ∀ group, (m.get group).map LeaseRecord.holder = lastNamed named group
  factor : ReplicationRecord.valid m.replication.effective = true
  joint : ∀ c, m.replication.change = some c → Joint m c

theorem kept_new : Kept new [] [] := by
  refine ⟨rfl, rfl, ?_, ?_, by decide, ?_⟩
  · intro group
    simp [get, new]
  · intro group
    simp [get, new, lastNamed]
  · intro c hc
    cases hc

variable {m : LeaseMap} {log : List LeaseResponse} {named : List (GroupId × RaftNodeId)}
  {req : LeaseRequest}

theorem Kept.epochs_apply (h : Kept m log named)
    (ha : Assigned { m with replication := m.records req } (m.assigns req) (m.apply req).1
      (m.minted req)) :
    (log ++ m.minted req).map (fun r => r.epoch) =
      List.range' 1 (log ++ m.minted req).length := by
  have hlen : (m.minted req).length = (m.assigns req).length := by
    rw [minted, assign_all_length]
  have hnext : m.next_epoch + 1 = 1 + log.length := by
    rw [h.next, Nat.add_comm]
  rw [List.map_append, h.epochs, ha.epochs, List.length_append, hlen]
  dsimp only
  rw [hnext, List.range'_append_1]

theorem Kept.holders_apply (h : Kept m log named)
    (ha : Assigned { m with replication := m.records req } (m.assigns req) (m.apply req).1
      (m.minted req)) (group : GroupId) :
    ((m.apply req).1.get group).map LeaseRecord.holder =
      lastNamed (named ++ req.named) group := by
  have hold : ((m.apply req).1.get group).map LeaseRecord.holder =
      (lastNamed (m.assigns req) group).or ((m.get group).map LeaseRecord.holder) := by
    rw [ha.leases, ← ha.names, ← lastLease_holder]
    cases lastLease (m.minted req) group <;> rfl
  rw [hold, lastNamed_append, h.holders]
  cases req with
  | Assign g node => rfl
  | AssignMany assignments => rfl
  | SetReplicas r => rfl
  | CommitReplicaChange to_ => rfl
  | BeginReplicaChange from_ to_ =>
    simp only [assigns]
    split
    · rw [lastNamed_held, h.holders]
      cases lastNamed named group <;> rfl
    · rfl

/-! ## The record after a request -/

/-- When a request takes effect. -/
def Precondition (m : LeaseMap) : LeaseRequest → Prop
  | .Assign .. | .AssignMany _ => True
  | .SetReplicas r =>
    m.replication.replicas = none ∧ m.replication.change = none ∧ 2 ≤ r ∧ r ≤ 7
  | .BeginReplicaChange from_ to_ =>
    m.replication.change = none ∧ from_ = m.replication.effective ∧ 2 ≤ to_ ∧ to_ ≤ 7 ∧
      to_ ≠ from_
  | .CommitReplicaChange to_ => ∃ c, m.replication.change = some c ∧ c.to_ = to_

theorem valid_iff (r : Nat) : ReplicationRecord.valid r = true ↔ 2 ≤ r ∧ r ≤ 7 := by
  unfold ReplicationRecord.valid
  rw [decide_eq_true_iff]
  rfl

theorem can_begin_iff (m : LeaseMap) (from_ to_ : Nat) :
    m.replication.can_begin from_ to_ = true ↔
      m.Precondition (.BeginReplicaChange from_ to_) := by
  unfold ReplicationRecord.can_begin Precondition
  rw [Bool.and_eq_true, Bool.and_eq_true, Bool.and_eq_true, valid_iff]
  simp [and_assoc]

inductive Recorded (m : LeaseMap) : LeaseRequest → ReplicationRecord → Prop
  | founded {r : Nat} (h : m.Precondition (.SetReplicas r)) :
    Recorded m (.SetReplicas r) { replicas := some r, change := none }
  | opened {from_ to_ : Nat} (h : m.Precondition (.BeginReplicaChange from_ to_)) :
    Recorded m (.BeginReplicaChange from_ to_)
      { m.replication with change := some ⟨from_, to_, m.next_epoch⟩ }
  | committed {c : ReplicaChange} (h : m.replication.change = some c) :
    Recorded m (.CommitReplicaChange c.to_) { replicas := some c.to_, change := none }
  | assigned {group : GroupId} {node : RaftNodeId} :
    Recorded m (.Assign group node) m.replication
  | assignedMany {assignments : List (GroupId × RaftNodeId)} :
    Recorded m (.AssignMany assignments) m.replication
  | rejected {req : LeaseRequest} (h : ¬ m.Precondition req) (hreq : m.assigns req = []) :
    Recorded m req m.replication

theorem recorded (m : LeaseMap) (req : LeaseRequest) : Recorded m req (m.records req) := by
  cases req with
  | Assign group node => exact .assigned
  | AssignMany assignments => exact .assignedMany
  | SetReplicas r =>
    simp only [records, ReplicationRecord.apply]
    split
    · rename_i h
      have hpre : m.Precondition (.SetReplicas r) := by
        rw [Bool.and_eq_true, Bool.and_eq_true, valid_iff] at h
        simpa [Precondition, and_assoc] using h
      have hrec := Recorded.founded hpre
      rw [← hpre.2.1] at hrec
      exact hrec
    · rename_i h
      refine .rejected (fun hpre => h ?_) rfl
      obtain ⟨h1, h2, h3⟩ := hpre
      rw [h1, h2, (valid_iff r).mpr h3]
      rfl
  | CommitReplicaChange to_ =>
    simp only [records, ReplicationRecord.apply]
    split
    · rename_i h
      obtain ⟨c, hc, hto⟩ := (Option.any_eq_true ..).mp h
      rw [beq_iff_eq] at hto
      subst hto
      exact .committed hc
    · rename_i h
      refine .rejected (fun hpre => h ?_) rfl
      obtain ⟨c, hc, hto⟩ := hpre
      rw [hc]
      simpa using hto
  | BeginReplicaChange from_ to_ =>
    simp only [records]
    split
    · rename_i h
      exact .opened ((can_begin_iff m from_ to_).mp h)
    · rename_i h
      refine .rejected (fun hpre => h ((can_begin_iff m from_ to_).mpr hpre)) ?_
      simp [assigns, h]

/-- A request whose precondition fails changes nothing and answers nothing. -/
theorem apply_rejected (h : ¬ m.Precondition req) : m.apply req = (m, none) := by
  have hrec := recorded m req
  have hnil : m.records req = m.replication ∧ m.assigns req = [] := by
    generalize m.records req = rec at hrec
    cases hrec with
    | founded hpre => exact absurd hpre h
    | opened hpre => exact absurd hpre h
    | committed hc => exact absurd ⟨_, hc, rfl⟩ h
    | assigned => exact absurd trivial h
    | assignedMany => exact absurd trivial h
    | rejected _ hreq => exact ⟨rfl, hreq⟩
  rw [apply_eq, minted, hnil.1, hnil.2]
  rfl

/-! ## One step -/

variable {group : GroupId} {a : LeaseRecord}

theorem Assigned.lease {m' : LeaseMap} {as : List (GroupId × RaftNodeId)}
    (h : Assigned m as m' log) (ha : m'.get group = some a) :
    m.next_epoch < a.epoch ∨ lastNamed as group = none ∧ m.get group = some a := by
  rw [h.leases] at ha
  rcases hlast : lastLease log group with _ | b
  · rw [hlast, Option.none_or] at ha
    refine Or.inr ⟨?_, ha⟩
    rw [← h.names, ← lastLease_holder, hlast]
    rfl
  · rw [hlast, Option.some_or, Option.some.injEq] at ha
    subst ha
    exact Or.inl (h.above (lastLease_mem hlast))

theorem Kept.joint_apply (h : Kept m log named)
    (ha : Assigned { m with replication := m.records req } (m.assigns req) (m.apply req).1
      (m.minted req)) :
    ReplicationRecord.valid (m.apply req).1.replication.effective = true ∧
      ∀ c, (m.apply req).1.replication.change = some c → Joint (m.apply req).1 c := by
  have hnext : m.next_epoch ≤ (m.apply req).1.next_epoch := by
    rw [ha.next]
    exact Nat.le_add_right ..
  -- A request that leaves the record as it is only adds leases above it.
  have hsame : (m.apply req).1.replication = m.replication →
      ReplicationRecord.valid (m.apply req).1.replication.effective = true ∧
        ∀ c, (m.apply req).1.replication.change = some c → Joint (m.apply req).1 c := by
    intro hrep
    rw [hrep]
    refine ⟨h.factor, fun c hc => ?_⟩
    have hj := h.joint c hc
    refine ⟨by rw [hrep]; exact hj.from_eq, hj.target, le_trans hj.since_le hnext, ?_⟩
    intro group a hget
    rcases ha.lease hget with hnew | ⟨-, hold⟩
    · exact lt_of_le_of_lt hj.since_le hnew
    · exact hj.above group a hold
  have hrep : (m.apply req).1.replication = m.records req := ha.replication
  have hrec := recorded m req
  generalize hgen : m.records req = rec at hrec hrep
  cases hrec with
  | assigned => exact hsame hrep
  | assignedMany => exact hsame hrep
  | rejected _ _ => exact hsame hrep
  | founded hpre =>
    rw [hrep]
    exact ⟨(valid_iff _).mpr hpre.2.2, fun c hc => by cases hc⟩
  | committed hc =>
    rw [hrep]
    exact ⟨(h.joint _ hc).target, fun c hc => by cases hc⟩
  | @opened from_ to_ hpre =>
    rw [hrep]
    refine ⟨h.factor, fun c hc => ?_⟩
    cases hc
    refine ⟨by rw [hrep]; exact hpre.2.1, (valid_iff _).mpr ⟨hpre.2.2.1, hpre.2.2.2.1⟩, hnext, ?_⟩
    intro group a hget
    rcases ha.lease hget with hnew | ⟨hnone, hold⟩
    · exact hnew
    · -- A group with a lease is minted again.
      have hbegin := (can_begin_iff m from_ to_).mpr hpre
      simp only [assigns, hbegin, if_true] at hnone
      rw [lastNamed_held, Option.map_eq_none_iff] at hnone
      rw [get] at hold hnone
      rw [hnone] at hold
      cases hold

theorem kept_apply (h : Kept m log named) (req : LeaseRequest)
    (hroom : (log ++ m.minted req).length < 2 ^ 64) :
    Kept (m.apply req).1 (log ++ m.minted req) (named ++ req.named) := by
  rw [List.length_append] at hroom
  have ha := assigned_apply m req (by rw [h.next]; exact hroom)
  refine ⟨?_, h.epochs_apply ha, ?_, h.holders_apply ha, (h.joint_apply ha).1,
    (h.joint_apply ha).2⟩
  · rw [ha.next, List.length_append, minted, assign_all_length]
    dsimp only
    rw [h.next]
  · intro group
    rw [ha.leases, lastLease_append, ← h.leases]
    rfl

theorem kept_run (reqs : List LeaseRequest) (hroom : (new.mints reqs).length < 2 ^ 64) :
    Kept (new.run reqs) (new.mints reqs) (reqs.flatMap LeaseRequest.named) := by
  induction reqs using List.reverseRecOn with
  | nil => exact kept_new
  | append_singleton reqs req ih =>
    rw [mints_snoc] at hroom ⊢
    have hless : (new.mints reqs).length < 2 ^ 64 := by
      rw [List.length_append] at hroom
      omega
    rw [run_snoc, List.flatMap_append, List.flatMap_singleton]
    exact kept_apply (ih hless) req hroom

/-! ## The record over a run -/

theorem assign_all_replication (m : LeaseMap) (as : List (GroupId × RaftNodeId)) :
    (m.assign_all as).1.replication = m.replication := by
  induction as generalizing m with
  | nil => rfl
  | cons a as ih =>
    simp only [assign_all]
    rw [ih]
    rfl

theorem apply_replication (m : LeaseMap) (req : LeaseRequest) :
    (m.apply req).1.replication = m.records req := by
  rw [apply_eq, assign_all_replication]

theorem effective_moves (h : (m.apply req).1.replication.effective ≠ m.replication.effective) :
    (∃ r, req = .SetReplicas r ∧ m.Precondition req ∧
        (m.apply req).1.replication.effective = r) ∨
      ∃ c, m.replication.change = some c ∧ req = .CommitReplicaChange c.to_ ∧
        (m.apply req).1.replication.effective = c.to_ := by
  rw [apply_replication] at h ⊢
  have hrec := recorded m req
  generalize m.records req = rec at hrec h ⊢
  cases hrec with
  | assigned => exact absurd rfl h
  | assignedMany => exact absurd rfl h
  | rejected _ _ => exact absurd rfl h
  | opened _ => exact absurd rfl h
  | @founded r hpre => exact Or.inl ⟨r, rfl, hpre, rfl⟩
  | @committed c hc => exact Or.inr ⟨c, hc, rfl, rfl⟩

/-- A factor that is committed stays committed. -/
theorem replicas_run (h : m.replication.replicas.isSome = true) (reqs : List LeaseRequest) :
    (m.run reqs).replication.replicas.isSome = true := by
  induction reqs generalizing m with
  | nil => exact h
  | cons req reqs ih =>
    apply ih
    rw [apply_replication]
    have hrec := recorded m req
    generalize m.records req = rec at hrec ⊢
    cases hrec with
    | assigned => exact h
    | assignedMany => exact h
    | rejected _ _ => exact h
    | opened _ => exact h
    | founded _ => rfl
    | committed _ => rfl

/-- Where an open change was opened, and that it has been open since. -/
structure OpenedAt (reqs : List LeaseRequest) (c : ReplicaChange)
    (before after : List LeaseRequest) : Prop where
  split : reqs = before ++ .BeginReplicaChange c.from_ c.to_ :: after
  closed : (new.run before).replication.change = none
  since : c.since = (new.run before).high_epoch
  still : ∀ mid, mid <+: after →
    (new.run (before ++ .BeginReplicaChange c.from_ c.to_ :: mid)).replication.change = some c

variable {reqs before after : List LeaseRequest} {c : ReplicaChange}

theorem OpenedAt.snoc (h : OpenedAt reqs c before after)
    (hc : (new.run (reqs ++ [req])).replication.change = some c) :
    OpenedAt (reqs ++ [req]) c before (after ++ [req]) := by
  refine ⟨by rw [h.split]; simp, h.closed, h.since, ?_⟩
  intro mid hmid
  rcases List.prefix_concat_iff.mp hmid with rfl | hless
  · have hsplit := h.split
    rw [hsplit] at hc
    simpa using hc
  · exact h.still mid hless

theorem opened_at (reqs : List LeaseRequest) (c : ReplicaChange)
    (hc : (new.run reqs).replication.change = some c) :
    ∃ before after, OpenedAt reqs c before after := by
  induction reqs using List.reverseRecOn with
  | nil => cases hc
  | append_singleton reqs req ih =>
    have hstep := hc
    rw [run_snoc, apply_replication] at hstep
    have hrec := recorded (new.run reqs) req
    -- A request that leaves the record alone leaves the change open since the same place.
    have hsame : (new.run reqs).replication.change = some c →
        ∃ before after, OpenedAt (reqs ++ [req]) c before after := by
      intro hold
      obtain ⟨before, after, h⟩ := ih hold
      exact ⟨before, after ++ [req], h.snoc hc⟩
    generalize (new.run reqs).records req = rec at hrec hstep
    cases hrec with
    | assigned => exact hsame hstep
    | assignedMany => exact hsame hstep
    | rejected _ _ => exact hsame hstep
    | founded _ => cases hstep
    | committed _ => cases hstep
    | opened hpre =>
      cases hstep
      refine ⟨reqs, [], rfl, hpre.1, rfl, ?_⟩
      intro mid hmid
      rw [List.prefix_nil.mp hmid]
      exact hc

/-! ## Every run -/

/-- The lease state machine after a sequence of requests, against what it minted. -/
structure WellFormed (reqs : List LeaseRequest) : Prop where
  increasing : (new.mints reqs).Pairwise (fun a b => a.epoch < b.epoch)
  current : ∀ group, (new.run reqs).get group = lastLease (new.mints reqs) group
  holder : ∀ group, ((new.run reqs).get group).map LeaseRecord.holder =
    lastNamed (reqs.flatMap LeaseRequest.named) group
  apart : ∀ as bs, as <+: reqs → bs <+: reqs → ∀ g h a b, (new.run as).get g = some a →
    (new.run bs).get h = some b → a.epoch = b.epoch → g = h
  high_minted : ∀ r ∈ new.mints reqs, r.epoch ≤ (new.run reqs).high_epoch
  high_held : ∀ group a, (new.run reqs).get group = some a →
    a.epoch ≤ (new.run reqs).high_epoch
  joint : ∀ c, (new.run reqs).replication.change = some c →
    c.from_ = (new.run reqs).replication.effective ∧
      (∀ group a, (new.run reqs).get group = some a → c.since < a.epoch) ∧
      ∃ before after, OpenedAt reqs c before after ∧
        (∀ r ∈ new.mints before, r.epoch ≤ c.since) ∧
        ∀ r ∈ (new.run before).mints (.BeginReplicaChange c.from_ c.to_ :: after),
          c.since < r.epoch
  factor : 2 ≤ (new.run reqs).replication.effective ∧ (new.run reqs).replication.effective ≤ 7
  moves : ∀ before req after, reqs = before ++ req :: after →
    (new.run (before ++ [req])).replication.effective ≠ (new.run before).replication.effective →
    (∃ r, req = .SetReplicas r ∧ (new.run before).Precondition req ∧
        (new.run (before ++ [req])).replication.effective = r) ∨
      ∃ c, (new.run before).replication.change = some c ∧ req = .CommitReplicaChange c.to_ ∧
        (new.run (before ++ [req])).replication.effective = c.to_
  founded_once : ∀ before r between s after,
    reqs = before ++ .SetReplicas r :: between ++ .SetReplicas s :: after →
    (new.run before).Precondition (.SetReplicas r) →
    ¬ (new.run (before ++ .SetReplicas r :: between)).Precondition (.SetReplicas s)
  rejected : ∀ before req after, reqs = before ++ req :: after →
    ¬ (new.run before).Precondition req →
    (new.run before).apply req = (new.run before, none)

theorem Kept.increasing (h : Kept m log named) : log.Pairwise (fun a b => a.epoch < b.epoch) := by
  have hrange : (log.map (fun r => r.epoch)).Pairwise (· < ·) := by
    rw [h.epochs]
    exact List.pairwise_lt_range'
  exact List.pairwise_map.mp hrange

theorem Kept.minted_le (h : Kept m log named) {r : LeaseResponse} (hr : r ∈ log) :
    r.epoch ≤ m.high_epoch := by
  have hmem : r.epoch ∈ log.map (fun r => r.epoch) := List.mem_map_of_mem hr
  rw [h.epochs, List.mem_range'_1] at hmem
  unfold high_epoch
  rw [h.next]
  unfold Epoch at *
  omega

theorem Kept.eq_of_epoch (h : Kept m log named) {r s : LeaseResponse} (hr : r ∈ log)
    (hs : s ∈ log) (heq : r.epoch = s.epoch) : r = s := by
  have hnodup : (log.map (fun r => r.epoch)).Nodup := by
    rw [h.epochs]
    exact List.nodup_range'
  exact List.inj_on_of_nodup_map hnodup hr hs heq

theorem mints_initial {as : List LeaseRequest} (h : as <+: reqs) (m : LeaseMap) :
    m.mints as <+: m.mints reqs := by
  obtain ⟨rest, rfl⟩ := h
  rw [mints_append]
  exact List.prefix_append _ _

theorem held_minted {as : List LeaseRequest} (has : as <+: reqs)
    (hroom : (new.mints reqs).length < 2 ^ 64) (ha : (new.run as).get group = some a) :
    { group := group, holder := a.holder, epoch := a.epoch } ∈ new.mints reqs := by
  have hpre := mints_initial has new
  have h := kept_run as (lt_of_le_of_lt hpre.length_le hroom)
  rw [h.leases] at ha
  exact hpre.subset (lastLease_mem ha)

theorem OpenedAt.sides (h : OpenedAt reqs c before after)
    (hroom : (new.mints reqs).length < 2 ^ 64) :
    (∀ r ∈ new.mints before, r.epoch ≤ c.since) ∧
      ∀ r ∈ (new.run before).mints (.BeginReplicaChange c.from_ c.to_ :: after),
        c.since < r.epoch := by
  have hlog : new.mints reqs = new.mints before ++
      (new.run before).mints (.BeginReplicaChange c.from_ c.to_ :: after) := by
    rw [h.split, mints_append]
  have hall := kept_run reqs hroom
  have hbefore := kept_run before (by
    rw [hlog, List.length_append] at hroom
    omega)
  refine ⟨fun r hr => by rw [h.since]; exact hbefore.minted_le hr, fun r hr => ?_⟩
  -- The epochs of the run are one range, and the mints before the change are its first part.
  have hepochs := hall.epochs
  rw [hlog, List.map_append, hbefore.epochs, List.length_append, ← List.range'_append_1] at hepochs
  have htail := List.append_cancel_left hepochs
  have hmem : r.epoch ∈ ((new.run before).mints
      (.BeginReplicaChange c.from_ c.to_ :: after)).map (fun r => r.epoch) :=
    List.mem_map_of_mem hr
  rw [htail, List.mem_range'_1] at hmem
  rw [h.since, high_epoch, hbefore.next]
  unfold Epoch at *
  omega

theorem founded_once {between : List LeaseRequest} {r s : Nat}
    (h : (new.run before).Precondition (.SetReplicas r)) :
    ¬ (new.run (before ++ .SetReplicas r :: between)).Precondition (.SetReplicas s) := by
  intro hs
  have hfounded : ((new.run before).apply (.SetReplicas r)).1.replication.replicas.isSome
      = true := by
    rw [apply_replication]
    simp [records, ReplicationRecord.apply, h.1, h.2.1, (valid_iff r).mpr h.2.2]
  have hstill := replicas_run hfounded between
  have hnone := hs.1
  rw [run_append] at hnone
  rw [show ((new.run before).apply (.SetReplicas r)).1.run between =
    (new.run before).run (.SetReplicas r :: between) from rfl, hnone] at hstill
  cases hstill

/-- The lease state machine is well formed in every run that mints fewer epochs than the
counter has. -/
theorem every_run_is_well_formed (reqs : List LeaseRequest)
    (hroom : (new.mints reqs).length < 2 ^ 64) : WellFormed reqs := by
  have h := kept_run reqs hroom
  refine ⟨h.increasing, h.leases, h.holders, ?_, fun r hr => h.minted_le hr, ?_, ?_,
    (valid_iff _).mp h.factor, ?_, ?_, ?_⟩
  · intro as bs has hbs g k a b ha hb heq
    have heq' := h.eq_of_epoch (held_minted has hroom ha) (held_minted hbs hroom hb) heq
    exact congrArg LeaseResponse.group heq'
  · intro group a ha
    exact h.minted_le (held_minted List.prefix_rfl hroom ha)
  · intro c hc
    obtain ⟨before, after, hopen⟩ := opened_at reqs c hc
    exact ⟨(h.joint c hc).from_eq, (h.joint c hc).above, before, after, hopen,
      hopen.sides hroom⟩
  · intro before req after _ hne
    rw [run_snoc] at hne ⊢
    exact effective_moves hne
  · intro before r between s after _ hfirst
    exact founded_once hfirst
  · intro before req after _ hpre
    exact apply_rejected hpre

/-- Two groups change hands while a change of the factor opens and is committed. -/
theorem a_run_with_a_change_is_well_formed :
    (new.mints [.SetReplicas 3, .AssignMany [(1, 10), (2, 20)], .BeginReplicaChange 3 5,
      .Assign 1 30, .CommitReplicaChange 5, .SetReplicas 2]).length = 5 ∧
    WellFormed [.SetReplicas 3, .AssignMany [(1, 10), (2, 20)], .BeginReplicaChange 3 5,
      .Assign 1 30, .CommitReplicaChange 5, .SetReplicas 2] :=
  ⟨by decide +kernel, every_run_is_well_formed _ (by decide +kernel)⟩

end LeaseMap

end mqtt_cluster.lease_raft
