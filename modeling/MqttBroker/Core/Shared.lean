-- The registry of shared subscriptions (`shared.rs`): the groups over each filter
-- with their members, the groups of each client, the index over the filters, and
-- the clients of another shard. Every call keeps the four in agreement.
import MqttBroker.Lib.OrderedMap
import MqttBroker.Core.FilterIndex
import MqttBroker.Core.GroupMembers

namespace mqtt_core.shared

open filter_index

/-- A group as the table of a client names it: its filter and its share name. -/
abbrev Membership := FilterKey × String

abbrev Groups := BTreeMap FilterKey (BTreeMap String GroupMembers)

structure SharedSubscriptionTable where
  groups : Groups := ∅
  by_client : BTreeMap ClientId (List Membership) := ∅
  index : FilterIndex := {}
  foreign : BTreeSet ClientId := ∅

def group_at (groups : Groups) (k : Membership) : Option GroupMembers :=
  groups[k.1]?.bind (fun by_group => by_group[k.2]?)

/-- One turn of the loop of `set_client_online`. -/
def set_member_online (client : ClientId) (online own : Bool) (groups : Groups) (k : Membership) :
    Groups :=
  match groups[k.1]? with
  | none => groups
  | some by_group =>
    match by_group[k.2]? with
    | none => groups
    | some members =>
      groups.insert k.1 (by_group.insert k.2 (members.set_online client online own).1)

/-- Takes a client out of a group, the group out when it is the last member, and the filter out
when it is the last group. Says whether the client was a member. -/
def drop_member (client : ClientId) (groups : Groups) (index : FilterIndex) (k : Membership) :
    Groups × FilterIndex × Bool :=
  match groups[k.1]? with
  | none => (groups, index, false)
  | some by_group =>
    let (by_group, removed) := match by_group[k.2]? with
      | none => (by_group, false)
      | some members =>
        let (members, removed) := members.remove client
        (if members.is_empty then by_group.erase k.2 else by_group.insert k.2 members, removed)
    if by_group.isEmpty then (groups.erase k.1, index.remove k.1, removed)
    else (groups.insert k.1 by_group, index, removed)

namespace SharedSubscriptionTable

def new : SharedSubscriptionTable := {}

def subscribe_member (t : SharedSubscriptionTable) (client : ClientId) (group : String)
    (filter : String) (max_qos : QoS) (online own : Bool) : SharedSubscriptionTable :=
  let foreign := if own then t.foreign.erase client else t.foreign.insert client
  let index := if t.groups[filter]?.isNone then t.index.insert filter else t.index
  let by_group := t.groups[filter]?.getD ∅
  let (members, fresh) := (by_group[group]?.getD {}).insert client max_qos online own
  { groups := t.groups.insert filter (by_group.insert group members)
    by_client :=
      if fresh then
        t.by_client.insert client (t.by_client[client]?.getD [] ++ [(filter, group)])
      else t.by_client
    index := index
    foreign := foreign }

def subscribe (t : SharedSubscriptionTable) (client : ClientId) (group : String)
    (filter : String) (max_qos : QoS) (online : Bool) : SharedSubscriptionTable :=
  t.subscribe_member client group filter max_qos online true

def set_client_online (t : SharedSubscriptionTable) (client : ClientId) (online : Bool) :
    SharedSubscriptionTable :=
  match t.by_client[client]? with
  | none => t
  | some memberships =>
    let own := !t.foreign.contains client
    { t with groups := memberships.foldl (set_member_online client online own) t.groups }

def unsubscribe (t : SharedSubscriptionTable) (client : ClientId) (group : String)
    (filter : String) : SharedSubscriptionTable :=
  let (groups, index, removed) := drop_member client t.groups t.index (filter, group)
  let t := { t with groups := groups, index := index }
  if removed then
    match t.by_client[client]? with
    | none => t
    | some m =>
      let m := m.filter (fun k => k.1 ≠ filter ∨ k.2 ≠ group)
      if m.isEmpty then
        { t with by_client := t.by_client.erase client, foreign := t.foreign.erase client }
      else { t with by_client := t.by_client.insert client m }
  else t

def remove_client (t : SharedSubscriptionTable) (client : ClientId) : SharedSubscriptionTable :=
  let t := { t with foreign := t.foreign.erase client }
  match t.by_client[client]? with
  | none => t
  | some memberships =>
    let (groups, index) := memberships.foldl (fun (gi : Groups × FilterIndex) k =>
      let (groups, index, _) := drop_member client gi.1 gi.2 k
      (groups, index)) (t.groups, t.index)
    { t with groups := groups, index := index, by_client := t.by_client.erase client }

end SharedSubscriptionTable

/-! ## Histories of the table -/

inductive SharedOp
  | SubscribeMember (client : ClientId) (group filter : String) (max_qos : QoS)
    (online own : Bool)
  | SetClientOnline (client : ClientId) (online : Bool)
  | Unsubscribe (client : ClientId) (group filter : String)
  | RemoveClient (client : ClientId)
  deriving DecidableEq

def SharedSubscriptionTable.step (t : SharedSubscriptionTable) :
    SharedOp → SharedSubscriptionTable
  | .SubscribeMember client group filter max_qos online own =>
    t.subscribe_member client group filter max_qos online own
  | .SetClientOnline client online => t.set_client_online client online
  | .Unsubscribe client group filter => t.unsubscribe client group filter
  | .RemoveClient client => t.remove_client client

def SharedSubscriptionTable.run (t : SharedSubscriptionTable) (ops : List SharedOp) :
    SharedSubscriptionTable := ops.foldl SharedSubscriptionTable.step t

/-- A client is the same shard's in every call. -/
def SharedOp.Keeps (own : ClientId → Bool) : SharedOp → Prop
  | .SubscribeMember client _ _ _ _ o => o = own client
  | _ => True

abbrev Statuses := ClientId → Membership → GroupMembers.Status

def Statuses.put (status : Statuses) (client : ClientId) (k : Membership)
    (s : GroupMembers.Status) : Statuses :=
  fun c k' => if c = client ∧ k' = k then s else status c k'

def Statuses.after (status : Statuses) : SharedOp → Statuses
  | .SubscribeMember client group filter max_qos online _ =>
    status.put client (filter, group) (some (max_qos, online))
  | .SetClientOnline client online =>
    fun c k => if c = client then (status c k).map (fun s => (s.1, online)) else status c k
  | .Unsubscribe client group filter => status.put client (filter, group) none
  | .RemoveClient client => fun c k => if c = client then none else status c k

def statuses (ops : List SharedOp) : Statuses := ops.foldl Statuses.after (fun _ _ => none)

/-! ## The groups -/

theorem Statuses.put_same (status : Statuses) (client : ClientId) (k : Membership)
    (s : GroupMembers.Status) :
    (fun c => status.put client k s c k) = Function.update (fun c => status c k) client s := by
  funext c
  unfold put
  by_cases hc : c = client
  · subst hc
    rw [Function.update_self, if_pos ⟨rfl, rfl⟩]
  · rw [Function.update_of_ne hc, if_neg (fun h => hc h.1)]

variable {k : Membership}

theorem Statuses.put_other (status : Statuses) (client : ClientId) {k' : Membership}
    (s : GroupMembers.Status) (hk : k' ≠ k) (c : ClientId) :
    status.put client k s c k' = status c k' := by
  unfold put
  rw [if_neg (fun h => hk h.2)]

variable {s : GroupMembers.Status}

theorem Statuses.put_self (status : Statuses) (client : ClientId) (k : Membership)
    (h : status client k = s) : status.put client k s = status := by
  funext c k'
  unfold put
  split
  · rename_i hck
    rw [hck.1, hck.2, h]
  · rfl

/-- The groups and the index over their filters, against the state of every client. -/
structure GroupsKept (own : ClientId → Bool) (groups : Groups) (index : FilterIndex)
    (status : Statuses) : Prop where
  members : ∀ k m, group_at groups k = some m →
    GroupMembers.Matches m own (fun c => status c k) ∧ m.all ≠ []
  absent : ∀ k, group_at groups k = none → ∀ c, status c k = none
  filled : ∀ (f : FilterKey) (by_group : BTreeMap String GroupMembers),
    groups[f]? = some by_group → by_group.isEmpty = false
  index : index.Holds (fun f => groups[f]?.isSome = true)

variable {own : ClientId → Bool} {groups : Groups} {index : FilterIndex} {status : Statuses}

theorem GroupsKept.group_matches (h : GroupsKept own groups index status) (k : Membership) :
    GroupMembers.Matches ((group_at groups k).getD {}) own (fun c => status c k) := by
  rcases hk : group_at groups k with _ | m
  · have hnone : (fun c => status c k) = fun _ => none := by
      funext c
      exact h.absent k hk c
    rw [hnone]
    exact GroupMembers.matches_empty own
  · exact (h.members k m hk).1

variable {new : Option GroupMembers} {client : ClientId}

theorem GroupsKept.change {groups' : Groups} {index' : FilterIndex}
    (h : GroupsKept own groups index status)
    (hat : ∀ k', group_at groups' k' = if k' = k then new else group_at groups k')
    (hnew : ∀ m, new = some m → GroupMembers.Matches m own
      (Function.update (fun c => status c k) client s) ∧ m.all ≠ [])
    (hnone : new = none → ∀ c, Function.update (fun c => status c k) client s c = none)
    (hfilled : ∀ (f : FilterKey) (by_group : BTreeMap String GroupMembers),
      groups'[f]? = some by_group → by_group.isEmpty = false)
    (hindex : index'.Holds (fun f => groups'[f]?.isSome = true)) :
    GroupsKept own groups' index' (status.put client k s) := by
  refine ⟨?_, ?_, hfilled, hindex⟩
  · intro k' m hm
    rw [hat] at hm
    by_cases hk : k' = k
    · subst hk
      rw [if_pos rfl] at hm
      rw [Statuses.put_same]
      exact hnew m hm
    · rw [if_neg hk] at hm
      have hsame : (fun c => status.put client k s c k') = fun c => status c k' := by
        funext c
        exact status.put_other client s hk c
      rw [hsame]
      exact h.members k' m hm
  · intro k' hk'
    rw [hat] at hk'
    by_cases hk : k' = k
    · subst hk
      rw [if_pos rfl] at hk'
      intro c
      have := hnone hk' c
      rw [← Statuses.put_same] at this
      exact this
    · rw [if_neg hk] at hk'
      intro c
      rw [status.put_other client s hk]
      exact h.absent k' hk' c

theorem group_at_insert (groups : Groups) (k k' : Membership) (m : GroupMembers) :
    group_at (groups.insert k.1 ((groups[k.1]?.getD ∅).insert k.2 m)) k' =
      if k' = k then some m else group_at groups k' := by
  unfold group_at
  rw [BTreeMap.get_insert]
  by_cases hf : k.1 = k'.1
  · rw [if_pos hf, Option.bind_some, BTreeMap.get_insert]
    by_cases hg : k.2 = k'.2
    · rw [if_pos hg, if_pos (Prod.ext hf hg).symm]
    · rw [if_neg hg, if_neg (fun h => hg (by rw [h])), ← hf]
      cases groups[k.1]? with
      | none => simp
      | some by_group => rfl
  · rw [if_neg hf, if_neg (fun h => hf (by rw [h]))]

variable {f : FilterKey} {by_group : BTreeMap String GroupMembers}

theorem filled_insert
    (h : ∀ (f : FilterKey) (by_group : BTreeMap String GroupMembers),
      groups[f]? = some by_group → by_group.isEmpty = false) (hb : by_group.isEmpty = false) :
    ∀ (f' : FilterKey) (by_group' : BTreeMap String GroupMembers),
      (groups.insert f by_group)[f']? = some by_group' → by_group'.isEmpty = false := by
  intro f' by_group' hget
  rw [BTreeMap.get_insert] at hget
  split at hget
  · cases hget
    exact hb
  · exact h f' by_group' hget

theorem set_member_online_eq (client : ClientId) (online own : Bool) (groups : Groups)
    (k : Membership) :
    set_member_online client online own groups k =
      match group_at groups k with
      | none => groups
      | some members => groups.insert k.1
        ((groups[k.1]?.getD ∅).insert k.2 (members.set_online client online own).1) := by
  unfold set_member_online group_at
  cases groups[k.1]? with
  | none => rfl
  | some by_group => rfl

theorem kept_set_member_online (h : GroupsKept own groups index status) (client : ClientId)
    (online : Bool) (k : Membership) :
    GroupsKept own (set_member_online client online (own client) groups k) index
      (status.put client k ((status client k).map (fun s => (s.1, online)))) := by
  rw [set_member_online_eq]
  rcases hk : group_at groups k with _ | members
  · have hnone := h.absent k hk client
    rw [status.put_self client k (by rw [hnone]; rfl)]
    exact h
  · obtain ⟨hmatch, hne⟩ := h.members k members hk
    have hset := GroupMembers.matches_set_online hmatch client online
    refine h.change (group_at_insert groups k · _) ?_ (by simp) ?_ ?_
    · intro m hm
      cases hm
      refine ⟨hset, hset.all_ne_nil.mpr ?_⟩
      -- The members are the ones that were there.
      obtain ⟨c, hc⟩ := hmatch.all_ne_nil.mp hne
      refine ⟨c, ?_⟩
      by_cases hcc : c = client
      · subst hcc
        rw [Function.update_self]
        simpa using hc
      · rw [Function.update_of_ne hcc]
        exact hc
    · exact filled_insert h.filled (by simp)
    · refine h.index.congr (fun f => ?_)
      have hsome : groups[k.1]?.isSome = true := by
        unfold group_at at hk
        obtain ⟨by_group, hf, -⟩ := Option.bind_eq_some_iff.mp hk
        rw [hf]
        rfl
      rw [BTreeMap.get_insert]
      by_cases hfe : k.1 = f
      · simp [← hfe, hsome]
      · simp [hfe]

/-- The groups of a filter put back, or the filter out when there are none. -/
def put_back (groups : Groups) (f : FilterKey) (by_group : BTreeMap String GroupMembers) : Groups :=
  if by_group.isEmpty then groups.erase f else groups.insert f by_group

variable {by_group' : BTreeMap String GroupMembers}

theorem group_at_put_back (hf : groups[k.1]? = some by_group)
    (hnew : ∀ g, by_group'[g]? = if k.2 = g then new else by_group[g]?) (k' : Membership) :
    group_at (put_back groups k.1 by_group') k' =
      if k' = k then new else group_at groups k' := by
  have hat : group_at (put_back groups k.1 by_group') k' =
      if k.1 = k'.1 then by_group'[k'.2]? else group_at groups k' := by
    unfold group_at put_back
    split
    · rename_i hempty
      rw [BTreeMap.get_erase]
      by_cases hfe : k.1 = k'.1
      · rw [if_pos hfe, if_pos hfe, (BTreeMap.isEmpty_iff _).mp hempty]
        rfl
      · rw [if_neg hfe, if_neg hfe]
    · rw [BTreeMap.get_insert]
      by_cases hfe : k.1 = k'.1
      · rw [if_pos hfe, if_pos hfe]
        rfl
      · rw [if_neg hfe, if_neg hfe]
  rw [hat]
  by_cases hfe : k.1 = k'.1
  · rw [if_pos hfe, hnew]
    by_cases hg : k.2 = k'.2
    · rw [if_pos hg, if_pos (Prod.ext hfe hg).symm]
    · rw [if_neg hg, if_neg (fun h => hg (by rw [h]))]
      unfold group_at
      rw [← hfe, hf]
      rfl
  · rw [if_neg hfe, if_neg (fun h => hfe (by rw [h]))]

theorem holds_put_back (hf : groups[f]? = some by_group)
    (h : index.Holds (fun f => groups[f]?.isSome = true)) :
    (if by_group'.isEmpty then index.remove f else index).Holds
      (fun f' => (put_back groups f by_group')[f']?.isSome = true) := by
  unfold put_back
  split
  · refine (FilterIndex.holds_remove h f).congr (fun f' => ?_)
    rw [BTreeMap.get_erase]
    by_cases hfe : f = f'
    · simp [hfe]
    · simp [hfe, Ne.symm hfe]
  · refine h.congr (fun f' => ?_)
    rw [BTreeMap.get_insert]
    by_cases hfe : f = f'
    · simp [← hfe, hf]
    · simp [hfe]

theorem filled_put_back
    (h : ∀ (f : FilterKey) (by_group : BTreeMap String GroupMembers),
      groups[f]? = some by_group → by_group.isEmpty = false) :
    ∀ (f' : FilterKey) (by_group' : BTreeMap String GroupMembers),
      (put_back groups f by_group)[f']? = some by_group' → by_group'.isEmpty = false := by
  unfold put_back
  split
  · intro f' by_group' hget
    rw [BTreeMap.get_erase] at hget
    split at hget
    · cases hget
    · exact h f' by_group' hget
  · rename_i hne
    exact filled_insert h (by simpa using hne)

theorem if_pair {α β γ : Type} (b : Bool) (x y : α) (z w : β) (r : γ) :
    (if b then (x, z, r) else (y, w, r)) = (if b then x else y, if b then z else w, r) := by
  cases b <;> rfl

theorem drop_member_eq {members : GroupMembers} (hf : groups[k.1]? = some by_group)
    (hg : by_group[k.2]? = some members) :
    drop_member client groups index k =
      let by_group' := if (members.remove client).1.is_empty then by_group.erase k.2
        else by_group.insert k.2 (members.remove client).1
      (put_back groups k.1 by_group', if by_group'.isEmpty then index.remove k.1 else index,
        (members.remove client).2) := by
  unfold drop_member put_back
  rw [hf]
  dsimp only
  rw [hg]
  dsimp only
  exact if_pair ..

theorem kept_drop_member (h : GroupsKept own groups index status) (client : ClientId)
    (k : Membership) :
    GroupsKept own (drop_member client groups index k).1 (drop_member client groups index k).2.1
        (status.put client k none) ∧
      (drop_member client groups index k).2.2 = (status client k).isSome := by
  rcases hf : groups[k.1]? with _ | by_group
  · have hnone : status client k = none := h.absent k (by unfold group_at; rw [hf]; rfl) client
    unfold drop_member
    rw [hf, hnone, status.put_self client k hnone]
    exact ⟨h, rfl⟩
  · rcases hg : by_group[k.2]? with _ | members
    · have hnone : status client k = none :=
        h.absent k (by unfold group_at; rw [hf]; exact hg) client
      have hsame : groups.insert k.1 by_group = groups := by
        ext f : 1
        rw [BTreeMap.get_insert]
        split
        · rename_i hfe
          rw [← hfe, hf]
        · rfl
      have hfull := h.filled k.1 by_group hf
      unfold drop_member
      rw [hf]
      dsimp only
      rw [hg]
      dsimp only
      rw [hfull, hnone, status.put_self client k hnone]
      simp only [Bool.false_eq_true, if_false]
      rw [hsame]
      exact ⟨h, rfl⟩
    · have hat : group_at groups k = some members := by
        unfold group_at
        rw [hf]
        exact hg
      obtain ⟨hmatch, -⟩ := h.members k members hat
      obtain ⟨hremoved, hflag⟩ := GroupMembers.matches_remove hmatch client
      rw [drop_member_eq hf hg]
      refine ⟨?_, hflag⟩
      dsimp only
      have hnew : ∀ g, (if (members.remove client).1.is_empty then by_group.erase k.2
          else by_group.insert k.2 (members.remove client).1)[g]? =
          if k.2 = g then (if (members.remove client).1.is_empty then none
            else some (members.remove client).1) else by_group[g]? := by
        intro g
        split
        · exact BTreeMap.get_erase ..
        · exact BTreeMap.get_insert ..
      refine h.change (group_at_put_back hf hnew) ?_ ?_ (filled_put_back h.filled)
        (holds_put_back hf h.index)
      · intro m hm
        split at hm
        · cases hm
        · rename_i hne
          cases hm
          refine ⟨hremoved, ?_⟩
          intro hnil
          exact hne (by unfold GroupMembers.is_empty; rw [hnil]; rfl)
      · intro hm c
        split at hm
        · rename_i hempty
          have hnil : (members.remove client).1.all = [] := by
            simpa [GroupMembers.is_empty] using hempty
          have hnone := mt hremoved.all_ne_nil.mpr (by simp [hnil])
          rw [not_exists] at hnone
          simpa using hnone c
        · cases hm

theorem kept_set_all (h : GroupsKept own groups index status) (client : ClientId) (online : Bool)
    (ks : List Membership) :
    GroupsKept own (ks.foldl (set_member_online client online (own client)) groups) index
      (fun c k => if c = client ∧ k ∈ ks then (status c k).map (fun s => (s.1, online))
        else status c k) := by
  induction ks generalizing groups status with
  | nil => simpa using h
  | cons k ks ih =>
    have hstep := ih (kept_set_member_online h client online k)
    rw [List.foldl_cons]
    convert hstep using 1
    funext c k'
    unfold Statuses.put
    by_cases hc : c = client
    · subst hc
      by_cases hk : k' = k
      · subst hk
        by_cases hmem : k' ∈ ks
        · simp [hmem]
          rfl
        · simp [hmem]
      · simp [hk]
    · simp [hc]

theorem kept_drop_all {gi : Groups × FilterIndex} (h : GroupsKept own gi.1 gi.2 status)
    (client : ClientId) (ks : List Membership) :
    let left := ks.foldl (fun (gi : Groups × FilterIndex) k =>
      let (groups, index, _) := drop_member client gi.1 gi.2 k
      (groups, index)) gi
    GroupsKept own left.1 left.2
      (fun c k => if c = client ∧ k ∈ ks then none else status c k) := by
  induction ks generalizing gi status with
  | nil => simpa using h
  | cons k ks ih =>
    have hstep := @ih _ ((drop_member client gi.1 gi.2 k).1, (drop_member client gi.1 gi.2 k).2.1)
      (kept_drop_member h client k).1
    dsimp only at hstep ⊢
    rw [List.foldl_cons]
    convert hstep using 1
    funext c k'
    unfold Statuses.put
    by_cases hc : c = client
    · subst hc
      by_cases hk : k' = k
      · simp [hk]
      · simp [hk]
    · simp [hc]

theorem getD_group_at (t : SharedSubscriptionTable) (filter group : String) :
    ((t.groups[filter]?.getD ∅)[group]?.getD {}) =
      (group_at t.groups (filter, group)).getD {} := by
  unfold group_at
  cases t.groups[filter]? with
  | none => simp
  | some by_group => rfl

variable {t : SharedSubscriptionTable}

theorem kept_join (h : GroupsKept own t.groups t.index status) (client : ClientId)
    (group filter : String) (max_qos : QoS) (online : Bool) :
    GroupsKept own (t.subscribe_member client group filter max_qos online (own client)).groups
      (t.subscribe_member client group filter max_qos online (own client)).index
      (status.put client (filter, group) (some (max_qos, online))) := by
  obtain ⟨hmatch, -⟩ := GroupMembers.matches_insert (h.group_matches (filter, group)) client
    max_qos online
  rw [← getD_group_at] at hmatch
  refine h.change (group_at_insert t.groups (filter, group) · _) ?_ (by simp) ?_ ?_
  · intro m hm
    cases hm
    refine ⟨hmatch, hmatch.all_ne_nil.mpr ⟨client, ?_⟩⟩
    rw [Function.update_self]
    rfl
  · exact filled_insert h.filled (by simp)
  · -- The filter enters the index with its first group.
    unfold SharedSubscriptionTable.subscribe_member
    dsimp only
    split
    · refine (FilterIndex.holds_insert h.index filter).congr (fun f => ?_)
      rw [BTreeMap.get_insert]
      by_cases hfe : filter = f
      · simp [hfe]
      · simp [hfe, Ne.symm hfe]
    · rename_i hsome
      refine h.index.congr (fun f => ?_)
      rw [BTreeMap.get_insert]
      by_cases hfe : filter = f
      · subst hfe
        simpa using hsome
      · simp [hfe]

/-! ## The groups of each client -/

/-- The table of the clients, against the state of every client. -/
structure ClientsKept (own : ClientId → Bool) (by_client : BTreeMap ClientId (List Membership))
    (foreign : BTreeSet ClientId) (status : Statuses) : Prop where
  memberships : ∀ (c : ClientId) k,
    k ∈ by_client[c]?.getD [] ↔ (status c k).isSome = true
  once : ∀ (c : ClientId) ms, by_client[c]? = some ms → ms ≠ [] ∧ ms.Nodup
  foreign_iff : ∀ c : ClientId,
    c ∈ foreign ↔ by_client[c]?.isSome = true ∧ own c = false

variable {by_client : BTreeMap ClientId (List Membership)} {foreign : BTreeSet ClientId}

theorem ClientsKept.isSome_iff (h : ClientsKept own by_client foreign status) (c : ClientId) :
    by_client[c]?.isSome = true ↔ ∃ k, (status c k).isSome = true := by
  rcases hc : by_client[c]? with _ | ms
  · have hnone : ∀ k, ¬ (status c k).isSome = true := by
      intro k hk
      have := (h.memberships c k).mpr hk
      rw [hc] at this
      cases this
    simp only [Option.isSome_none, Bool.false_eq_true, false_iff, not_exists]
    exact hnone
  · obtain ⟨k, hk⟩ := List.exists_mem_of_ne_nil _ (h.once c ms hc).1
    have hmem : k ∈ by_client[c]?.getD [] := by
      rw [hc]
      exact hk
    simp only [Option.isSome_some, true_iff]
    exact ⟨k, (h.memberships c k).mp hmem⟩

/-- The whole table against the state of every client. -/
structure Kept (own : ClientId → Bool) (t : SharedSubscriptionTable) (status : Statuses) :
    Prop where
  groups : GroupsKept own t.groups t.index status
  clients : ClientsKept own t.by_client t.foreign status

theorem kept_new (own : ClientId → Bool) :
    Kept own SharedSubscriptionTable.new (fun _ _ => none) := by
  refine ⟨⟨?_, ?_, ?_, ?_⟩, ⟨?_, ?_, ?_⟩⟩
  · intro k m hm
    simp [group_at, SharedSubscriptionTable.new] at hm
  · intro k _ c
    rfl
  · intro f by_group hget
    simp [SharedSubscriptionTable.new] at hget
  · exact FilterIndex.holds_empty.congr (fun f => by simp [SharedSubscriptionTable.new])
  · intro c k
    simp [SharedSubscriptionTable.new]
  · intro c ms hget
    simp [SharedSubscriptionTable.new] at hget
  · intro c
    simp [SharedSubscriptionTable.new]

theorem kept_subscribe_member (h : Kept own t status) (client : ClientId) (group filter : String)
    (max_qos : QoS) (online : Bool) :
    Kept own (t.subscribe_member client group filter max_qos online (own client))
      (status.put client (filter, group) (some (max_qos, online))) := by
  refine ⟨kept_join h.groups client group filter max_qos online, ?_⟩
  obtain ⟨-, hfresh⟩ := GroupMembers.matches_insert (h.groups.group_matches (filter, group)) client
    max_qos online
  rw [← getD_group_at] at hfresh
  -- The entry of the client gets the group when it was no member of it.
  have hget : ∀ c : ClientId,
      (t.subscribe_member client group filter max_qos online (own client)).by_client[c]? =
        if client = c then
          some (t.by_client[client]?.getD [] ++
            if (status client (filter, group)).isNone then [(filter, group)] else [])
        else t.by_client[c]? := by
    intro c
    unfold SharedSubscriptionTable.subscribe_member
    dsimp only
    rw [hfresh]
    split
    · exact BTreeMap.get_insert ..
    · rename_i hold
      by_cases hc : client = c
      · subst hc
        rw [if_pos rfl, List.append_nil]
        have hsome : t.by_client[client]?.isSome = true := by
          rw [h.clients.isSome_iff]
          refine ⟨(filter, group), ?_⟩
          rw [Option.isSome_iff_ne_none]
          simpa using hold
        obtain ⟨ms, hms⟩ := Option.isSome_iff_exists.mp hsome
        rw [hms]
        rfl
      · rw [if_neg hc]
  refine ⟨?_, ?_, ?_⟩
  · intro c k
    rw [hget]
    unfold Statuses.put
    by_cases hc : client = c
    · subst hc
      rw [if_pos rfl, Option.getD_some, List.mem_append, h.clients.memberships]
      by_cases hk : k = (filter, group)
      · subst hk
        cases status client (filter, group) <;> simp
      · have hput : ¬ (client = client ∧ k = (filter, group)) := fun hck => hk hck.2
        rw [if_neg hput]
        cases (status client (filter, group)).isNone <;> simp [hk]
    · rw [if_neg hc, if_neg (fun hck => hc hck.1.symm)]
      exact h.clients.memberships c k
  · intro c ms hms
    rw [hget] at hms
    by_cases hc : client = c
    · subst hc
      rw [if_pos rfl, Option.some.injEq] at hms
      subst hms
      have hold := h.clients.memberships client (filter, group)
      have honce : (t.by_client[client]?.getD []).Nodup := by
        rcases hms : t.by_client[client]? with _ | ms
        · exact List.nodup_nil
        · exact (h.clients.once client ms hms).2
      rcases hs : status client (filter, group) with _ | st
      · rw [hs] at hold
        have hnew : (filter, group) ∉ t.by_client[client]?.getD [] := fun hmem => by
          have := hold.mp hmem
          cases this
        simp only [Option.isNone_none, if_true]
        refine ⟨by simp, ?_⟩
        rw [List.nodup_append']
        refine ⟨honce, by simp, ?_⟩
        intro k h1 h2
        rw [List.mem_singleton] at h2
        exact hnew (h2 ▸ h1)
      · rw [hs] at hold
        have hmem := hold.mpr rfl
        simp only [Option.isNone_some, Bool.false_eq_true, if_false, List.append_nil]
        exact ⟨List.ne_nil_of_mem hmem, honce⟩
    · rw [if_neg hc] at hms
      exact h.clients.once c ms hms
  · intro c
    rw [hget]
    have hforeign : c ∈ (t.subscribe_member client group filter max_qos online
        (own client)).foreign ↔ if client = c then own c = false else c ∈ t.foreign := by
      unfold SharedSubscriptionTable.subscribe_member
      dsimp only
      by_cases hc : client = c
      · subst hc
        cases own client
        · simp
        · simp
      · rw [if_neg hc]
        cases own client
        · simp [hc]
        · simp [hc]
    rw [hforeign]
    by_cases hc : client = c
    · subst hc
      simp
    · rw [if_neg hc, if_neg hc]
      exact h.clients.foreign_iff c

theorem ClientsKept.status_none (h : ClientsKept own by_client foreign status)
    (hc : by_client[client]? = none) (k : Membership) : status client k = none := by
  have hnone : ¬ ∃ k, (status client k).isSome = true := by
    rw [← h.isSome_iff, hc]
    simp
  simpa using not_exists.mp hnone k

theorem ClientsKept.status_none_of_not_mem {ms : List Membership}
    (h : ClientsKept own by_client foreign status) (hc : by_client[client]? = some ms)
    (hk : k ∉ ms) : status client k = none := by
  have hnot := mt (h.memberships client k).mpr (by rw [hc]; exact hk)
  simpa using hnot

theorem kept_set_client_online (h : Kept own t status) (client : ClientId) (online : Bool) :
    Kept own (t.set_client_online client online)
      (status.after (.SetClientOnline client online)) := by
  have hclients : ClientsKept own t.by_client t.foreign
      (status.after (.SetClientOnline client online)) := by
    refine ⟨fun c k => ?_, h.clients.once, h.clients.foreign_iff⟩
    rw [h.clients.memberships]
    unfold Statuses.after
    dsimp only
    split
    · simp
    · rfl
  unfold SharedSubscriptionTable.set_client_online
  rcases hc : t.by_client[client]? with _ | ms
  · refine ⟨?_, hclients⟩
    have hsame : status.after (.SetClientOnline client online) = status := by
      funext c k
      unfold Statuses.after
      dsimp only
      split
      · rename_i hcc
        rw [hcc, h.clients.status_none hc]
        rfl
      · rfl
    rw [hsame]
    exact h.groups
  · refine ⟨?_, hclients⟩
    have hown : (!t.foreign.contains client) = own client := by
      have hiff := h.clients.foreign_iff client
      rw [hc] at hiff
      rw [← Std.ExtTreeSet.contains_iff_mem] at hiff
      cases hfc : t.foreign.contains client <;> cases hoc : own client <;>
        simp [hfc, hoc] at hiff ⊢
    dsimp only
    rw [hown]
    convert kept_set_all h.groups client online ms using 1
    funext c k
    unfold Statuses.after
    dsimp only
    by_cases hcc : c = client
    · subst hcc
      rw [if_pos rfl]
      by_cases hk : k ∈ ms
      · rw [if_pos ⟨rfl, hk⟩]
      · rw [if_neg (fun hck => hk hck.2), h.clients.status_none_of_not_mem hc hk]
        rfl
    · rw [if_neg hcc, if_neg (fun hck => hcc hck.1)]

theorem ClientsKept.leave {by_client' : BTreeMap ClientId (List Membership)}
    {foreign' : BTreeSet ClientId} {status' : Statuses} {l : List Membership}
    (h : ClientsKept own by_client foreign status) (hsome : by_client[client]?.isSome = true)
    (honce : l.Nodup) (hleft : ∀ k, k ∈ l ↔ (status' client k).isSome = true)
    (hother : ∀ c k, c ≠ client → status' c k = status c k)
    (hget : ∀ c : ClientId, by_client'[c]? =
      if client = c then (if l = [] then none else some l) else by_client[c]?)
    (hforeign : ∀ c, c ∈ foreign' ↔ c ∈ foreign ∧ ¬ (c = client ∧ l = [])) :
    ClientsKept own by_client' foreign' status' := by
  refine ⟨fun c k => ?_, fun c ms hms => ?_, fun c => ?_⟩
  · rw [hget]
    by_cases hc : client = c
    · subst hc
      rw [if_pos rfl, ← hleft]
      by_cases hnil : l = []
      · simp [hnil]
      · simp [hnil]
    · rw [if_neg hc, hother c k (Ne.symm hc)]
      exact h.memberships c k
  · rw [hget] at hms
    by_cases hc : client = c
    · rw [if_pos hc] at hms
      by_cases hnil : l = []
      · rw [if_pos hnil] at hms
        cases hms
      · rw [if_neg hnil] at hms
        cases hms
        exact ⟨hnil, honce⟩
    · rw [if_neg hc] at hms
      exact h.once c ms hms
  · rw [hforeign, hget, h.foreign_iff]
    by_cases hc : client = c
    · subst hc
      by_cases hnil : l = []
      · simp [hnil]
      · simp [hnil, hsome]
    · simp [hc, Ne.symm hc]

theorem kept_unsubscribe (h : Kept own t status) (client : ClientId) (group filter : String) :
    Kept own (t.unsubscribe client group filter) (status.put client (filter, group) none) := by
  obtain ⟨hgroups, hflag⟩ := kept_drop_member h.groups client (filter, group)
  unfold SharedSubscriptionTable.unsubscribe
  dsimp only
  rw [hflag]
  rcases hs : status client (filter, group) with _ | st
  · simp only [Option.isSome_none, Bool.false_eq_true, if_false]
    refine ⟨hgroups, ?_⟩
    dsimp only
    rw [status.put_self client (filter, group) hs]
    exact h.clients
  · have hsome : t.by_client[client]?.isSome = true := by
      rw [h.clients.isSome_iff]
      exact ⟨(filter, group), by rw [hs]; rfl⟩
    obtain ⟨ms, hms⟩ := Option.isSome_iff_exists.mp hsome
    simp only [Option.isSome_some, if_true]
    rw [hms]
    dsimp only
    have hleft : ∀ k, k ∈ ms.filter (fun k => k.1 ≠ filter ∨ k.2 ≠ group) ↔
        (status.put client (filter, group) none client k).isSome = true := by
      intro k
      have hk := h.clients.memberships client k
      rw [hms, Option.getD_some] at hk
      rw [List.mem_filter, hk]
      unfold Statuses.put
      by_cases hkey : k = (filter, group)
      · simp [hkey]
      · have hne : k.1 ≠ filter ∨ k.2 ≠ group := by
          by_contra hcon
          rw [not_or, not_not, not_not] at hcon
          exact hkey (Prod.ext hcon.1 hcon.2)
        simp [hkey, hne]
    have hother : ∀ c k, c ≠ client →
        status.put client (filter, group) none c k = status c k := by
      intro c k hc
      unfold Statuses.put
      rw [if_neg (fun hck => hc hck.1)]
    have honce := (h.clients.once client ms hms).2.filter
      (fun k => decide (k.1 ≠ filter ∨ k.2 ≠ group))
    split
    · rename_i hempty
      refine ⟨hgroups, h.clients.leave hsome honce hleft hother ?_ ?_⟩
      · intro c
        rw [if_pos (List.isEmpty_iff.mp hempty)]
        exact BTreeMap.get_erase ..
      · intro c
        rw [BTreeSet.mem_erase, List.isEmpty_iff.mp hempty]
        simp [and_comm]
    · rename_i hne
      have hnil := fun hnil => hne (List.isEmpty_iff.mpr hnil)
      refine ⟨hgroups, h.clients.leave hsome honce hleft hother ?_ ?_⟩
      · intro c
        rw [if_neg hnil]
        exact BTreeMap.get_insert ..
      · intro c
        constructor
        · exact fun hmem => ⟨hmem, fun hboth => hnil hboth.2⟩
        · exact fun hboth => hboth.1

theorem kept_remove_client (h : Kept own t status) (client : ClientId) :
    Kept own (t.remove_client client) (status.after (.RemoveClient client)) := by
  unfold SharedSubscriptionTable.remove_client
  dsimp only
  rcases hc : t.by_client[client]? with _ | ms
  · have hsame : status.after (.RemoveClient client) = status := by
      funext c k
      unfold Statuses.after
      dsimp only
      split
      · rename_i hcc
        rw [hcc, h.clients.status_none hc]
      · rfl
    rw [hsame]
    refine ⟨h.groups, h.clients.memberships, h.clients.once, fun c => ?_⟩
    have hforeign : client ∉ t.foreign := by
      intro hmem
      have := ((h.clients.foreign_iff client).mp hmem).1
      rw [hc] at this
      cases this
    rw [BTreeSet.mem_erase, ← h.clients.foreign_iff]
    constructor
    · exact fun hboth => hboth.2
    · intro hmem
      refine ⟨?_, hmem⟩
      rintro rfl
      exact hforeign hmem
  · dsimp only
    have hstatus : status.after (.RemoveClient client) =
        fun c k => if c = client ∧ k ∈ ms then none else status c k := by
      funext c k
      unfold Statuses.after
      dsimp only
      by_cases hcc : c = client
      · subst hcc
        rw [if_pos rfl]
        by_cases hk : k ∈ ms
        · rw [if_pos ⟨rfl, hk⟩]
        · rw [if_neg (fun hck => hk hck.2), h.clients.status_none_of_not_mem hc hk]
      · rw [if_neg hcc, if_neg (fun hck => hcc hck.1)]
    refine ⟨?_, ?_⟩
    · rw [hstatus]
      exact @kept_drop_all own status (t.groups, t.index) h.groups client ms
    · refine h.clients.leave (l := []) (by rw [hc]; rfl) List.nodup_nil ?_ ?_ ?_ ?_
      · intro k
        simp [Statuses.after]
      · intro c k hcc
        unfold Statuses.after
        dsimp only
        rw [if_neg hcc]
      · intro c
        rw [if_pos rfl]
        exact BTreeMap.get_erase ..
      · intro c
        rw [BTreeSet.mem_erase]
        simp [and_comm]

theorem kept_step (h : Kept own t status) {op : SharedOp} (hop : op.Keeps own) :
    Kept own (t.step op) (status.after op) := by
  cases op with
  | SubscribeMember client group filter max_qos online o =>
    have ho : o = own client := hop
    subst ho
    exact kept_subscribe_member h client group filter max_qos online
  | SetClientOnline client online => exact kept_set_client_online h client online
  | Unsubscribe client group filter => exact kept_unsubscribe h client group filter
  | RemoveClient client => exact kept_remove_client h client

theorem kept_run (h : Kept own t status) {ops : List SharedOp} (hops : ∀ op ∈ ops, op.Keeps own) :
    Kept own (t.run ops) (ops.foldl Statuses.after status) := by
  induction ops generalizing t status with
  | nil => exact h
  | cons op ops ih =>
    exact ih (kept_step h (hops op List.mem_cons_self))
      (fun op' hop' => hops op' (List.mem_cons_of_mem _ hop'))

/-! ## Every history -/

/-- The table is what the states of the clients say. -/
structure Consistent (own : ClientId → Bool) (t : SharedSubscriptionTable) (status : Statuses) :
    Prop where
  members : ∀ c k q, (∃ m, group_at t.groups k = some m ∧ (c, q) ∈ m.all) ↔
    ∃ online, status c k = some (q, online)
  once : ∀ k m, group_at t.groups k = some m → (m.all.map (fun p => p.1)).Nodup
  bounds : ∀ k m, group_at t.groups k = some m →
    m.own_online ≤ m.online ∧ m.online ≤ m.all.length
  regions : ∀ k m, group_at t.groups k = some m → ∀ i c q, m.all[i]? = some (c, q) →
    ∃ online, status c k = some (q, online) ∧
      (i < m.own_online ↔ online = true ∧ own c = true) ∧ (i < m.online ↔ online = true)
  inverse : ∀ (c : ClientId) k, k ∈ t.by_client[c]?.getD [] ↔
    ∃ m q, group_at t.groups k = some m ∧ (c, q) ∈ m.all
  inverse_once : ∀ (c : ClientId) ms, t.by_client[c]? = some ms → ms ≠ [] ∧ ms.Nodup
  index : ∀ path f, t.index.root.ends path = some f ↔
    (∃ g m, group_at t.groups (f, g) = some m) ∧ split f = path
  no_empty_group : ∀ k m, group_at t.groups k = some m → m.all ≠ []
  no_empty_filter : ∀ (f : FilterKey) (by_group : BTreeMap String GroupMembers),
    t.groups[f]? = some by_group → by_group.isEmpty = false
  select_online : ∀ k m start c q, group_at t.groups k = some m →
    m.select_online start = some (c, q) → (c, q) ∈ m.all ∧ status c k = some (q, true)
  select_own_online : ∀ k m start c q, group_at t.groups k = some m →
    m.select_own_online start = some (c, q) →
      (c, q) ∈ m.all ∧ status c k = some (q, true) ∧ own c = true

theorem GroupMembers.region_iff {m : GroupMembers} (hle : m.own_online ≤ m.online) {i : Nat}
    {online own : Bool} (h : m.region i = GroupMembers.placeOf online own) :
    (i < m.own_online ↔ online = true ∧ own = true) ∧ (i < m.online ↔ online = true) := by
  unfold GroupMembers.region GroupMembers.placeOf at h
  by_cases h1 : i < m.own_online
  · have h2 : i < m.online := by omega
    rw [if_pos h1] at h
    cases online <;> cases own <;> simp [h1, h2] at h ⊢
  · by_cases h2 : i < m.online
    · rw [if_neg h1, if_pos h2] at h
      cases online <;> cases own <;> simp [h1, h2] at h ⊢
    · rw [if_neg h1, if_neg h2] at h
      cases online <;> cases own <;> simp [h1, h2] at h ⊢

theorem Kept.consistent (h : Kept own t status) : Consistent own t status := by
  have hmembers : ∀ c k q, (∃ m, group_at t.groups k = some m ∧ (c, q) ∈ m.all) ↔
      ∃ online, status c k = some (q, online) := by
    intro c k q
    constructor
    · rintro ⟨m, hm, hmem⟩
      exact ((h.groups.members k m hm).1.granted c q).mp hmem
    · rintro ⟨online, hs⟩
      rcases hm : group_at t.groups k with _ | m
      · rw [h.groups.absent k hm c] at hs
        cases hs
      · exact ⟨m, rfl, ((h.groups.members k m hm).1.granted c q).mpr ⟨online, hs⟩⟩
  refine ⟨hmembers, ?_, ?_, ?_, ?_, h.clients.once, ?_, ?_, h.groups.filled, ?_, ?_⟩
  · intro k m hm
    exact (h.groups.members k m hm).1.partitioned.distinct
  · intro k m hm
    have hpart := (h.groups.members k m hm).1.partitioned
    exact ⟨hpart.own_le, hpart.online_le⟩
  · intro k m hm i c q hi
    have hmatch := (h.groups.members k m hm).1
    obtain ⟨online, hs⟩ := (hmatch.granted c q).mp (List.mem_of_getElem? hi)
    have hregion := hmatch.partitioned.regions i c q hi
    unfold GroupMembers.placed at hregion
    dsimp only at hregion
    rw [hs] at hregion
    exact ⟨online, hs, GroupMembers.region_iff hmatch.partitioned.own_le hregion⟩
  · intro c k
    rw [h.clients.memberships]
    constructor
    · intro hsome
      obtain ⟨⟨q, online⟩, hs⟩ := Option.isSome_iff_exists.mp hsome
      obtain ⟨m, hm, hmem⟩ := (hmembers c k q).mpr ⟨online, hs⟩
      exact ⟨m, q, hm, hmem⟩
    · rintro ⟨m, q, hm, hmem⟩
      obtain ⟨online, hs⟩ := (hmembers c k q).mp ⟨m, hm, hmem⟩
      rw [hs]
      rfl
  · intro path f
    rw [h.groups.index.ends_iff]
    have hfilter : t.groups[f]?.isSome = true ↔ ∃ g m, group_at t.groups (f, g) = some m := by
      unfold group_at
      dsimp only
      rcases hf : t.groups[f]? with _ | by_group
      · simp
      · have hfull := h.groups.filled f by_group hf
        simp only [Option.isSome_some, Option.bind_some, true_iff]
        by_contra hnone
        have hempty : by_group.isEmpty = true := by
          rw [BTreeMap.isEmpty_iff]
          intro g
          rcases hg : by_group[g]? with _ | m
          · rfl
          · exact absurd ⟨g, m, hg⟩ hnone
        rw [hempty] at hfull
        cases hfull
    rw [hfilter]
  · intro k m hm
    exact (h.groups.members k m hm).2
  · intro k m start c q hm hs
    exact (h.groups.members k m hm).1.select_online hs
  · intro k m start c q hm hs
    exact (h.groups.members k m hm).1.select_own_online hs

/-- After any history in which each client is one shard's, the table is consistent. -/
theorem shared_tables_stay_consistent (own : ClientId → Bool) (ops : List SharedOp)
    (hops : ∀ op ∈ ops, op.Keeps own) :
    Consistent own (SharedSubscriptionTable.new.run ops) (statuses ops) :=
  (kept_run (kept_new own) hops).consistent

/-- Two members of this shard and one of another: they come and go. -/
theorem shared_tables_stay_consistent_with_two_shards :
    group_at (SharedSubscriptionTable.new.run [.SubscribeMember "a" "g" "t/+" .AtLeastOnce true true,
      .SubscribeMember "b" "g" "t/+" .AtMostOnce true false,
      .SubscribeMember "c" "g" "t/+" .AtMostOnce false true, .SetClientOnline "c" true,
      .SetClientOnline "a" false]).groups ("t/+", "g") =
        some ⟨[("c", .AtMostOnce), ("b", .AtMostOnce), ("a", .AtLeastOnce)], 2, 1⟩ ∧
    Consistent (fun c => c != "b") (SharedSubscriptionTable.new.run
      [.SubscribeMember "a" "g" "t/+" .AtLeastOnce true true,
      .SubscribeMember "b" "g" "t/+" .AtMostOnce true false,
      .SubscribeMember "c" "g" "t/+" .AtMostOnce false true, .SetClientOnline "c" true,
      .SetClientOnline "a" false])
      (statuses [.SubscribeMember "a" "g" "t/+" .AtLeastOnce true true,
      .SubscribeMember "b" "g" "t/+" .AtMostOnce true false,
      .SubscribeMember "c" "g" "t/+" .AtMostOnce false true, .SetClientOnline "c" true,
      .SetClientOnline "a" false]) :=
  ⟨by decide +kernel, shared_tables_stay_consistent _ _ (by
    intro op hop
    simp only [List.mem_cons, List.not_mem_nil, or_false] at hop
    rcases hop with rfl | rfl | rfl | rfl | rfl <;> simp [SharedOp.Keeps])⟩

end mqtt_core.shared
