-- The copies of a placement group in the order of the hash (`hrw.rs`, `placement.rs`): what a
-- set led by its owner holds, and the set that a leaving node hands a group to.
import MqttBroker.Cluster.Placement
import MqttBroker.Lib.Ranks

namespace mqtt_cluster

open cluster_log

/-! ## The order of the hash -/

namespace hrw

variable {key : Bytes} {a b : NodeId}

def place (key : Bytes) (n : NodeId) : Nat ×ₗ NodeId := toLex ((weight n key).toNat, n)

theorem before_iff : Before key a b ↔ place key b ≤ place key a := by
  unfold Before place
  rw [Prod.Lex.toLex_le_toLex, UInt64.lt_iff_toNat_lt, ← UInt64.toNat_inj]
  simp only [eq_comm]

theorem place_inj (h : place key a = place key b) : a = b :=
  (Prod.mk.inj (toLex.injective h)).2

instance (key : Bytes) : Std.Total (Before key) where
  total a b := by
    simp only [before_iff]
    exact le_total _ _

instance (key : Bytes) : IsTrans NodeId (Before key) where
  trans a b c h h' := by
    rw [before_iff] at *
    exact le_trans h' h

instance (key : Bytes) : Std.Antisymm (Before key) where
  antisymm a b h h' := by
    rw [before_iff] at *
    exact place_inj (le_antisymm h' h)

/-- The nodes in the order of the hash. -/
def ranking (key : Bytes) (nodes : List NodeId) : List NodeId := nodes.insertionSort (Before key)

theorem replica_set_eq (key : Bytes) (nodes : List NodeId) (r : Nat) :
    replica_set key nodes r = (ranking key nodes).take r := rfl

theorem perm_ranking (key : Bytes) (nodes : List NodeId) : (ranking key nodes).Perm nodes :=
  List.perm_insertionSort _ nodes

theorem mem_ranking {key : Bytes} {nodes : List NodeId} : a ∈ ranking key nodes ↔ a ∈ nodes :=
  (perm_ranking key nodes).mem_iff

theorem nodup_ranking (key : Bytes) {nodes : List NodeId} (h : nodes.Nodup) :
    (ranking key nodes).Nodup := (perm_ranking key nodes).nodup_iff.mpr h

theorem ranking_filter (key : Bytes) (nodes : List NodeId) (p : NodeId → Bool) :
    ranking key (nodes.filter p) = (ranking key nodes).filter p := by
  have hsorted (l : List NodeId) : (ranking key l).Pairwise (Before key) :=
    List.pairwise_insertionSort _ l
  apply List.Perm.eq_of_pairwise' (hsorted _) ((hsorted nodes).filter p)
  exact (perm_ranking key _).trans ((perm_ranking key nodes).filter p).symm

theorem owner_spec {nodes : List NodeId} (h : nodes ≠ []) :
    ∃ n ∈ nodes, owner key nodes = some n ∧ ∀ m ∈ nodes, Before key n m := by
  have hfold {f : Option NodeId → NodeId → Option NodeId}
      (hf : ∀ b n, f (some b) n = if Before key n b then some n else some b)
      (l : List NodeId) (best : NodeId) :
      ∃ n ∈ best :: l, l.foldl f (some best) = some n ∧ ∀ m ∈ best :: l, Before key n m := by
    induction l generalizing best with
    | nil => exact ⟨best, List.mem_cons_self, rfl, fun m hm => by
        rw [List.mem_singleton.mp hm]
        exact Std.Refl.refl best⟩
    | cons a l ih =>
      rw [List.foldl_cons, hf]
      by_cases hb : Before key a best
      · rw [if_pos hb]
        obtain ⟨n, hn, hr, hbest⟩ := ih a
        refine ⟨n, List.mem_cons_of_mem best hn, hr, ?_⟩
        intro m hm
        rcases List.mem_cons.mp hm with rfl | hm
        · exact IsTrans.trans _ _ _ (hbest a List.mem_cons_self) hb
        · exact hbest m hm
      · rw [if_neg hb]
        obtain ⟨n, hn, hr, hbest⟩ := ih best
        refine ⟨n, ?_, hr, ?_⟩
        · rcases List.mem_cons.mp hn with rfl | hn
          · exact List.mem_cons_self
          · exact List.mem_cons_of_mem best (List.mem_cons_of_mem a hn)
        · intro m hm
          rcases List.mem_cons.mp hm with rfl | hm
          · exact hbest m List.mem_cons_self
          rcases List.mem_cons.mp hm with rfl | hm
          · have hother := (Std.Total.total (r := Before key) m best).resolve_left hb
            exact IsTrans.trans _ _ _ (hbest best List.mem_cons_self) hother
          · exact hbest m (List.mem_cons_of_mem best hm)
  cases nodes with
  | nil => exact absurd rfl h
  | cons a l => exact hfold (fun _ _ => rfl) l a

/-! ## Stability -/

theorem ranking_perm {nodes others : List NodeId} (h : others.Perm nodes) :
    ranking key others = ranking key nodes := by
  apply List.Perm.eq_of_pairwise' (List.pairwise_insertionSort _ others)
    (List.pairwise_insertionSort (Before key) nodes)
  exact (perm_ranking key others).trans (h.trans (perm_ranking key nodes).symm)

theorem head_ranking (key : Bytes) (nodes : List NodeId) :
    (ranking key nodes).head? = owner key nodes := by
  by_cases hnil : nodes = []
  · subst hnil
    rfl
  · obtain ⟨n, hn, howner, hbest⟩ := @owner_spec key nodes hnil
    rw [howner]
    have hsorted : (ranking key nodes).Pairwise (Before key) :=
      List.pairwise_insertionSort _ nodes
    cases hr : ranking key nodes with
    | nil => exact absurd (hr ▸ mem_ranking.mpr hn) List.not_mem_nil
    | cons first rest =>
      have hfirst : first ∈ nodes := mem_ranking.mp (by rw [hr]; exact List.mem_cons_self)
      rw [hr] at hsorted
      rcases List.mem_cons.mp (hr ▸ mem_ranking.mpr hn) with heq | hrest
      · rw [heq]
        rfl
      · have hle : Before key first n := List.rel_of_pairwise_cons hsorted hrest
        exact congrArg some (Std.Antisymm.antisymm _ _ hle (hbest first hfirst))

theorem ranking_cons (key : Bytes) (x : NodeId) (nodes : List NodeId) :
    ∃ front back, ranking key nodes = front ++ back ∧
      ranking key (x :: nodes) = front ++ x :: back := by
  refine ⟨_, _, ?_, List.insertionSort_cons_eq_take_drop (Before key) x nodes⟩
  exact (List.takeWhile_append_dropWhile ..).symm

theorem take_ranking_erase {nodes : List NodeId} (hn : nodes.Nodup) {x : NodeId} {r : Nat}
    (hx : x ∉ (ranking key nodes).take r) :
    (ranking key (nodes.erase x)).take r = (ranking key nodes).take r := by
  rw [hn.erase_eq_filter, ranking_filter]
  have hkeep : ((ranking key nodes).take r).filter (fun n => n != x) =
      (ranking key nodes).take r := by
    apply List.filter_eq_self.mpr
    intro n hmem
    rw [bne_iff_ne]
    rintro rfl
    exact hx hmem
  rcases Nat.lt_or_ge (ranking key nodes).length r with hshort | hlong
  · rw [List.take_of_length_le (Nat.le_of_lt hshort)] at hkeep ⊢
    rw [hkeep, List.take_of_length_le (Nat.le_of_lt hshort)]
  · have hlen : (((ranking key nodes).take r).filter (fun n => n != x)).length = r := by
      rw [hkeep, List.length_take_of_le hlong]
    conv_lhs => rw [← List.take_append_drop r (ranking key nodes), List.filter_append]
    rw [List.take_append_of_le_length (Nat.le_of_eq hlen.symm), hkeep, List.take_take,
      Nat.min_self]

/-- Placement by rendezvous hashing is stable: it does not depend on how the nodes are listed,
and one node more or less moves no other. -/
theorem rendezvous_placement_is_stable (key : Bytes) (nodes : List NodeId) (hn : nodes.Nodup)
    (r : Nat) :
    (∀ others, others.Perm nodes → replica_set key others r = replica_set key nodes r) ∧
    (replica_set key nodes r).Nodup ∧
    (replica_set key nodes r).length = min r nodes.length ∧
    (0 < r → (replica_set key nodes r).head? = owner key nodes) ∧
    (∀ x more, x ∉ nodes → more.Perm (x :: nodes) →
      replica_set key more r = replica_set key nodes r ∨
      ∃ front back, replica_set key more r = front ++ x :: back ∧
        front ++ back = if nodes.length < r then replica_set key nodes r
          else (replica_set key nodes r).dropLast) ∧
    (∀ x, x ∉ replica_set key nodes r →
      replica_set key (nodes.erase x) r = replica_set key nodes r) := by
  have hlen : (ranking key nodes).length = nodes.length := (perm_ranking key nodes).length_eq
  refine ⟨?_, ?_, ?_, ?_, ?_, ?_⟩
  · intro others hperm
    rw [replica_set_eq, ranking_perm hperm, replica_set_eq]
  · exact (nodup_ranking key hn).sublist (List.take_sublist _ _)
  · rw [replica_set_eq, List.length_take, hlen]
  · intro hr
    rw [replica_set_eq, List.head?_take, if_neg (by omega), head_ranking]
  · intro x more _ hperm
    obtain ⟨front, back, hold, hnew⟩ := ranking_cons key x nodes
    rw [replica_set_eq, replica_set_eq, ranking_perm hperm, hnew, hold]
    have hroom : ((front ++ back).take r).length < r ↔ nodes.length < r := by
      rw [List.length_take, ← hold, hlen]
      omega
    rcases Ranks.take_insert front back x r with hsame | ⟨f, b, hfb, hput⟩
    · exact .inl hsame
    · refine .inr ⟨f, b, hput, ?_⟩
      rw [hfb]
      simp only [hroom]
  · intro x hx
    exact take_ranking_erase hn hx

/-- Three nodes, with copies on two of them. -/
theorem rendezvous_placement_of_three :
    replica_set (as_bytes "group/1") ["a", "b", "c"] 2 =
      replica_set (as_bytes "group/1") ["c", "a", "b"] 2 :=
  ((rendezvous_placement_is_stable (as_bytes "group/1") ["a", "b", "c"] (by decide) 2).1
    ["c", "a", "b"] (by decide)).symm

end hrw

/-! ## Sets led by their owner -/

namespace placement.Placement

open Ranks

variable {group : GroupId} {nodes : List NodeId}

def rankingOf (group : GroupId) (nodes : List NodeId) : List NodeId :=
  hrw.ranking (as_bytes (group_key group)) nodes

theorem owner_led_set_eq (hn : nodes.Nodup) (owner : NodeId) (width : Nat) :
    owner_led_set_of_width group nodes owner width =
      owner :: ((rankingOf group nodes).filter (fun n => n ≠ owner)).take (width - 1) := by
  have hrank : (rankingOf group nodes).Nodup := hrw.nodup_ranking _ hn
  unfold owner_led_set_of_width
  simp only [hrw.replica_set_eq]
  show List.take (max width 1)
    (owner :: ((rankingOf group nodes).take width).filter (fun n => n ≠ owner)) = _
  cases width with
  | zero => simp
  | succ w =>
    rw [Nat.max_eq_left (by omega), List.take_succ_cons, Nat.add_sub_cancel]
    congr 1
    -- At most one of the first `w + 1` is the owner.
    generalize rankingOf group nodes = ranked at hrank
    rcases Nat.lt_or_ge ranked.length (w + 1) with hshort | hlong
    · have hall : ranked.take (w + 1) = ranked := List.take_of_length_le (by omega)
      rw [hall]
    · have hmany : w ≤ ((ranked.take (w + 1)).filter (fun n => n ≠ owner)).length := by
        have hcount := countP_and_ne (p := fun _ => true) (hrank.sublist
          (List.take_sublist (w + 1) ranked)) owner
        simp only [Bool.true_and, List.countP_true, List.length_take_of_le hlong] at hcount
        rw [← List.countP_eq_length_filter]
        split at hcount <;> omega
      conv_rhs => rw [← List.take_append_drop (w + 1) ranked, List.filter_append]
      rw [List.take_append_of_le_length hmany]

theorem mem_owner_led_set (hn : nodes.Nodup) {owner : NodeId} {width : Nat} {n : NodeId} :
    n ∈ owner_led_set_of_width group nodes owner width ↔
      n = owner ∨ n ∈ nodes ∧ n ≠ owner ∧
        (ahead (rankingOf group nodes) n).countP (fun m => m ≠ owner) < width - 1 := by
  rw [owner_led_set_eq hn, List.mem_cons]
  refine or_congr_right ?_
  by_cases hmem : n ∈ nodes
  · have hrank : (rankingOf group nodes).Nodup := hrw.nodup_ranking _ hn
    have hranked : n ∈ rankingOf group nodes := hrw.mem_ranking.mpr hmem
    rw [mem_take_filter hrank hranked]
    simp [hmem]
  · constructor
    · intro h
      exact absurd (hrw.mem_ranking.mp (List.mem_of_mem_filter (List.mem_of_mem_take h))) hmem
    · exact fun h => absurd h.1 hmem

theorem owner_over_mem (p : Placement) (group : GroupId) (h : nodes ≠ []) :
    p.owner_over group nodes ∈ nodes := by
  have howner (pool : List NodeId) (hpool : pool ≠ []) (hsub : ∀ n ∈ pool, n ∈ nodes) :
      (hrw.owner (as_bytes (group_key group)) pool).getD p.node ∈ nodes := by
    obtain ⟨n, hn, hr, _⟩ := hrw.owner_spec hpool
    rw [hr]
    exact hsub n hn
  unfold owner_over
  simp only
  generalize hpool : (if p.voters.isEmpty = true then [] else
    nodes.filter (fun n => p.voters.contains n)) = pool
  by_cases hempty : pool.isEmpty = true
  · rw [if_pos hempty]
    exact howner nodes h (fun _ hn => hn)
  · rw [if_neg hempty]
    apply howner pool (fun h => hempty (List.isEmpty_iff.mpr h))
    intro n hn
    rw [← hpool] at hn
    split at hn
    · cases hn
    · exact List.mem_of_mem_filter hn

/-! ## The set without a leaver -/

def staying (p : Placement) (leaving : NodeId) : List NodeId :=
  p.members.filter (fun n => n ≠ leaving)

variable (p : Placement) (leaving : NodeId)

/-- Who leads the group's set once the node has left. -/
def next_owner (group : GroupId) : NodeId := p.owner_over group (p.staying leaving)

theorem staying_nodup : (p.staying leaving).Nodup := p.members_nodup.filter _

theorem mem_without {n : NodeId} :
    n ∈ p.group_replica_set_without group leaving ↔
      n = p.next_owner leaving group ∨ n ∈ p.members ∧ n ≠ leaving ∧
        n ≠ p.next_owner leaving group ∧ (ahead (rankingOf group p.members) n).countP
          (fun m => decide (m ≠ leaving) && decide (m ≠ p.next_owner leaving group)) <
            p.replicas - 1 := by
  have hset : p.group_replica_set_without group leaving = p.next_owner leaving group ::
      ((rankingOf group p.members).filter (fun m => decide (m ≠ leaving) &&
        decide (m ≠ p.next_owner leaving group))).take (p.replicas - 1) := by
    have h : p.group_replica_set_without group leaving = _ := owner_led_set_eq
      (p.staying_nodup leaving) (p.next_owner leaving group) p.replicas
    have hrank : rankingOf group (p.staying leaving) =
        (rankingOf group p.members).filter (fun m => m ≠ leaving) := hrw.ranking_filter _ _ _
    rw [hrank, List.filter_filter] at h
    simp only [Bool.and_comm] at h ⊢
    exact h
  rw [hset, List.mem_cons]
  refine or_congr_right ?_
  have hnodup : (rankingOf group p.members).Nodup := hrw.nodup_ranking _ p.members_nodup
  by_cases hmem : n ∈ p.members
  · have hranked : n ∈ rankingOf group p.members := hrw.mem_ranking.mpr hmem
    rw [mem_take_filter hnodup hranked]
    simp [hmem, and_assoc]
  · constructor
    · intro h
      exact absurd (hrw.mem_ranking.mp (List.mem_of_mem_filter (List.mem_of_mem_take h))) hmem
    · exact fun h => absurd h.1 hmem

/-- The set without the leaver has no repeats, is without the leaver, and holds every other
member of the group's present set. -/
def KeepsTheOthers (group : GroupId) : Prop :=
  leaving ∉ p.group_replica_set_without group leaving ∧
    (p.group_replica_set_without group leaving).Nodup ∧
    ∀ n ∈ p.group_replica_set group, n ≠ leaving → n ∈ p.group_replica_set_without group leaving

theorem next_owner_ne_iff :
    p.next_owner leaving group ≠ leaving ↔ p.staying leaving ≠ [] ∨ leaving ≠ p.node := by
  by_cases h : p.staying leaving = []
  · have howner : p.next_owner leaving group = p.node := by
      unfold next_owner owner_over
      simp only [h, List.filter_nil, ite_self, List.isEmpty_nil]
      rfl
    rw [howner]
    constructor
    · exact fun hne => .inr (fun he => hne he.symm)
    · rintro (hne | hne)
      · exact absurd h hne
      · exact fun he => hne he.symm
  · have hmem : p.next_owner leaving group ∈ p.staying leaving := owner_over_mem p group h
    have hne := (List.mem_filter.mp hmem).2
    simp only [ne_eq, decide_not, Bool.not_eq_true', decide_eq_false_iff_not] at hne
    exact ⟨fun _ => .inl h, fun _ => hne⟩

theorem leaving_mem_iff :
    leaving ∈ p.group_replica_set_without group leaving ↔ p.next_owner leaving group = leaving := by
  rw [mem_without]
  constructor
  · rintro (h | ⟨-, h, -⟩)
    · exact h.symm
    · exact absurd rfl h
  · exact fun h => .inl h.symm

theorem closes_up {n : NodeId} (h : p.group_owner group = leaving ∨
    p.group_owner group = p.next_owner leaving group) (hn : n ∈ p.group_replica_set group)
    (hne : n ≠ leaving) : n ∈ p.group_replica_set_without group leaving := by
  rw [mem_without]
  have hn := (mem_owner_led_set p.members_nodup).mp hn
  by_cases hnext : n = p.next_owner leaving group
  · exact .inl hnext
  · right
    rcases hn with hn | ⟨hmem, hno, hcount⟩
    · rcases h with h | h
      · exact absurd (hn.trans h) hne
      · exact absurd (hn.trans h) hnext
    · refine ⟨hmem, hne, hnext, lt_of_le_of_lt (List.countP_mono_left ?_) hcount⟩
      intro m _ hm
      simp only [Bool.and_eq_true, decide_eq_true_eq] at hm
      rcases h with h | h
      · simp [h, hm.1]
      · simp [h, hm.2]

theorem group_owner_mem (group : GroupId) (h : p.members ≠ []) : p.group_owner group ∈ p.members := by
  unfold group_owner
  rcases hl : p.lease_owners[group]? with _ | holder
  · exact owner_over_mem p group h
  · by_cases he : p.eligible.contains holder = true
    · simp only [Option.filter_some, he, if_true, Option.getD_some]
      exact Std.ExtTreeSet.mem_toList.mpr (Std.ExtTreeSet.mem_iff_contains.mpr he)
    · simp only [Option.filter_some, he, Bool.false_eq_true, if_false, Option.getD_none]
      exact owner_over_mem p group h

/-- The members that neither leave nor lead the next set. -/
def followers (group : GroupId) : List NodeId :=
  (p.staying leaving).filter (fun n => n ≠ p.next_owner leaving group)

theorem mem_followers {n : NodeId} {r : Nat} (hn : n ∈ p.members) (hne : n ≠ leaving)
    (hnext : n ≠ p.next_owner leaving group) :
    n ∈ hrw.replica_set (as_bytes (group_key group)) (p.followers leaving group) r ↔
      (ahead (rankingOf group p.members) n).countP
        (fun m => decide (m ≠ leaving) && decide (m ≠ p.next_owner leaving group)) < r := by
  have hnodup : (rankingOf group p.members).Nodup := hrw.nodup_ranking _ p.members_nodup
  have hranked : n ∈ rankingOf group p.members := hrw.mem_ranking.mpr hn
  have hset : hrw.replica_set (as_bytes (group_key group)) (p.followers leaving group) r =
      ((rankingOf group p.members).filter (fun m => decide (m ≠ leaving) &&
        decide (m ≠ p.next_owner leaving group))).take r := by
    rw [hrw.replica_set_eq]
    unfold followers staying
    rw [hrw.ranking_filter, hrw.ranking_filter, List.filter_filter]
    simp only [Bool.and_comm]
    rfl
  rw [hset, mem_take_filter hnodup hranked]
  simp [hne, hnext]

theorem staying_of_moves (hstays : p.group_owner group ≠ leaving)
    (hmoves : p.group_owner group ≠ p.next_owner leaving group) : p.staying leaving ≠ [] := by
  intro h
  by_cases hm : p.members = []
  · apply hmoves
    unfold next_owner group_owner hrw_owner
    rw [h, hm]
    rcases hl : p.lease_owners[group]? with _ | holder
    · rfl
    · have he : ¬ p.eligible.contains holder = true := by
        intro he
        have hmem := Std.ExtTreeSet.mem_toList.mpr (Std.ExtTreeSet.mem_iff_contains.mpr he)
        have hnil : p.eligible.toList = [] := hm
        rw [hnil] at hmem
        cases hmem
      simp [Option.filter_some, he]
  · have hstay : p.group_owner group ∈ p.staying leaving :=
      List.mem_filter.mpr ⟨p.group_owner_mem group hm, by simpa using hstays⟩
    rw [h] at hstay
    cases hstay

/-- Where the group changes hands although its owner stays: the owner has to keep its copy, and
the leaver or the next owner has to make the room that the next owner takes. -/
theorem keeps_iff_of_moves (hstays : p.group_owner group ≠ leaving)
    (hmoves : p.group_owner group ≠ p.next_owner leaving group)
    (hnext : p.next_owner leaving group ≠ leaving) :
    (∀ n ∈ p.group_replica_set group, n ≠ leaving →
        n ∈ p.group_replica_set_without group leaving) ↔
      p.group_owner group ∈ hrw.replica_set (as_bytes (group_key group))
          (p.followers leaving group) (p.replicas - 1) ∧
        (leaving ∈ hrw.replica_set (as_bytes (group_key group)) p.members p.replicas ∨
          p.next_owner leaving group ∈
            hrw.replica_set (as_bytes (group_key group)) p.members p.replicas) := by
  have hstaying := staying_of_moves p leaving hstays hmoves
  have hnextmem : p.next_owner leaving group ∈ p.members :=
    List.mem_of_mem_filter (owner_over_mem p group hstaying)
  have howner : p.group_owner group ∈ p.members := by
    apply p.group_owner_mem group
    intro h
    rw [h] at hnextmem
    cases hnextmem
  have hnodup : (rankingOf group p.members).Nodup := hrw.nodup_ranking _ p.members_nodup
  have hranked {n : NodeId} : n ∈ rankingOf group p.members ↔ n ∈ p.members := hrw.mem_ranking
  rw [mem_followers p leaving howner hstays hmoves]
  have hstay (hfirst : (ahead (rankingOf group p.members) (p.group_owner group)).countP
      (fun m => decide (m ≠ leaving) && decide (m ≠ p.next_owner leaving group)) <
        p.replicas - 1) := others_stay_iff hnodup (hranked.mpr howner) (hranked.mpr hnextmem)
          hnext hfirst
  have hwidth (hfirst : (ahead (rankingOf group p.members) (p.group_owner group)).countP
      (fun m => decide (m ≠ leaving) && decide (m ≠ p.next_owner leaving group)) <
        p.replicas - 1) : p.replicas - 1 + 1 = p.replicas := by omega
  constructor
  · intro h
    have hin := h _ ((mem_owner_led_set p.members_nodup).mpr (.inl rfl)) hstays
    rw [mem_without] at hin
    have hfirst := (hin.resolve_left hmoves).2.2.2
    refine ⟨hfirst, ?_⟩
    have hroom := (hstay hfirst).mp ?_
    · rw [hwidth hfirst] at hroom
      exact hroom
    · intro n hn hno hne hno' hcount
      have hset : n ∈ p.group_replica_set group :=
        (mem_owner_led_set p.members_nodup).mpr (.inr ⟨hranked.mp hn, hno, hcount⟩)
      have hout := (p.mem_without leaving).mp (h n hset hne)
      exact (hout.resolve_left hno').2.2.2
  · rintro ⟨hfirst, hroom⟩ n hn hne
    rw [mem_without]
    by_cases hno' : n = p.next_owner leaving group
    · exact .inl hno'
    · right
      rcases (mem_owner_led_set p.members_nodup).mp hn with rfl | ⟨hmem, hno, hcount⟩
      · exact ⟨howner, hne, hno', hfirst⟩
      · rw [← hwidth hfirst] at hroom
        exact ⟨hmem, hne, hno', (hstay hfirst).mpr hroom n (hranked.mpr hmem) hno hne hno' hcount⟩

/-- The set that a leaver hands a group to keeps the others exactly if someone else is there to
lead it, and the leaver owned the group, or its owner leads the next set too, or the owner and
the others have room in it beside the next owner. -/
theorem hand_off_set_keeps_the_others_iff (p : Placement) (group : GroupId) (leaving : NodeId) :
    p.KeepsTheOthers leaving group ↔
      (p.staying leaving ≠ [] ∨ leaving ≠ p.node) ∧
        (p.group_owner group = leaving ∨ p.group_owner group = p.next_owner leaving group ∨
          p.group_owner group ∈ hrw.replica_set (as_bytes (group_key group))
              (p.followers leaving group) (p.replicas - 1) ∧
            (leaving ∈ hrw.replica_set (as_bytes (group_key group)) p.members p.replicas ∨
              p.next_owner leaving group ∈
                hrw.replica_set (as_bytes (group_key group)) p.members p.replicas)) := by
  have hnodup : (p.group_replica_set_without group leaving).Nodup :=
    owner_led_set_nodup group (p.staying_nodup leaving) _ _
  have hleaving : leaving ∉ p.group_replica_set_without group leaving ↔
      (p.staying leaving ≠ [] ∨ leaving ≠ p.node) := by
    rw [leaving_mem_iff]
    exact p.next_owner_ne_iff leaving
  unfold KeepsTheOthers
  rw [hleaving]
  refine and_congr_right (fun hne => ?_)
  have hne : p.next_owner leaving group ≠ leaving := (p.next_owner_ne_iff leaving).mpr hne
  simp only [hnodup, true_and]
  by_cases hown : p.group_owner group = leaving
  · simp only [hown, true_or, iff_true]
    exact fun n => p.closes_up leaving (.inl hown)
  · by_cases hlead : p.group_owner group = p.next_owner leaving group
    · simp only [hlead, true_or, or_true, iff_true]
      exact fun n => p.closes_up leaving (.inr hlead)
    · simp only [hown, hlead, false_or]
      exact p.keeps_iff_of_moves leaving hown hlead hne

/-- Four members in the order a, d, c, b of group 0, whose lease the last of them holds. -/
def held_by_the_last : Placement where
  node := "a"
  eligible := ((((∅ : BTreeSet NodeId).insert "a").insert "b").insert "c").insert "d"
  lease_owners := (∅ : BTreeMap GroupId NodeId).insert 0 "b"
  replicas := 2

theorem the_owner_is_left_out :
    ¬ ∀ (p : Placement) (group : GroupId) (leaving : NodeId), p.KeepsTheOthers leaving group := by
  intro h
  have hset : "b" ∈ held_by_the_last.group_replica_set 0 := by decide +kernel
  have hout : "b" ∉ held_by_the_last.group_replica_set_without 0 "c" := by decide +kernel
  exact hout ((h held_by_the_last 0 "c").2.2 "b" hset (by decide))

end placement.Placement

end mqtt_cluster
