-- The direct probe that a node has out. It goes with the life that it probes, or
-- when it runs out unanswered, or when it is answered; and an `Ack` is taken as
-- the answer by its number alone, whoever sent it.
import MqttBroker.Cluster.SwimOrder

namespace mqtt_cluster.swim

/-! ## What leaves the probe alone -/

/-- The probe that is out and the node's own id are left alone. -/
structure Steady (s s' : Swim) : Prop where
  probe : s'.probe = s.probe
  local_id : s'.local_id = s.local_id

theorem Steady.refl (s : Swim) : Steady s s := ⟨rfl, rfl⟩

variable {s s' s'' : Swim}

theorem Steady.trans (h : Steady s s') (h' : Steady s' s'') : Steady s s'' :=
  ⟨h'.probe.trans h.probe, h'.local_id.trans h.local_id⟩

variable {α : Type} {f : Swim → α → Swim}

theorem Steady.foldl (l : List α) (h : ∀ s x, Steady s (f s x)) (s : Swim) :
    Steady s (l.foldl f s) := chain_foldl .refl .trans h l s

theorem Steady.ite {c : Prop} [Decidable c] (h : Steady s s') (h' : Steady s s'') :
    Steady s (if c then s' else s'') := by
  split
  · exact h
  · exact h'

namespace Swim

theorem steady_update (s : Swim) (id : NodeId) (f : Member → Member) :
    Steady s (s.updateMember id f) := by
  unfold updateMember
  split
  · exact ⟨rfl, rfl⟩
  · exact .refl s

theorem steady_send_message (s : Swim) (dest : String) (kind : Kind) :
    Steady s (s.send_message dest kind) := ⟨rfl, rfl⟩

theorem steady_refute (s : Swim) (u : Update) : Steady s (s.refute u) := by
  unfold refute
  refine .ite (.refl s) (.ite ?_ (.refl s))
  dsimp only
  split
  · exact ⟨rfl, rfl⟩
  · exact ⟨rfl, rfl⟩

theorem steady_relay (s : Swim) (u : Update) : Steady s (s.relay u) := by
  unfold relay
  refine .ite ?_ ⟨rfl, rfl⟩
  split
  · exact .ite ⟨rfl, rfl⟩ ⟨rfl, rfl⟩
  · exact ⟨rfl, rfl⟩

theorem steady_send_last_probe (s : Swim) (id : NodeId) (dead : Option Nat) (now : Nat) :
    Steady s (s.send_last_probe id dead now) := by
  unfold send_last_probe
  dsimp only
  split
  · exact ⟨rfl, rfl⟩
  · exact ⟨rfl, rfl⟩

theorem steady_check_relayed_dead (s : Swim) (id : NodeId) (incarnation now : Nat) :
    Steady s (s.check_relayed_dead id incarnation now) := by
  unfold check_relayed_dead
  split
  · exact .refl s
  · split
    · exact ⟨rfl, rfl⟩
    · exact steady_send_last_probe s id _ now

theorem steady_heard_again (s : Swim) (u : Update) (now : Nat) :
    Steady s (s.heard_again u now) := by
  unfold heard_again
  split
  · exact .refl s
  · exact .ite ⟨rfl, rfl⟩ (.ite ⟨rfl, rfl⟩ (.refl s))

theorem steady_learn (s : Swim) (u : Update) (now : Nat) : Steady s (s.learn u now) := ⟨rfl, rfl⟩

/-! ## The life that is probed -/

/-- The claim is about a later life of a node that is held. -/
def begins_life (s : Swim) (u : Update) : Bool :=
  decide (u.id ≠ s.local_id) &&
    s.members[u.id]?.any (fun m => decide (m.generation < u.generation))

theorem begins_life_iff {s : Swim} {u : Update} : s.begins_life u = true ↔
    u.id ≠ s.local_id ∧ ∃ m, s.members[u.id]? = some m ∧ m.generation < u.generation := by
  simp [begins_life, Option.any_eq_true]

def probeBut (s : Swim) (id : NodeId) : Option Probe :=
  s.probe.filter (fun p => decide (p.target ≠ id))

theorem begin_life_probe (s : Swim) (m : Member) (u : Update) (now : Nat) :
    (s.begin_life m u now).probe = s.probeBut u.id ∧
      (s.begin_life m u now).local_id = s.local_id := by
  unfold begin_life probeBut
  dsimp only [push, note]
  cases hp : s.probe with
  | none => simp
  | some p =>
    by_cases ht : p.target = u.id
    · simp [ht, Option.filter_some]
    · simp [ht, Option.filter_some]

theorem adopt_probe (s : Swim) (m : Member) (u : Update) (now : Nat) (source : Source) :
    (s.adopt m u now source).probe =
        (if m.generation < u.generation then s.probeBut u.id else s.probe) ∧
      (s.adopt m u now source).local_id = s.local_id := by
  obtain ⟨hprobe, hlocal⟩ := begin_life_probe s m u now
  unfold adopt
  dsimp only
  by_cases hl : m.generation < u.generation
  · simp only [hl, if_true]
    repeat' split
    all_goals simp [putMember, push, count_spared, hprobe, hlocal]
  · simp only [hl, if_false]
    repeat' split
    all_goals simp [putMember, push, count_spared]

/-- The entry that a claim was noted at, before the claim is adopted. -/
def touch (s : Swim) (m : Member) (u : Update) (source : Source) : Swim :=
  (s.note (.Heard u.id u.generation)).putMember u.id (m.touched u source)

theorem apply_later_life {s : Swim} {u : Update} {m : Member} (now : Nat) (source : Source)
    (hself : u.id ≠ s.local_id) (hm : s.members[u.id]? = some m)
    (hlife : m.generation < u.generation) :
    s.apply_update_from u now source =
      ((s.touch m u source).adopt (m.touched u source) u now source).relay u := by
  have hnote : (s.note (.Heard u.id u.generation)).members[u.id]? = some m := hm
  have hearlier : ¬ u.generation < m.generation := by omega
  have hfence : ¬ m.fenced u source = true := by simp [Member.fenced, hlife]
  have hsup : (m.touched u source).superseded_by u = true :=
    Member.superseded_iff.mpr (.inl hlife)
  have hrelay : ¬ u.generation ≤ (m.touched u source).generation := by
    rw [Member.touched_generation]
    omega
  unfold apply_update_from touch
  simp only [hself, hnote, hearlier, hfence, hsup, hrelay, Bool.not_true, Bool.false_eq_true,
    if_false, false_and, and_false]

theorem steady_apply {s : Swim} {u : Update} (now : Nat) (source : Source)
    (h : s.begins_life u = false) : Steady s (s.apply_update_from u now source) := by
  unfold apply_update_from
  by_cases hself : u.id = s.local_id
  · rw [if_pos hself]
    exact steady_refute s u
  · rw [if_neg hself]
    dsimp only
    split
    · next m hm =>
      have hm : s.members[u.id]? = some m := hm
      have hlife : ¬ m.generation < u.generation := by
        simpa [begins_life, hself, hm] using h
      have htouch : Steady s (s.touch m u source) := ⟨rfl, rfl⟩
      refine .ite ⟨rfl, rfl⟩ (.ite ⟨rfl, rfl⟩ (.ite htouch (.ite ?_ ?_)))
      · exact htouch.trans (steady_check_relayed_dead _ u.id u.incarnation now)
      · obtain ⟨hprobe, hlocal⟩ := adopt_probe (s.touch m u source) (m.touched u source) u now source
        rw [Member.touched_generation, if_neg hlife] at hprobe
        have hadopt : Steady s ((s.touch m u source).adopt (m.touched u source) u now source) :=
          ⟨hprobe, hlocal⟩
        exact hadopt.trans (steady_relay _ u)
    · have hnote : Steady s (s.note (.Heard u.id u.generation)) := ⟨rfl, rfl⟩
      exact ((hnote.trans (steady_heard_again _ u now)).trans (steady_learn _ u now)).trans
        (steady_relay _ u)

theorem apply_begins_life {s : Swim} {u : Update} (now : Nat) (source : Source)
    (h : s.begins_life u = true) :
    (s.apply_update_from u now source).probe = s.probeBut u.id ∧
      (s.apply_update_from u now source).local_id = s.local_id ∧
      ∃ m, (s.apply_update_from u now source).members[u.id]? = some m ∧
        m.generation = u.generation := by
  obtain ⟨hself, m, hm, hlife⟩ := begins_life_iff.mp h
  rw [apply_later_life now source hself hm hlife]
  obtain ⟨hprobe, hlocal⟩ := adopt_probe (s.touch m u source) (m.touched u source) u now source
  rw [Member.touched_generation, if_pos hlife] at hprobe
  have hrelay := steady_relay ((s.touch m u source).adopt (m.touched u source) u now source) u
  refine ⟨hrelay.probe.trans hprobe, hrelay.local_id.trans hlocal,
    (m.touched u source).adopted s.cfg u now, ?_, rfl⟩
  rw [(quiet_relay _ _).members, members_adopt, BTreeMap.get_insert, if_pos rfl]
  rfl

end Swim

/-! ## A datagram before its answer -/

/-- A node is held in a life later than one that was held or that one of the claims
is about. -/
def Outlived (claims : List Update) (id : NodeId) (s s' : Swim) : Prop :=
  ∃ m', s'.members[id]? = some m' ∧
    ((∃ m, s.members[id]? = some m ∧ m.generation < m'.generation) ∨
      ∃ u ∈ claims, u.id = id ∧ u.generation < m'.generation)

/-- The life that is held of a node is the one that was held. -/
def SameLife (id : NodeId) (s s' : Swim) : Prop :=
  ∀ m, s.members[id]? = some m →
    ∃ m', s'.members[id]? = some m' ∧ m'.generation = m.generation

/-- What the claims of one datagram can do: the lives that are held only grow, a node that
comes in is named by a claim, and a probe that is out stays out, or goes with the life that
it probes. -/
structure Follows (claims : List Update) (s s' : Swim) : Prop where
  tidy : Tidy s'
  local_id : s'.local_id = s.local_id
  probe : ∀ p, s.probe = some p → (s'.probe = some p ∧ SameLife p.target s s') ∨
    (s'.probe = none ∧ Outlived claims p.target s s')
  unasked : s.probe = none → s'.probe = none
  grown : ∀ (id : NodeId) m, s.members[id]? = some m →
    ∃ m', s'.members[id]? = some m' ∧ m.generation ≤ m'.generation
  born : ∀ (id : NodeId) m', s'.members[id]? = some m' → s.members[id]? = none →
    id ≠ s.local_id ∧ ∃ u ∈ claims, u.id = id ∧ u.generation ≤ m'.generation

theorem Moves.grown {claims : Update → Prop} (h : Moves claims s s') (ht : Tidy s) :
    ∀ (id : NodeId) m, s.members[id]? = some m →
      ∃ m', s'.members[id]? = some m' ∧ m.generation ≤ m'.generation := by
  intro id m hm
  obtain ⟨m', hm', hadv⟩ := (h ht).2 id m hm
  refine ⟨m', hm', ?_⟩
  rcases rank_le.mp hadv.rank with hlt | ⟨heq, -⟩
  · exact le_of_lt hlt
  · exact le_of_eq heq

/-- The entries keep their lives, whatever else changes in them. -/
theorem Follows.of_lives {claims : List Update} (ht : Tidy s') (h : Steady s s')
    (hlives : ∀ id : NodeId, (s'.members[id]?).map Member.generation =
      (s.members[id]?).map Member.generation) : Follows claims s s' := by
  have hsame : ∀ id : NodeId, SameLife id s s' := by
    intro id m hm
    have hl := hlives id
    rw [hm] at hl
    obtain ⟨m', hm', hg⟩ := Option.map_eq_some_iff.mp hl
    exact ⟨m', hm', hg⟩
  refine ⟨ht, h.local_id, fun p hp => .inl ⟨h.probe.trans hp, hsame p.target⟩,
    fun hp => h.probe.trans hp, ?_, ?_⟩
  · intro id m hm
    obtain ⟨m', hm', hg⟩ := hsame id m hm
    exact ⟨m', hm', le_of_eq hg.symm⟩
  · intro id m' hm' hnone
    have hl := hlives id
    rw [hm', hnone] at hl
    cases hl

theorem Follows.trans {claims : List Update} (h : Follows claims s s')
    (h' : Follows claims s' s'') : Follows claims s s'' := by
  have hborn : ∀ (id : NodeId) m', s''.members[id]? = some m' → s.members[id]? = none →
      id ≠ s.local_id ∧ ∃ u ∈ claims, u.id = id ∧ u.generation ≤ m'.generation := by
    intro id m'' hm'' hnone
    cases hm' : s'.members[id]? with
    | none =>
      rw [← h.local_id]
      exact h'.born id m'' hm'' hm'
    | some m' =>
      obtain ⟨hself, u, hu, hid, hle⟩ := h.born id m' hm' hnone
      obtain ⟨m0, hm0, hle'⟩ := h'.grown id m' hm'
      cases hm0.symm.trans hm''
      exact ⟨hself, u, hu, hid, hle.trans hle'⟩
  refine ⟨h'.tidy, h'.local_id.trans h.local_id, ?_, fun hp => h'.unasked (h.unasked hp), ?_,
    hborn⟩
  · intro p hp
    rcases h.probe p hp with ⟨hp', hlife⟩ | ⟨hnone, m', hm', hlt⟩
    · rcases h'.probe p hp' with ⟨hp'', hlife'⟩ | ⟨hnone, m'', hm'', hlt⟩
      · refine .inl ⟨hp'', ?_⟩
        intro m hm
        obtain ⟨m', hm', hg⟩ := hlife m hm
        obtain ⟨m'', hm'', hg'⟩ := hlife' m' hm'
        exact ⟨m'', hm'', hg'.trans hg⟩
      · refine .inr ⟨hnone, m'', hm'', ?_⟩
        rcases hlt with ⟨m', hm', hlt⟩ | hclaim
        · cases hm : s.members[p.target]? with
          | none =>
            obtain ⟨-, u, hu, hid, hle⟩ := h.born p.target m' hm' hm
            exact .inr ⟨u, hu, hid, Nat.lt_of_le_of_lt hle hlt⟩
          | some m =>
            obtain ⟨m0, hm0, hg⟩ := hlife m hm
            cases hm0.symm.trans hm'
            exact .inl ⟨m, rfl, hg ▸ hlt⟩
        · exact .inr hclaim
    · obtain ⟨m'', hm'', hle⟩ := h'.grown _ _ hm'
      refine .inr ⟨h'.unasked hnone, m'', hm'', ?_⟩
      rcases hlt with ⟨m, hm, hlt⟩ | ⟨u, hu, hid, hlt⟩
      · exact .inl ⟨m, hm, Nat.lt_of_lt_of_le hlt hle⟩
      · exact .inr ⟨u, hu, hid, Nat.lt_of_lt_of_le hlt hle⟩
  · intro id m hm
    obtain ⟨m', hm', hle⟩ := h.grown id m hm
    obtain ⟨m'', hm'', hle'⟩ := h'.grown id m' hm'
    exact ⟨m'', hm'', hle.trans hle'⟩

namespace Swim

variable {s : Swim} {u : Update}

theorem apply_learns (now : Nat) (source : Source) (hself : u.id ≠ s.local_id)
    (hnone : s.members[u.id]? = none) :
    ∃ m, (s.apply_update_from u now source).members[u.id]? = some m ∧
      m.generation = u.generation := by
  have hnote : (s.note (.Heard u.id u.generation)).members[u.id]? = none := hnone
  unfold apply_update_from
  simp only [hself, hnote, if_false]
  rw [(quiet_relay _ _).members]
  unfold learn
  simp only [push, putMember, BTreeMap.get_insert, if_true]
  exact ⟨_, rfl, rfl⟩

theorem apply_same_life (now : Nat) (source : Source) (h : s.begins_life u = false) :
    SameLife u.id s (s.apply_update_from u now source) := by
  intro m hm
  unfold apply_update_from
  by_cases hself : u.id = s.local_id
  · rw [if_pos hself, (quiet_refute s u).members]
    exact ⟨m, hm, rfl⟩
  · have hnote : (s.note (.Heard u.id u.generation)).members[u.id]? = some m := hm
    have hlife : ¬ m.generation < u.generation := by simpa [begins_life, hself, hm] using h
    rw [if_neg hself]
    simp only [hnote]
    by_cases hearlier : u.generation < m.generation
    · rw [if_pos hearlier]
      exact ⟨m, hm, rfl⟩
    · have hgen : u.generation = m.generation := by omega
      have htouched : ((s.note (.Heard u.id u.generation)).putMember u.id
          (m.touched u source)).members[u.id]? = some (m.touched u source) := by
        simp [putMember]
      rw [if_neg hearlier]
      split
      · exact ⟨m, hm, rfl⟩
      · split
        · exact ⟨m.touched u source, htouched, rfl⟩
        · split
          · unfold check_relayed_dead
            simp only [htouched, Member.touched_confirm]
            split
            · simp only [putMember, BTreeMap.get_insert, if_true]
              exact ⟨_, rfl, rfl⟩
            · unfold send_last_probe
              simp only [htouched]
              simp only [push, count_sent, putMember, BTreeMap.get_insert, if_true]
              exact ⟨_, rfl, rfl⟩
          · rw [(quiet_relay _ _).members, members_adopt, BTreeMap.get_insert, if_pos rfl]
            exact ⟨_, rfl, hgen⟩

theorem follows_apply {claims : List Update} (ht : Tidy s) (hu : u ∈ claims) (now : Nat)
    (source : Source) : Follows claims s (s.apply_update_from u now source) := by
  have hmoves := moves_apply_update_from s u now source
  have honly := only_apply_update_from s u now source
  have hborn : ∀ (id : NodeId) m', (s.apply_update_from u now source).members[id]? = some m' →
      s.members[id]? = none →
      id ≠ s.local_id ∧ ∃ u ∈ claims, u.id = id ∧ u.generation ≤ m'.generation := by
    intro id m' hm' hnone
    by_cases hid : id = u.id
    · subst hid
      by_cases hself : u.id = s.local_id
      · rw [apply_update_from, if_pos hself, (quiet_refute s u).members, hnone] at hm'
        cases hm'
      · obtain ⟨m, hm, hg⟩ := apply_learns now source hself hnone
        cases hm.symm.trans hm'
        exact ⟨hself, u, hu, rfl, le_of_eq hg.symm⟩
    · rw [honly id hid, hnone] at hm'
      cases hm'
  cases hlife : s.begins_life u with
  | false =>
    have hsteady := steady_apply now source hlife
    refine ⟨(hmoves ht).1, hsteady.local_id, ?_, fun hp => hsteady.probe.trans hp,
      hmoves.grown ht, hborn⟩
    intro p hp
    refine .inl ⟨hsteady.probe.trans hp, ?_⟩
    by_cases htarget : p.target = u.id
    · rw [htarget]
      exact apply_same_life now source hlife
    · intro m hm
      exact ⟨m, (honly p.target htarget).trans hm, rfl⟩
  | true =>
    obtain ⟨hprobe, hlocal, m', hm', hg⟩ := apply_begins_life now source hlife
    obtain ⟨-, m, hm, hlt⟩ := begins_life_iff.mp hlife
    refine ⟨(hmoves ht).1, hlocal, ?_, ?_, hmoves.grown ht, hborn⟩
    · intro p hp
      by_cases htarget : p.target = u.id
      · refine .inr ⟨?_, m', ?_, .inl ⟨m, ?_, hg ▸ hlt⟩⟩
        · simp [hprobe, probeBut, hp, htarget, Option.filter_some]
        · rw [htarget]
          exact hm'
        · rw [htarget]
          exact hm
      · refine .inl ⟨?_, ?_⟩
        · simp [hprobe, probeBut, hp, htarget, Option.filter_some]
        · intro m hm
          exact ⟨m, (honly p.target htarget).trans hm, rfl⟩
    · intro hnone
      simp [hprobe, probeBut, hnone]

theorem follows_applies {claims : List Update} (ht : Tidy s) (l : List Update)
    (hl : ∀ u ∈ l, u ∈ claims) (now : Nat) (source : Update → Source) :
    Follows claims s (l.foldl (fun s u => s.apply_update_from u now (source u)) s) := by
  induction l generalizing s with
  | nil => exact .of_lives ht (.refl s) (fun _ => rfl)
  | cons u l ih =>
    have hhead := follows_apply ht (hl u (by simp)) now (source u)
    exact hhead.trans (ih hhead.tidy (fun v hv => hl v (by simp [hv])))

variable {p : Probe}

/-- A claim about a later life of the target ends the probe, whatever comes before it and
after it. -/
theorem applies_begin_life {claims : List Update} (ht : Tidy s) (l : List Update)
    (hl : ∀ u ∈ l, u ∈ claims) (now : Nat) (source : Update → Source) (hp : s.probe = some p)
    (hu : u ∈ l) (hid : u.id = p.target) (hlife : s.begins_life u = true) :
    (l.foldl (fun s u => s.apply_update_from u now (source u)) s).probe = none := by
  induction l generalizing s with
  | nil => cases hu
  | cons v l ih =>
    have hv : v ∈ claims := hl v (by simp)
    have hrest : ∀ w ∈ l, w ∈ claims := fun w hw => hl w (by simp [hw])
    have hhead := follows_apply ht hv now (source v)
    rw [List.foldl_cons]
    rcases hhead.probe p hp with ⟨hp', hsame⟩ | ⟨hnone, -⟩
    · rcases List.mem_cons.mp hu with rfl | hu
      · obtain ⟨hprobe, -⟩ := apply_begins_life now (source u) hlife
        simp [hprobe, probeBut, hp, hid, Option.filter_some] at hp'
      · refine ih hhead.tidy hrest hp' hu ?_
        obtain ⟨hself, m, hm, hlt⟩ := begins_life_iff.mp hlife
        obtain ⟨m', hm', hg⟩ := hsame m (hid ▸ hm)
        refine begins_life_iff.mpr ⟨?_, m', hid ▸ hm', hg ▸ hlt⟩
        rw [hhead.local_id]
        exact hself
    · exact (follows_applies hhead.tidy l hrest now source).unasked hnone

def claims_of (msg : Message) : List Update := header_claim msg :: msg.gossip

theorem follows_meet_sender (ht : Tidy s) (msg : Message) (now : Nat) :
    Follows (claims_of msg) s (s.meet_sender msg now) := by
  have hheader : ∀ s' : Swim, Tidy s' → Follows (claims_of msg) s'
      (s'.apply_update_from (header_claim msg) now .FirstHand) :=
    fun s' ht' => follows_apply ht' (by simp [claims_of]) now .FirstHand
  unfold meet_sender
  split
  · next m hm =>
    have haddr : Follows (claims_of msg) s
        (if m.addr ≠ msg.from_addr ∧ unroutable msg.from_addr = false then
          s.putMember msg.sender { m with addr := msg.from_addr } else s) := by
      split
      · have hput : Moves (fun _ => False) s
            (s.putMember msg.sender { m with addr := msg.from_addr }) :=
          .put_same hm rfl rfl rfl rfl rfl .inr
        refine .of_lives (hput ht).1 ⟨rfl, rfl⟩ ?_
        intro id
        simp only [putMember, BTreeMap.get_insert]
        split
        · next heq =>
          subst heq
          simp [hm]
        · rfl
      · exact .of_lives ht (.refl s) (fun _ => rfl)
    dsimp only
    split
    · exact haddr.trans (hheader _ haddr.tidy)
    · exact haddr
  · exact hheader s ht

/-- The start of a datagram of another node. -/
def spoken (s : Swim) (msg : Message) : Swim :=
  { s with out := [] }.note (.Spoke msg.sender msg.from_generation s.members[msg.sender]?.isSome)

/-- A datagram before its answer. -/
def heard (s : Swim) (msg : Message) (now : Nat) : Swim :=
  ((s.spoken msg).meet_sender msg now).merge_gossip msg now

theorem handle_eq {msg : Message} (h : msg.sender ≠ s.local_id) (now : Nat) :
    s.handle msg now = (s.heard msg now).answer msg now := by
  unfold handle heard
  dsimp only
  rw [if_neg h]
  rfl

theorem follows_spoken (ht : Tidy s) (msg : Message) (now : Nat) :
    Follows (claims_of msg) s ((s.spoken msg).meet_sender msg now) := by
  have hstart : Follows (claims_of msg) s (s.spoken msg) :=
    .of_lives ht ⟨rfl, rfl⟩ (fun _ => rfl)
  exact hstart.trans (follows_meet_sender hstart.tidy msg now)

theorem follows_heard (ht : Tidy s) (msg : Message) (now : Nat) :
    Follows (claims_of msg) s (s.heard msg now) := by
  have hmeet := follows_spoken ht msg now
  exact hmeet.trans (follows_applies hmeet.tidy msg.gossip
    (fun u hu => List.mem_cons_of_mem _ hu) now (fun u => .of u msg.sender))

theorem heard_begins_life (ht : Tidy s) (msg : Message) (now : Nat) (hp : s.probe = some p)
    (hu : u ∈ msg.gossip) (hid : u.id = p.target) (hlife : s.begins_life u = true) :
    (s.heard msg now).probe = none := by
  have hmeet := follows_spoken ht msg now
  have hall : ∀ v ∈ msg.gossip, v ∈ claims_of msg := fun v hv => List.mem_cons_of_mem _ hv
  rcases hmeet.probe p hp with ⟨hp', hsame⟩ | ⟨hnone, -⟩
  · refine applies_begin_life hmeet.tidy msg.gossip hall now _ hp' hu hid ?_
    obtain ⟨hself, m, hm, hlt⟩ := begins_life_iff.mp hlife
    obtain ⟨m', hm', hg⟩ := hsame m (hid ▸ hm)
    refine begins_life_iff.mpr ⟨?_, m', hid ▸ hm', hg ▸ hlt⟩
    rw [hmeet.local_id]
    exact hself
  · exact (follows_applies hmeet.tidy msg.gossip hall now _).unasked hnone

/-! ## The answer -/

theorem steady_spare (s : Swim) (id : NodeId) (probe : LastProbe) (now : Nat) :
    Steady s (s.spare id probe now) := by
  unfold spare
  split
  · exact .refl s
  · dsimp only
    refine .ite ?_ ?_
    · exact ⟨rfl, rfl⟩
    · exact ⟨rfl, rfl⟩

theorem steady_enqueue_gossip (s : Swim) (u : Update) : Steady s (s.enqueue_gossip u) := ⟨rfl, rfl⟩

theorem steady_gossip_full_state (s : Swim) : Steady s s.gossip_full_state :=
  .foldl _ (fun s u => steady_enqueue_gossip s u) s

/-- The answer leaves the probe out, unless it is an `Ack` of the probe's number or an
`IndirectAck` of its target. -/
theorem answer_probe (s : Swim) (msg : Message) (now : Nat) :
    (s.answer msg now).local_id = s.local_id ∧
      ((s.answer msg now).probe = s.probe ∨ ∃ p, s.probe = some p ∧
        (msg.kind = .Ack p.seq ∨ msg.kind = .IndirectAck p.target)) := by
  have hsteady : ∀ s' : Swim, Steady s s' → s'.local_id = s.local_id ∧
      (s'.probe = s.probe ∨ ∃ p, s.probe = some p ∧
        (msg.kind = .Ack p.seq ∨ msg.kind = .IndirectAck p.target)) :=
    fun s' h => ⟨h.local_id, .inl h.probe⟩
  unfold answer
  split
  · exact hsteady _ (steady_send_message s _ _)
  · next seq hkind =>
    unfold on_ack
    split
    · have hupdate := steady_update s msg.sender (fun m => { m with confirm := none })
      have hcount : Steady s (s.updateMember msg.sender
        (fun m => { m with confirm := none })).count_spared := ⟨hupdate.probe, hupdate.local_id⟩
      exact hsteady _ (hcount.trans (steady_spare _ _ _ now))
    · split
      · next p hp =>
        obtain ⟨hout, hseq⟩ := Option.filter_eq_some_iff.mp hp
        have hseq : p.seq = seq := of_decide_eq_true hseq
        subst hseq
        have hupdate := steady_update ((s.setProbe none).lower_awareness.outbound_works) p.target
          answered
        exact ⟨hupdate.local_id, .inr ⟨p, hout, .inl hkind⟩⟩
      · split
        · exact hsteady _ ⟨rfl, rfl⟩
        · exact hsteady _ (.refl s)
  · exact hsteady _ ⟨rfl, rfl⟩
  · next target hkind =>
    split
    · next hany =>
      obtain ⟨p, hp, htarget⟩ := Option.any_eq_true _ _ |>.mp hany
      have htarget : p.target = target := of_decide_eq_true htarget
      subst htarget
      refine ⟨?_, .inr ⟨p, hp, .inr hkind⟩⟩
      dsimp only
      split
      · rfl
      · exact (steady_update _ p.target answered).local_id
    · exact hsteady _ (.refl s)
  · exact hsteady _ ((steady_gossip_full_state s).trans (steady_send_message _ _ _))
  · exact hsteady _ (.refl s)

end Swim

/-! ## A tick -/

def Subdued (s s' : Swim) : Prop :=
  ∀ (id : NodeId) m', s'.members[id]? = some m' → m'.state = .Alive →
    ∃ m, s.members[id]? = some m ∧ m.state = .Alive

theorem Subdued.of_members (h : s'.members = s.members) : Subdued s s' := by
  intro id m' hm' halive
  rw [h] at hm'
  exact ⟨m', hm', halive⟩

theorem Subdued.trans (h : Subdued s s') (h' : Subdued s' s'') : Subdued s s'' := by
  intro id m'' hm'' halive
  obtain ⟨m', hm', halive'⟩ := h' id m'' hm'' halive
  exact h id m' hm' halive'

theorem Subdued.put {id : NodeId} {m' : Member}
    (h : m'.state = .Alive → ∃ m, s.members[id]? = some m ∧ m.state = .Alive) :
    Subdued s (s.putMember id m') := by
  intro id' m hm halive
  simp only [Swim.putMember, BTreeMap.get_insert] at hm
  split at hm
  · next heq =>
    cases hm
    subst heq
    exact h halive
  · exact ⟨m, hm, halive⟩

namespace Swim

theorem subdued_update (s : Swim) (id : NodeId) {f : Member → Member}
    (hf : ∀ m, (f m).state = m.state) : Subdued s (s.updateMember id f) := by
  unfold updateMember
  split
  · next m hm => exact .put (fun halive => ⟨m, hm, (hf m).symm.trans halive⟩)
  · exact .of_members rfl

theorem subdued_send_last_probe (s : Swim) (id : NodeId) (dead : Option Nat) (now : Nat) :
    Subdued s (s.send_last_probe id dead now) := by
  unfold send_last_probe
  dsimp only
  split
  · exact .of_members rfl
  · next m hm =>
    have hput : Subdued s (s.putMember id
        { m with confirm := some ⟨s.seq + 1, now + s.scaled_ack_timeout, dead⟩ }) :=
      .put (fun halive => ⟨m, hm, halive⟩)
    exact hput.trans (.of_members rfl)

variable {s : Swim}

/-- A verdict of this node on a member that it holds: the entry keeps its state or takes
the verdict, and a live entry takes it. -/
theorem declare_entry {id : NodeId} {m : Member} (state : MemberState) (now : Nat)
    (hm : s.members[id]? = some m) (hstate : state ≠ .Alive) :
    ∃ m', (s.declare id state now).members[id]? = some m' ∧
      (m'.state = m.state ∨ m'.state = state) ∧
      (id ≠ s.local_id → TidyMember id m → m.state = .Alive → m'.state = state) := by
  unfold declare
  simp only [hm]
  generalize hu : Update.mk id m.addr m.peer_addr m.incarnation m.generation state
    (if state = .Suspect then some s.local_id else none) m.failure_domain = u
  obtain ⟨hid, hinc, hgen, hustate⟩ : u.id = id ∧ u.incarnation = m.incarnation ∧
      u.generation = m.generation ∧ u.state = state := by
    subst hu
    exact ⟨rfl, rfl, rfl, rfl⟩
  unfold apply_update_from
  rw [hid]
  by_cases hself : id = s.local_id
  · rw [if_pos hself, (quiet_refute s u).members]
    exact ⟨m, hm, .inl rfl, fun h => absurd hself h⟩
  · have hnote : (s.note (.Heard id u.generation)).members[id]? = some m := hm
    have htouched : ((s.note (.Heard id u.generation)).putMember id
        (m.touched u .Own)).members[id]? = some (m.touched u .Own) := by
      simp [putMember]
    have hearlier : ¬ u.generation < m.generation := by omega
    have hrelayed : ¬ (Source.Own = Source.Relayed) := by simp
    simp only [hself, if_false, hnote, hearlier, hrelayed, false_and, and_false]
    by_cases hfence : m.fenced u .Own = true
    · rw [if_pos hfence]
      refine ⟨m, hm, .inl rfl, ?_⟩
      intro _ htidy halive
      have hstone : ¬ m.tombstone_deadline.isSome = true := by
        rw [htidy.tombstone, halive]
        simp
      simp [Member.fenced, hstone] at hfence
    · rw [if_neg hfence]
      by_cases hsup : (m.touched u .Own).superseded_by u = true
      · simp only [hsup, Bool.not_true, Bool.false_eq_true, if_false]
        rw [(quiet_relay _ _).members, members_adopt, hid, BTreeMap.get_insert, if_pos rfl]
        have hadopted := (Member.adopted_state (m.touched u .Own) s.cfg u now).trans hustate
        exact ⟨_, rfl, .inr hadopted, fun _ _ _ => hadopted⟩
      · simp only [hsup, Bool.not_false, if_true]
        refine ⟨_, htouched, .inl rfl, ?_⟩
        intro _ _ halive
        refine absurd (Member.superseded_iff.mpr (.inr (.inr ⟨hinc, ?_⟩))) hsup
        rw [halive, hustate]
        cases state with
        | Alive => exact absurd rfl hstate
        | Suspect => decide
        | Dead => decide

theorem subdued_declare (s : Swim) (id : NodeId) {state : MemberState} (now : Nat)
    (hstate : state ≠ .Alive) : Subdued s (s.declare id state now) := by
  intro id' m' hm' halive
  by_cases hid : id' = id
  · subst hid
    cases hm : s.members[id']? with
    | none =>
      rw [absent_declare s id' state now id' hm] at hm'
      cases hm'
    | some m =>
      obtain ⟨m0, hm0, hor, -⟩ := declare_entry state now hm hstate
      cases hm0.symm.trans hm'
      rcases hor with hsame | hnew
      · exact ⟨m, rfl, hsame.symm.trans halive⟩
      · exact absurd (hnew.symm.trans halive) hstate
  · rw [only_declare s id state now id' hid] at hm'
    exact ⟨m', hm', halive⟩

theorem subdued_conclude_last_probe (s : Swim) (id : NodeId) (probe : LastProbe) (now : Nat) :
    Subdued s (s.conclude_last_probe id probe now) := by
  unfold conclude_last_probe
  split
  · exact .of_members rfl
  · next m hm =>
    dsimp only
    split
    · exact .put (fun halive => ⟨m, hm, halive⟩)
    · have hput : Subdued s (s.putMember id { m with
          confirm := none, incarnation := probe.dead.getD m.incarnation }).count_silent :=
        .put (fun halive => ⟨m, hm, halive⟩)
      exact hput.trans (subdued_declare _ id now (by simp))

theorem subdued_expire_suspects (s : Swim) (now : Nat) : Subdued s (s.expire_suspects now) :=
  chain_expire_suspects (fun _ => .of_members rfl) .trans
    (fun s id => subdued_send_last_probe s id none now)
    (fun s id probe => subdued_conclude_last_probe s id probe now)
    (fun s id => subdued_update s id (fun _ => rfl))
    (fun s id => subdued_declare s id now (by simp)) s

theorem steady_declare (s : Swim) (id : NodeId) (state : MemberState) (now : Nat) :
    Steady s (s.declare id state now) := by
  unfold declare
  split
  · exact .refl s
  · next m hm =>
    refine steady_apply now .Own ?_
    simp [begins_life, hm]

theorem steady_conclude_last_probe (s : Swim) (id : NodeId) (probe : LastProbe) (now : Nat) :
    Steady s (s.conclude_last_probe id probe now) := by
  unfold conclude_last_probe
  split
  · exact .refl s
  · next m hm =>
    dsimp only
    refine .ite ⟨rfl, rfl⟩ ?_
    have hput : Steady s (s.putMember id { m with
        confirm := none, incarnation := probe.dead.getD m.incarnation }).count_silent := ⟨rfl, rfl⟩
    exact hput.trans (steady_declare _ id .Dead now)

theorem steady_expire_suspects (s : Swim) (now : Nat) : Steady s (s.expire_suspects now) :=
  chain_expire_suspects .refl .trans (fun s id => steady_send_last_probe s id none now)
    (fun s id probe => steady_conclude_last_probe s id probe now) (fun s id => steady_update s id _)
    (fun s id => steady_declare s id .Dead now) s

theorem steady_prune_tombstones (s : Swim) (now : Nat) : Steady s (s.prune_tombstones now) := by
  have hgone : ∀ (s : Swim) (id : NodeId), Steady s (s.confirm_gone now id) := by
    intro s id
    unfold confirm_gone
    split
    · exact ⟨rfl, rfl⟩
    · exact .refl s
  have hdepart : ∀ (s : Swim) (e : NodeId × Member), Steady s (s.depart now e.1 e.2) :=
    fun _ _ => ⟨rfl, rfl⟩
  have hgreet : ∀ (s : Swim) (e : NodeId × Member), Steady s (s.push (s.greet e.2.addr [])) :=
    fun _ _ => ⟨rfl, rfl⟩
  unfold prune_tombstones confirm_departed
  refine Steady.trans ?_ (.foldl _ hgone _)
  have hfilter : Steady s { s with members := s.members.filter (fun _ m => !expired now m) } :=
    ⟨rfl, rfl⟩
  refine .ite ?_ ?_
  · exact (hfilter.trans (.foldl _ hdepart _)).trans (.foldl _ hgreet _)
  · exact hfilter.trans (.foldl _ hdepart _)

theorem steady_greet_seeds (s : Swim) (skip : Swim → String → Bool) :
    Steady s (s.greet_seeds skip) :=
  .foldl _ (fun s addr => .ite (.refl s) (steady_send_message s addr .Join)) s

theorem steady_bootstrap (s : Swim) (now : Nat) : Steady s (s.bootstrap now) := by
  unfold bootstrap
  refine Steady.trans ?_ (steady_greet_seeds _ _)
  exact ⟨rfl, rfl⟩

theorem steady_shuffle {α : Type} (s : Swim) (l : List α) : Steady s (s.shuffle l).2 := by
  obtain ⟨rng, hrng⟩ := shuffle_rng s l
  rw [hrng]
  exact ⟨rfl, rfl⟩

theorem local_id_start_probe (s : Swim) (now : Nat) : (s.start_probe now).local_id = s.local_id := by
  have hnext : s.next_probe_target.2.local_id = s.local_id := by
    unfold next_probe_target
    dsimp only
    split
    · exact (steady_shuffle s _).local_id
    · rfl
  unfold start_probe
  dsimp only
  split
  · exact hnext
  · split
    · exact hnext
    · unfold probe_member
      dsimp only
      split
      · exact hnext
      · exact hnext

theorem ask_helpers_probe (s : Swim) (p : Probe) (now : Nat) :
    (s.ask_helpers p now).local_id = s.local_id ∧
      ∃ deadline, (s.ask_helpers p now).probe = some { p with indirect_deadline := deadline } := by
  have hasked : ∀ (target_addr : String) (l : List String), Steady s (l.foldl
      (fun s addr => s.send_message addr (.PingReq p.target target_addr))
      (s.random_alive_helpers p.target).2) := by
    intro target_addr l
    refine Steady.trans (steady_shuffle s _) (.foldl l (fun s addr => ?_) _)
    exact steady_send_message s addr _
  have hmissed : ∀ s' : Swim, Steady s' (s'.updateMember p.target missed) :=
    fun s' => steady_update s' p.target missed
  unfold ask_helpers
  dsimp only
  split
  · exact ⟨(hmissed _).local_id.trans (hasked _ _).local_id, _, (hmissed _).probe⟩
  · exact ⟨(hasked _ _).local_id, _, rfl⟩

theorem suspect_target_probe (ht : Tidy s) (halone : s.members[s.local_id]? = none) (p : Probe)
    (now : Nat) :
    (s.suspect_target p now).local_id = s.local_id ∧ (s.suspect_target p now).probe = none ∧
      ∀ m, (s.suspect_target p now).members[p.target]? = some m → m.state ≠ .Alive := by
  obtain ⟨counted, heq, hlocal, hmild⟩ := suspect_target_eq s p now
  have hdeclare := steady_declare (counted.setProbe none) p.target .Suspect now
  rw [heq]
  refine ⟨hdeclare.local_id.trans hlocal, hdeclare.probe, ?_⟩
  intro m' hm'
  cases hm : (counted.setProbe none).members[p.target]? with
  | none =>
    rw [absent_declare _ p.target .Suspect now p.target hm] at hm'
    cases hm'
  | some m =>
    have hself : p.target ≠ (counted.setProbe none).local_id := by
      intro hself
      have hnone : counted.members[p.target]? = none := by
        rw [hself, show (counted.setProbe none).local_id = s.local_id from hlocal]
        exact hmild.absent _ halone
      cases hnone.symm.trans hm
    have hmoves : Moves (fun _ => False) s counted := hmild.moves
    have htidy : TidyMember p.target m := (hmoves ht).1 p.target m hm
    obtain ⟨m0, hm0, hor, hlive⟩ := declare_entry .Suspect now hm (by simp)
    cases hm0.symm.trans hm'
    intro halive
    rcases hor with hsame | hnew
    · cases halive.symm.trans (hlive hself htidy (hsame.symm.trans halive))
    · cases halive.symm.trans hnew

/-- The node does not hold itself. -/
def Alone (s : Swim) : Prop := s.members[s.local_id]? = none

/-- The probe is out, whatever its deadlines. -/
def StillOut (p : Probe) (s : Swim) : Prop :=
  ∃ q, s.probe = some q ∧ q.target = p.target ∧ q.seq = p.seq

/-- The wait for the helpers is over. -/
def RunOut (p : Probe) (now : Nat) : Prop := ∃ deadline, p.indirect_deadline = some deadline ∧
  deadline ≤ now

def NotAlive (id : NodeId) (s : Swim) : Prop := ∀ m, s.members[id]? = some m → m.state ≠ .Alive

theorem advance_probe_probe (ht : Tidy s) (halone : Alone s) (now : Nat) :
    (s.advance_probe now).local_id = s.local_id ∧ ∀ p, s.probe = some p →
      StillOut p (s.advance_probe now) ∨ RunOut p now ∧ NotAlive p.target (s.advance_probe now) := by
  unfold advance_probe
  cases hp : s.probe with
  | none => exact ⟨rfl, by simp⟩
  | some p =>
    have hkept : StillOut p s := ⟨p, hp, rfl, rfl⟩
    dsimp only
    cases hi : p.indirect_deadline with
    | none =>
      dsimp only
      split
      · obtain ⟨hlocal, deadline, hprobe⟩ := ask_helpers_probe s p now
        refine ⟨hlocal, ?_⟩
        rintro q ⟨⟩
        exact .inl ⟨_, hprobe, rfl, rfl⟩
      · refine ⟨rfl, ?_⟩
        rintro q ⟨⟩
        exact .inl hkept
    | some deadline =>
      dsimp only
      split
      · next hdue =>
        obtain ⟨hlocal, -, hdown⟩ := suspect_target_probe ht halone p now
        refine ⟨hlocal, ?_⟩
        rintro q ⟨⟩
        exact .inr ⟨⟨deadline, hi, hdue⟩, hdown⟩
      · refine ⟨rfl, ?_⟩
        rintro q ⟨⟩
        exact .inl hkept

/-- A probe that is out before a tick is out after it, or it has run out and its target is
not held alive. -/
theorem tick_probe (ht : Tidy s) (halone : Alone s) (now : Nat) :
    (s.tick now).local_id = s.local_id ∧ ∀ p, s.probe = some p →
      StillOut p (s.tick now) ∨ RunOut p now ∧ NotAlive p.target (s.tick now) := by
  have hpruned := steady_prune_tombstones { s with out := [] } now
  have htp : Tidy (prune_tombstones { s with out := [] } now) := by
    apply tidy_prune_tombstones
    exact ht
  have hap : Alone (prune_tombstones { s with out := [] } now) := by
    unfold Alone
    rw [hpruned.local_id, members_prune_tombstones, BTreeMap.get_filter, halone]
    rfl
  unfold tick
  dsimp only
  generalize prune_tombstones { s with out := [] } now = pruned at hpruned htp hap ⊢
  have hboot : Quiet pruned (if pruned.bootstrapped then pruned else pruned.bootstrap now) :=
    .ite (.refl pruned) (quiet_bootstrap pruned now)
  have hbooted : Steady pruned (if pruned.bootstrapped then pruned else pruned.bootstrap now) :=
    .ite (.refl pruned) (steady_bootstrap pruned now)
  generalize (if pruned.bootstrapped then pruned else pruned.bootstrap now) = booted
    at hboot hbooted ⊢
  have hmoves : Moves (fun _ => False) pruned booted := hboot.moves
  have htb : Tidy booted := (hmoves htp).1
  have hab : Alone booted := by
    unfold Alone
    rw [hbooted.local_id, hboot.members]
    exact hap
  obtain ⟨hlocal, hadvance⟩ := advance_probe_probe htb hab now
  have hexpire := steady_expire_suspects (booted.advance_probe now) now
  have hsubdued := subdued_expire_suspects (booted.advance_probe now) now
  have hprobe : booted.probe = s.probe := hbooted.probe.trans hpruned.probe
  have hid : booted.local_id = s.local_id := hbooted.local_id.trans hpruned.local_id
  generalize (booted.advance_probe now).expire_suspects now = timed at hexpire hsubdued ⊢
  have htimed : timed.local_id = s.local_id := (hexpire.local_id.trans hlocal).trans hid
  have hfate : ∀ p, s.probe = some p → StillOut p timed ∨ RunOut p now ∧ NotAlive p.target timed := by
    intro p hp
    rcases hadvance p (hprobe.trans hp) with ⟨q, hq, hsame⟩ | ⟨hout, hdown⟩
    · exact .inl ⟨q, hexpire.probe.trans hq, hsame⟩
    · refine .inr ⟨hout, ?_⟩
      intro m hm halive
      obtain ⟨m0, hm0, halive0⟩ := hsubdued p.target m hm halive
      exact hdown m0 hm0 halive0
  have hstart : Quiet timed (timed.start_probe now).greet_unacquainted_seeds :=
    (quiet_start_probe timed now).trans (quiet_greet_seeds _ _)
  have hstarted : (timed.start_probe now).greet_unacquainted_seeds.local_id = s.local_id :=
    ((steady_greet_seeds _ _).local_id.trans (local_id_start_probe timed now)).trans htimed
  split
  · next hnext =>
    refine ⟨hstarted, ?_⟩
    intro p hp
    rcases hfate p hp with ⟨q, hq, -⟩ | ⟨hout, hdown⟩
    · simp [hq] at hnext
    · refine .inr ⟨hout, ?_⟩
      intro m hm
      exact hdown m ((congrArg (fun ms => ms[p.target]?) hstart.members.symm).trans hm)
  · exact ⟨htimed, hfate⟩

/-! ## Calls -/

def Call.claims : Call → List Update
  | .Handle msg => claims_of msg
  | .Tick => []

/-- The call answers the probe: an `Ack` of its number by the target itself, or a helper's
word for the target. -/
def Answers (p : Probe) : Call → Prop
  | .Handle msg => (msg.kind = .Ack p.seq ∧ msg.sender = p.target) ∨
      msg.kind = .IndirectAck p.target
  | .Tick => False

/-- How a probe that was out before a call may stand after it: it is out, or the target or
a helper answered it, or it went with the life that it probed, or it ran out and its target
is not held alive. -/
def Settles (p : Probe) (now : Nat) (c : Call) (s : Swim) : Prop :=
  StillOut p (s.call now c) ∨ Answers p c ∨ Outlived c.claims p.target s (s.call now c) ∨
    (c = .Tick ∧ RunOut p now ∧ NotAlive p.target (s.call now c))

/-- A probe that is out is answered only by its target or for its target. -/
def AnsweredForTarget (s : Swim) (now : Nat) (c : Call) : Prop :=
  ∀ p, s.probe = some p → Settles p now c s

/-- An `Ack` of the number of the probe that is out comes from its target, or from this
node, whose own datagrams are dropped, or with news of a later life of the target. -/
def AcksByTarget (s : Swim) : Call → Prop
  | .Handle msg => ∀ p, s.probe = some p → msg.kind = .Ack p.seq →
      msg.sender = p.target ∨ msg.sender = s.local_id ∨
        ∃ u ∈ msg.gossip, u.id = p.target ∧ s.begins_life u = true
  | .Tick => True

theorem alone_heard (ht : Tidy s) (h : Alone s) (msg : Message) (now : Nat) :
    Alone (s.heard msg now) := by
  have hfollows := follows_heard ht msg now
  cases hm : (s.heard msg now).members[(s.heard msg now).local_id]? with
  | none => exact hm
  | some m =>
    rw [hfollows.local_id] at hm
    exact absurd rfl (hfollows.born _ m hm h).1

theorem call_alone (ht : Tidy s) (h : Alone s) (now : Nat) (c : Call) : Alone (s.call now c) := by
  cases c with
  | Handle msg =>
    by_cases hself : msg.sender = s.local_id
    · have hdrop : s.handle msg now = { s with out := [] } := by
        unfold handle
        exact if_pos hself
      rw [show s.call now (.Handle msg) = s.handle msg now from rfl, hdrop]
      exact h
    · have hheard := alone_heard ht h msg now
      rw [show s.call now (.Handle msg) = s.handle msg now from rfl, handle_eq hself]
      unfold Alone
      rw [(answer_probe _ msg now).1]
      exact (mild_answer _ msg now).absent _ hheard
  | Tick =>
    have hlocal := (tick_probe ht h now).1
    have hpruned : (s.prune_tombstones now).members[s.local_id]? = none := by
      rw [members_prune_tombstones, BTreeMap.get_filter, h]
      rfl
    unfold Alone
    rw [show s.call now .Tick = s.tick now from rfl, hlocal]
    exact (moves_tick s now).2 _ hpruned

theorem call_settles (ht : Tidy s) (halone : Alone s) (now : Nat) {c : Call}
    (hack : AcksByTarget s c) : AnsweredForTarget s now c := by
  intro p hp
  cases c with
  | Tick =>
    rcases (tick_probe ht halone now).2 p hp with hout | ⟨hrun, hdown⟩
    · exact .inl hout
    · exact .inr (.inr (.inr ⟨rfl, hrun, hdown⟩))
  | Handle msg =>
    by_cases hself : msg.sender = s.local_id
    · refine .inl ⟨p, ?_, rfl, rfl⟩
      rw [show s.call now (.Handle msg) = s.handle msg now from rfl, handle, if_pos hself]
      exact hp
    · have hcall : s.call now (.Handle msg) = (s.heard msg now).answer msg now := handle_eq hself now
      have hfollows := follows_heard ht msg now
      rcases hfollows.probe p hp with ⟨hout, -⟩ | ⟨hnone, m', hm', hlater⟩
      · rcases (answer_probe (s.heard msg now) msg now).2 with hsame | ⟨q, hq, hkind⟩
        · refine .inl ⟨p, ?_, rfl, rfl⟩
          rw [hcall, hsame]
          exact hout
        · cases hq.symm.trans hout
          rcases hkind with hkind | hkind
          · -- the answer by number: whose it is was asked of the datagram
            rcases hack p hp hkind with hsender | hsender | ⟨u, hu, hid, hlife⟩
            · exact .inr (.inl (.inl ⟨hkind, hsender⟩))
            · exact absurd hsender hself
            · cases (heard_begins_life ht msg now hp hu hid hlife).symm.trans hout
          · exact .inr (.inl (.inr hkind))
      · -- the target lives on in a later life, also after the answer
        have hmoves : Moves (fun _ => False) (s.heard msg now) ((s.heard msg now).answer msg now) :=
          (mild_answer _ msg now).moves
        obtain ⟨m'', hm'', hle⟩ := hmoves.grown hfollows.tidy p.target m' hm'
        refine .inr (.inr (.inl ⟨m'', ?_, ?_⟩))
        · rw [hcall]
          exact hm''
        · rcases hlater with ⟨m, hm, hlt⟩ | ⟨u, hu, hid, hlt⟩
          · exact .inl ⟨m, hm, Nat.lt_of_lt_of_le hlt hle⟩
          · exact .inr ⟨u, hu, hid, Nat.lt_of_lt_of_le hlt hle⟩

/-! ## Runs -/

/-- Every `Ack` of a run meets the condition when it comes. -/
def AllByTarget (s : Swim) : List (Nat × Call) → Prop
  | [] => True
  | c :: calls => AcksByTarget s c.2 ∧ AllByTarget (s.call c.1 c.2) calls

theorem run_append (s : Swim) (calls more : List (Nat × Call)) :
    s.run (calls ++ more) = (s.run calls).run more := List.foldl_append

theorem allByTarget_append {calls more : List (Nat × Call)} :
    AllByTarget s (calls ++ more) ↔ AllByTarget s calls ∧ AllByTarget (s.run calls) more := by
  induction calls generalizing s with
  | nil => simp [AllByTarget, run]
  | cons c calls ih =>
    rw [List.cons_append, AllByTarget, AllByTarget, ih, and_assoc]
    rfl

theorem run_alone (ht : Tidy s) (h : Alone s) (calls : List (Nat × Call)) :
    Alone (s.run calls) := by
  induction calls generalizing s with
  | nil => exact h
  | cons c calls ih => exact ih (call_tidy ht c.1 c.2) (call_alone ht h c.1 c.2)

/-- A probe ended in a call, and not by an answer: its target lives on in a later life, or
the target was silent and is not held alive. -/
def EndsUnanswered (p : Probe) (now : Nat) (c : Call) (s : Swim) : Prop :=
  ∃ q, s.probe = some q ∧ q.target = p.target ∧ q.seq = p.seq ∧
    (Outlived c.claims p.target s (s.call now c) ∨
      c = .Tick ∧ RunOut q now ∧ NotAlive p.target (s.call now c))

theorem silent_target (ht : Tidy s) (halone : Alone s) {p : Probe} (hout : StillOut p s)
    (calls : List (Nat × Call)) (hfine : AllByTarget s calls)
    (hsilent : ∀ c ∈ calls, ¬ Answers p c.2) :
    StillOut p (s.run calls) ∨ ∃ before now c after, calls = before ++ (now, c) :: after ∧
      EndsUnanswered p now c (s.run before) := by
  induction calls generalizing s with
  | nil => exact .inl hout
  | cons c calls ih =>
    obtain ⟨now, c⟩ := c
    obtain ⟨q, hq, htarget, hseq⟩ := hout
    have hanswer : ¬ Answers q c := by
      have hc := hsilent (now, c) (by simp)
      cases c with
      | Handle msg =>
        simp only [Answers] at hc ⊢
        rw [htarget, hseq]
        exact hc
      | Tick => exact hc
    rcases call_settles ht halone now hfine.1 q hq with hstill | ha | hlater | hrun
    · obtain ⟨q', hq', htarget', hseq'⟩ := hstill
      have hnext : StillOut p (s.call now c) :=
        ⟨q', hq', htarget'.trans htarget, hseq'.trans hseq⟩
      rcases ih (call_tidy ht now c) (call_alone ht halone now c) hnext hfine.2
        (fun c' hc' => hsilent c' (by simp [hc'])) with hend | ⟨before, now', c', after, heq, hends⟩
      · exact .inl hend
      · refine .inr ⟨(now, c) :: before, now', c', after, ?_, hends⟩
        rw [heq]
        rfl
    · exact absurd ha hanswer
    · refine .inr ⟨[], now, c, calls, rfl, q, hq, htarget, hseq, .inl ?_⟩
      rw [← htarget]
      exact hlater
    · refine .inr ⟨[], now, c, calls, rfl, q, hq, htarget, hseq, .inr ?_⟩
      rw [← htarget]
      exact hrun

theorem new_alone (local_id : NodeId) (local_addr local_peer_addr : String)
    (local_domain : Option String) (generation : Nat) (cfg : Config) (seeds : List String) :
    Alone (new local_id local_addr local_peer_addr local_domain generation cfg seeds) := by
  simp [Alone, new]

/-- In every run whose `Ack`s of the number of the probe that is out come from its target, a
probe is cleared as answered only by an `Ack` of its target or by an `IndirectAck` that names
it; so a target that is not answered for stays probed until it is found in a later life or is
no longer held alive. -/
theorem probes_are_answered_for_their_target (local_id : NodeId)
    (local_addr local_peer_addr : String) (local_domain : Option String) (generation : Nat)
    (cfg : Config) (seeds : List String) (calls : List (Nat × Call))
    (hfine : AllByTarget
      (new local_id local_addr local_peer_addr local_domain generation cfg seeds) calls) :
    let start := new local_id local_addr local_peer_addr local_domain generation cfg seeds
    (∀ before now c after, calls = before ++ (now, c) :: after →
      AnsweredForTarget (start.run before) now c) ∧
    (∀ before rest p, calls = before ++ rest → (start.run before).probe = some p →
      (∀ c ∈ rest, ¬ Answers p c.2) →
      StillOut p (start.run calls) ∨ ∃ mid now c after, rest = mid ++ (now, c) :: after ∧
        EndsUnanswered p now c (start.run (before ++ mid))) := by
  intro start
  have htidy : ∀ before, Tidy (start.run before) := run_tidy (new_tidy _ _ _ _ _ _ _)
  have halone : ∀ before, Alone (start.run before) :=
    run_alone (new_tidy _ _ _ _ _ _ _) (new_alone _ _ _ _ _ _ _)
  refine ⟨?_, ?_⟩
  · rintro before now c after rfl
    exact call_settles (htidy before) (halone before) now (allByTarget_append.mp hfine).2.1
  · rintro before rest p rfl hp hsilent
    have hrest := (allByTarget_append.mp hfine).2
    rcases silent_target (htidy before) (halone before) ⟨p, hp, rfl, rfl⟩ rest hrest hsilent with
      hout | ⟨mid, now, c, after, heq, hends⟩
    · rw [run_append]
      exact .inl hout
    · refine .inr ⟨mid, now, c, after, heq, ?_⟩
      rw [run_append]
      exact hends

/-- A node that has yet to meet the others. -/
def prober : Swim := new "a" "10.0.0.1:1" "" none 1 {} []

def sentBy (sender addr : String) (kind : Kind) : Call :=
  .Handle { sender, from_addr := addr, from_generation := 1, kind, gossip := [] }

/-- It meets `b` and `c`, and a period later it probes `b`. -/
def untilProbe : List (Nat × Call) :=
  [(0, sentBy "b" "10.0.0.2:1" .Sync), (0, sentBy "c" "10.0.0.3:1" .Sync), (0, .Tick), (1000, .Tick)]

/-- The ack timeout and the wait for the helpers pass. -/
def untilVerdict : List (Nat × Call) := [(1300, .Tick), (1600, .Tick)]

theorem prober_probes_b : (prober.run untilProbe).probe = some ⟨"b", 1, 1250, none⟩ := by
  decide +kernel

theorem probe_of_b_is_answered_by_b :
    let calls := untilProbe ++ [(1100, sentBy "b" "10.0.0.2:1" (.Ack 1))]
    AllByTarget prober calls ∧ (prober.run calls).probe = none ∧
      AnsweredForTarget (prober.run untilProbe) 1100 (sentBy "b" "10.0.0.2:1" (.Ack 1)) := by
  intro calls
  have hfine : AllByTarget prober calls := by
    refine allByTarget_append.mpr ⟨⟨?_, ?_, trivial, trivial, trivial⟩, ?_, trivial⟩
    · intro p _ hkind
      cases hkind
    · intro p _ hkind
      cases hkind
    · intro p hp _
      cases hp.symm.trans prober_probes_b
      exact .inl rfl
  refine ⟨hfine, by decide +kernel, ?_⟩
  exact (probes_are_answered_for_their_target "a" "10.0.0.1:1" "" none 1 {} [] calls hfine).1
    untilProbe 1100 _ [] rfl

/-- An `Ack` of `c` with the number of the probe of `b` clears it as answered: `b`, which is
suspected without it, is not. -/
theorem an_ack_of_another_member_clears_the_probe :
    ¬ AnsweredForTarget (prober.run untilProbe) 1100 (sentBy "c" "10.0.0.3:1" (.Ack 1)) ∧
    ((prober.run (untilProbe ++ (1100, sentBy "c" "10.0.0.3:1" (.Ack 1)) ::
      untilVerdict)).members["b"]?.map Member.state = some .Alive) ∧
    (prober.run (untilProbe ++ untilVerdict)).members["b"]?.map Member.state = some .Suspect := by
  refine ⟨?_, by decide +kernel, by decide +kernel⟩
  intro h
  have hprobe : ((prober.run untilProbe).call 1100 (sentBy "c" "10.0.0.3:1" (.Ack 1))).probe =
      none := by decide +kernel
  have hbefore : (prober.run untilProbe).members["b"]?.map Member.generation = some 1 := by
    decide +kernel
  have hafter : ((prober.run untilProbe).call 1100
      (sentBy "c" "10.0.0.3:1" (.Ack 1))).members["b"]?.map Member.generation = some 1 := by
    decide +kernel
  rcases h _ prober_probes_b with ⟨q, hq, -⟩ | hanswer | ⟨m', hm', hlater⟩ | ⟨htick, -⟩
  · cases hprobe.symm.trans hq
  · simp [Answers, sentBy] at hanswer
  · rw [hm'] at hafter
    have hgen : m'.generation = 1 := Option.some.inj hafter
    rcases hlater with ⟨m, hm, hlt⟩ | ⟨u, hu, hid, -⟩
    · rw [hm] at hbefore
      have hold : m.generation = 1 := Option.some.inj hbefore
      omega
    · simp only [Call.claims, sentBy, claims_of, List.mem_singleton] at hu
      subst hu
      simp [header_claim] at hid
  · cases htick

end Swim

end mqtt_cluster.swim
