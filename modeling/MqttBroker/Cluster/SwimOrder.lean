-- The order of membership claims. Every call moves the entries of the table up
-- in one order of generation, incarnation and state, and only the member's own
-- refutation brings a dead entry back within its life.
import MqttBroker.Cluster.Swim

namespace mqtt_cluster.swim

/-! ## The order of entries -/

/-- What orders the claims about one node. -/
def Member.rank (m : Member) : Nat ×ₗ Nat ×ₗ Nat :=
  toLex (m.generation, toLex (m.incarnation, m.state.precedence))

variable {m m' : Member}

theorem rank_le : m.rank ≤ m'.rank ↔
    m.generation < m'.generation ∨ m.generation = m'.generation ∧
      (m.incarnation < m'.incarnation ∨ m.incarnation = m'.incarnation ∧
        m.state.precedence ≤ m'.state.precedence) := by
  unfold Member.rank
  rw [Prod.Lex.toLex_le_toLex, Prod.Lex.toLex_le_toLex]

/-- A claim of the member itself brings it back from a death at an incarnation. -/
def Revives (id : NodeId) (life incarnation : Nat) (u : Update) : Prop :=
  u.id = id ∧ u.generation = life ∧ u.state = .Alive ∧ incarnation < u.incarnation

/-- How an entry changes: it goes up in the order, and within its life it leaves `Dead`
only by one of the claims. -/
structure Advances (claims : Update → Prop) (id : NodeId) (m m' : Member) : Prop where
  rank : m.rank ≤ m'.rank
  revived : m.state = .Dead → m'.generation = m.generation → m'.state ≠ .Dead →
    ∃ u, claims u ∧ Revives id m.generation m.incarnation u

/-- An entry stands under its own id, has a tombstone just while it is dead, and a last
probe only while it is not. -/
structure TidyMember (id : NodeId) (m : Member) : Prop where
  id : m.id = id
  tombstone : m.tombstone_deadline.isSome ↔ m.state = .Dead
  confirm : m.confirm.isSome → m.state ≠ .Dead

def Tidy (s : Swim) : Prop := ∀ (id : NodeId) m, s.members[id]? = some m → TidyMember id m

theorem Advances.refl (claims : Update → Prop) (id : NodeId) (m : Member) :
    Advances claims id m m :=
  ⟨le_refl _, fun hdead _ halive => absurd hdead halive⟩

variable {id : NodeId}

theorem Advances.trans {claims : Update → Prop} {m'' : Member} (h : Advances claims id m m')
    (h' : Advances claims id m' m'') : Advances claims id m m'' := by
  refine ⟨h.rank.trans h'.rank, ?_⟩
  intro hdead hlife halive
  have hr := rank_le.mp h.rank
  have hr' := rank_le.mp h'.rank
  have hsame : m'.generation = m.generation := by omega
  by_cases hd : m'.state = .Dead
  · obtain ⟨u, hu, hrevive⟩ := h'.revived hd (by omega) halive
    refine ⟨u, hu, hrevive.1, hrevive.2.1.trans hsame, hrevive.2.2.1, ?_⟩
    have hinc := hrevive.2.2.2
    omega
  · exact h.revived hdead hsame hd

/-- A change that keeps what orders the entry. -/
theorem Advances.same {claims : Update → Prop} (hg : m'.generation = m.generation)
    (hi : m'.incarnation = m.incarnation) (hs : m'.state = m.state) : Advances claims id m m' := by
  refine ⟨?_, fun hdead _ halive => absurd (hs.trans hdead) halive⟩
  rw [rank_le, hg, hi, hs]
  omega

/-! ## Moves of a node -/

/-- From a tidy table the node goes to a tidy one, with every entry kept and advanced. -/
def Moves (claims : Update → Prop) (s s' : Swim) : Prop :=
  Tidy s → Tidy s' ∧ ∀ (id : NodeId) m, s.members[id]? = some m →
    ∃ m', s'.members[id]? = some m' ∧ Advances claims id m m'

section moves

variable {claims : Update → Prop} {s s' s'' : Swim}

theorem Moves.of_members (h : s'.members = s.members) : Moves claims s s' := by
  intro ht
  refine ⟨?_, ?_⟩
  · intro id m hm
    rw [h] at hm
    exact ht id m hm
  · intro id m hm
    rw [h]
    exact ⟨m, hm, .refl _ _ _⟩

theorem Moves.refl (s : Swim) : Moves claims s s := .of_members rfl

theorem Moves.trans (h : Moves claims s s') (h' : Moves claims s' s'') :
    Moves claims s s'' := by
  intro ht
  obtain ⟨ht', hmem⟩ := h ht
  obtain ⟨ht'', hmem'⟩ := h' ht'
  refine ⟨ht'', ?_⟩
  intro id m hm
  obtain ⟨m', hm', hadv⟩ := hmem id m hm
  obtain ⟨m'', hm'', hadv'⟩ := hmem' id m' hm'
  exact ⟨m'', hm'', hadv.trans hadv'⟩

theorem Moves.foldl {α : Type} {f : Swim → α → Swim} (l : List α)
    (h : ∀ s, ∀ x ∈ l, Moves claims s (f s x)) (s : Swim) : Moves claims s (l.foldl f s) := by
  induction l generalizing s with
  | nil => exact .refl s
  | cons x l ih =>
    have hhead := h s x (by simp)
    have htail := ih (fun s y hy => h s y (by simp [hy])) (f s x)
    exact hhead.trans htail

theorem Moves.mono {claims' : Update → Prop}
    (hc : ∀ u, claims u → 0 < u.incarnation → claims' u)
    (h : Moves claims s s') : Moves claims' s s' := by
  intro ht
  obtain ⟨ht', hmem⟩ := h ht
  refine ⟨ht', ?_⟩
  intro id m hm
  obtain ⟨m', hm', hadv⟩ := hmem id m hm
  refine ⟨m', hm', hadv.rank, ?_⟩
  intro hdead hlife halive
  obtain ⟨u, hu, hr⟩ := hadv.revived hdead hlife halive
  have hpos : 0 < u.incarnation := Nat.zero_lt_of_lt hr.2.2.2
  exact ⟨u, hc u hu hpos, hr⟩

theorem Moves.put {id : NodeId} {m' : Member}
    (h : s.members[id]? = none → TidyMember id m')
    (h' : ∀ m, s.members[id]? = some m → TidyMember id m →
      TidyMember id m' ∧ Advances claims id m m') :
    Moves claims s (s.putMember id m') := by
  intro ht
  have hput : TidyMember id m' := by
    cases hm : s.members[id]? with
    | none => exact h hm
    | some m => exact (h' m hm (ht id m hm)).1
  refine ⟨?_, ?_⟩
  · intro id' m hm
    simp only [Swim.putMember, BTreeMap.get_insert] at hm
    split at hm
    · next heq =>
      cases hm
      exact heq ▸ hput
    · exact ht id' m hm
  · intro id' m hm
    simp only [Swim.putMember, BTreeMap.get_insert]
    split
    · next heq =>
      subst heq
      exact ⟨m', rfl, (h' m hm (ht _ m hm)).2⟩
    · exact ⟨m, hm, .refl _ _ _⟩

/-- An entry is changed in what does not order it. -/
theorem Moves.put_same {id : NodeId} {m m' : Member} (hm : s.members[id]? = some m)
    (hid : m'.id = m.id) (hg : m'.generation = m.generation)
    (hi : m'.incarnation = m.incarnation) (hs : m'.state = m.state)
    (ht : m'.tombstone_deadline = m.tombstone_deadline)
    (hc : m'.confirm.isSome → m.state ≠ .Dead ∨ m.confirm.isSome) :
    Moves claims s (s.putMember id m') := by
  refine .put (fun hnone => ?_) ?_
  · rw [hm] at hnone
    cases hnone
  · intro m0 hm0 htidy
    rw [hm] at hm0
    cases hm0
    refine ⟨⟨hid.trans htidy.id, by rw [ht, hs]; exact htidy.tombstone, ?_⟩, .same hg hi hs⟩
    intro hsome
    rw [hs]
    rcases hc hsome with h | h
    · exact h
    · exact htidy.confirm h

end moves

/-! ## What a function leaves alone -/

/-- The departures and what was noted are left alone, and no `Gone` is raised. -/
structure Calm (s s' : Swim) : Prop where
  cfg : s'.cfg = s.cfg
  departed : s'.departed = s.departed
  history : s'.history = s.history
  gone : ∀ {id addr peer_addr}, .Gone id addr peer_addr ∈ s'.out → .Gone id addr peer_addr ∈ s.out

/-- The table is left alone as well. -/
structure Quiet (s s' : Swim) : Prop extends Calm s s' where
  members : s'.members = s.members

theorem Calm.refl (s : Swim) : Calm s s := ⟨rfl, rfl, rfl, fun h => h⟩

theorem Calm.trans {s s' s'' : Swim} (h : Calm s s') (h' : Calm s' s'') : Calm s s'' :=
  ⟨h'.cfg.trans h.cfg, h'.departed.trans h.departed, h'.history.trans h.history,
    fun hgone => h.gone (h'.gone hgone)⟩

theorem Quiet.refl (s : Swim) : Quiet s s := ⟨.refl s, rfl⟩

theorem Quiet.trans {s s' s'' : Swim} (h : Quiet s s') (h' : Quiet s' s'') : Quiet s s'' :=
  ⟨h.toCalm.trans h'.toCalm, h'.members.trans h.members⟩

variable {α : Type} {f : Swim → α → Swim}

theorem chain_foldl {R : Swim → Swim → Prop} (hrefl : ∀ s, R s s)
    (htrans : ∀ {s s' s''}, R s s' → R s' s'' → R s s'') (hf : ∀ s x, R s (f s x)) (l : List α)
    (s : Swim) : R s (l.foldl f s) := by
  induction l generalizing s with
  | nil => exact hrefl s
  | cons x l ih => exact htrans (hf s x) (ih (f s x))

theorem Quiet.foldl (l : List α) (h : ∀ s x, Quiet s (f s x)) (s : Swim) :
    Quiet s (l.foldl f s) := chain_foldl .refl .trans h l s

theorem Quiet.ite {s s' s'' : Swim} {c : Prop} [Decidable c] (h : Quiet s s')
    (h' : Quiet s s'') : Quiet s (if c then s' else s'') := by
  split
  · exact h
  · exact h'

theorem Quiet.moves {claims : Update → Prop} {s s' : Swim} (h : Quiet s s') :
    Moves claims s s' := .of_members h.members

namespace Swim

variable (s : Swim) (u : Update)

theorem quiet_push {a : Action} (ha : ∀ id addr peer_addr, a ≠ .Gone id addr peer_addr) :
    Quiet s (s.push a) := by
  refine ⟨⟨rfl, rfl, rfl, ?_⟩, rfl⟩
  intro id addr peer_addr hgone
  simpa [push, Ne.symm (ha id addr peer_addr)] using hgone

theorem quiet_push_send (dest : String) (msg : Message) :
    Quiet s (s.push (.Send dest msg)) := quiet_push s (by simp)

theorem quiet_push_greet (s' : Swim) (addr : String) (more : List Update) :
    Quiet s (s.push (s'.greet addr more)) := quiet_push_send s _ _

theorem quiet_push_change (id : NodeId) (addr peer_addr : String) (state : MemberState)
    (domain : Option String) :
    Quiet s (s.push (.StateChange id addr peer_addr state domain)) := quiet_push s (by simp)

theorem quiet_setProbe (probe : Option Probe) : Quiet s (s.setProbe probe) :=
  ⟨⟨rfl, rfl, rfl, fun h => h⟩, rfl⟩

theorem quiet_count_silent : Quiet s s.count_silent := ⟨⟨rfl, rfl, rfl, fun h => h⟩, rfl⟩

theorem quiet_enqueue_gossip : Quiet s (s.enqueue_gossip u) :=
  ⟨⟨rfl, rfl, rfl, fun h => h⟩, rfl⟩

theorem quiet_send_message (dest : String) (kind : Kind) : Quiet s (s.send_message dest kind) := by
  unfold send_message
  refine Quiet.trans ?_ (quiet_push_send s.take_gossip.2 _ _)
  exact ⟨⟨rfl, rfl, rfl, fun h => h⟩, rfl⟩

theorem quiet_refute : Quiet s (s.refute u) := by
  unfold refute
  split
  · exact .refl s
  · split
    · dsimp only
      split
      · exact ⟨⟨rfl, rfl, rfl, fun h => h⟩, rfl⟩
      · exact ⟨⟨rfl, rfl, rfl, fun h => h⟩, rfl⟩
    · exact .refl s

theorem quiet_relay : Quiet s (s.relay u) := by
  unfold relay
  refine .ite ?_ (quiet_enqueue_gossip s u)
  split
  · exact .ite (quiet_enqueue_gossip _ _) (quiet_enqueue_gossip _ _)
  · exact quiet_enqueue_gossip s u

theorem shuffle_rng {α : Type} (l : List α) : ∃ rng, (s.shuffle l).2 = { s with rng := rng } := by
  unfold shuffle
  refine List.foldlRecOn
    (motive := fun acc : List α × Swim => ∃ rng, acc.2 = { s with rng := rng }) _ _
    ⟨s.rng, rfl⟩ ?_
  rintro acc ⟨rng, hrng⟩ k -
  have hnext : acc.2.xorshift.2 = { s with rng := acc.2.xorshift.2.rng } := by rw [hrng]; rfl
  dsimp only
  split
  · exact ⟨_, hnext⟩
  · exact ⟨_, hnext⟩

theorem quiet_shuffle {α : Type} (l : List α) : Quiet s (s.shuffle l).2 := by
  obtain ⟨rng, hrng⟩ := shuffle_rng s l
  rw [hrng]
  exact ⟨⟨rfl, rfl, rfl, fun h => h⟩, rfl⟩

theorem quiet_random_alive_helpers (exclude : NodeId) :
    Quiet s (s.random_alive_helpers exclude).2 := quiet_shuffle s _

theorem quiet_next_probe_target : Quiet s s.next_probe_target.2 := by
  unfold next_probe_target
  refine Quiet.trans (.ite ?_ (.refl s)) ⟨⟨rfl, rfl, rfl, fun h => h⟩, rfl⟩
  exact (quiet_shuffle s _).trans ⟨⟨rfl, rfl, rfl, fun h => h⟩, rfl⟩

theorem quiet_probe_member (target : NodeId) (m : Member) (now : Nat) :
    Quiet s (s.probe_member target m now) := by
  unfold probe_member
  refine Quiet.trans (.trans (.trans ?_ (quiet_send_message _ _ _))
    (.ite (quiet_send_message _ _ _) (.refl _))) (quiet_setProbe _ _)
  exact ⟨⟨rfl, rfl, rfl, fun h => h⟩, rfl⟩

theorem quiet_start_probe (now : Nat) : Quiet s (s.start_probe now) := by
  unfold start_probe
  have hnext := quiet_next_probe_target s
  dsimp only
  split
  · exact hnext
  · split
    · exact hnext
    · exact hnext.trans (quiet_probe_member _ _ _ now)

theorem quiet_greet_seeds (skip : Swim → String → Bool) : Quiet s (s.greet_seeds skip) :=
  .foldl _ (fun _ _ => .ite (.refl _) (quiet_send_message _ _ _)) s

theorem quiet_bootstrap (now : Nat) : Quiet s (s.bootstrap now) := by
  unfold bootstrap
  refine Quiet.trans ?_ (quiet_greet_seeds _ _)
  exact ⟨⟨rfl, rfl, rfl, fun h => h⟩, rfl⟩

theorem quiet_gossip_full_state : Quiet s s.gossip_full_state :=
  .foldl _ (fun _ _ => quiet_enqueue_gossip _ _) s

end Swim

/-! ## A claim that supersedes -/

namespace Member

@[simp] theorem touched_id (m : Member) (u : Update) (source : Source) :
    (m.touched u source).id = m.id := rfl

@[simp] theorem touched_generation (m : Member) (u : Update) (source : Source) :
    (m.touched u source).generation = m.generation := rfl

@[simp] theorem touched_incarnation (m : Member) (u : Update) (source : Source) :
    (m.touched u source).incarnation = m.incarnation := rfl

@[simp] theorem touched_state (m : Member) (u : Update) (source : Source) :
    (m.touched u source).state = m.state := rfl

@[simp] theorem touched_confirm (m : Member) (u : Update) (source : Source) :
    (m.touched u source).confirm = m.confirm := rfl

theorem touched_tombstone (m : Member) (u : Update) (source : Source) :
    (m.touched u source).tombstone_deadline =
      if m.pierced_by u source then none else m.tombstone_deadline := rfl

theorem pierced {m : Member} {u : Update} {source : Source} (h : m.pierced_by u source = true) :
    source = .FirstHand ∧ u.state = .Alive ∧ m.incarnation < u.incarnation := by
  simpa [pierced_by, and_assoc] using h

theorem superseded_iff {m : Member} {u : Update} : m.superseded_by u = true ↔
    m.generation < u.generation ∨ m.incarnation < u.incarnation ∨
      u.incarnation = m.incarnation ∧ m.state.precedence < u.state.precedence := by
  simp [superseded_by, or_assoc]

theorem adopted_state (m : Member) (cfg : Config) (u : Update) (now : Nat) :
    (m.adopted cfg u now).state = u.state := by
  simp only [adopted]
  split
  · rfl
  · next h =>
    push Not at h
    exact h.1

theorem tombstone_isSome (cfg : Config) (state : MemberState) (now : Nat) :
    (tombstone cfg state now).isSome ↔ state = .Dead := by
  unfold tombstone
  split
  · simp_all
  · simp_all

end Member

theorem adopted_advances {u : Update} {source : Source} (cfg : Config) (now : Nat)
    (ht : TidyMember id m) (hid : u.id = id) (hlife : m.generation ≤ u.generation)
    (hfence : m.fenced u source = false) (hsup : (m.touched u source).superseded_by u = true) :
    TidyMember id ((m.touched u source).adopted cfg u now) ∧
      Advances (fun v => v = u ∧ source = .FirstHand) id m
        ((m.touched u source).adopted cfg u now) := by
  rw [Member.superseded_iff, Member.touched_generation, Member.touched_incarnation,
    Member.touched_state] at hsup
  have hstate := Member.adopted_state (m.touched u source) cfg u now
  have hgen : ((m.touched u source).adopted cfg u now).generation = u.generation := rfl
  have hinc : ((m.touched u source).adopted cfg u now).incarnation = u.incarnation := rfl
  refine ⟨⟨?_, ?_, ?_⟩, ?_, ?_⟩
  · exact (Member.touched_id m u source).trans ht.id
  · have htomb : ((m.touched u source).adopted cfg u now).tombstone_deadline =
        if m.state ≠ u.state ∨ m.generation < u.generation then
          Member.tombstone cfg u.state now
        else (m.touched u source).tombstone_deadline := rfl
    rw [hstate, htomb]
    split
    · exact Member.tombstone_isSome cfg u.state now
    · next hsame =>
      push Not at hsame
      rw [Member.touched_tombstone]
      by_cases hp : m.pierced_by u source = true
      · have halive := (Member.pierced hp).2.1
        simp [hp, halive]
      · rw [if_neg hp, ht.tombstone, hsame.1]
  · have hconfirm : ((m.touched u source).adopted cfg u now).confirm =
        if (m.state ≠ u.state ∧ u.state ≠ .Suspect) ∨ m.generation < u.generation then none
        else m.confirm := rfl
    rw [hstate, hconfirm]
    split
    · simp
    · next hkeep =>
      push Not at hkeep
      intro hsome hdead
      have hc := ht.confirm hsome
      by_cases hs : m.state = u.state
      · exact hc (hs.trans hdead)
      · rw [hkeep.1 hs] at hdead
        cases hdead
  · rw [rank_le, hgen, hinc, hstate]
    omega
  · intro hdead hsame halive
    rw [hgen] at hsame
    rw [hstate] at halive
    have hstone : m.tombstone_deadline.isSome = true := ht.tombstone.mpr hdead
    have hp : m.pierced_by u source = true := by
      by_contra hp
      simp [Member.fenced, hsame, hstone, halive, hp] at hfence
    obtain ⟨hsource, hu, hlt⟩ := Member.pierced hp
    exact ⟨u, ⟨rfl, hsource⟩, hid, hsame, hu, hlt⟩

namespace Swim

variable (s : Swim) (u : Update) (now : Nat)

theorem begin_life_members (m : Member) (u : Update) (now : Nat) :
    (s.begin_life m u now).members = s.members ∧ (s.begin_life m u now).cfg = s.cfg := by
  unfold begin_life
  dsimp only
  split
  · exact ⟨rfl, rfl⟩
  · exact ⟨rfl, rfl⟩

theorem members_adopt (m : Member) (u : Update) (now : Nat) (source : Source) :
    (s.adopt m u now source).members = s.members.insert u.id (m.adopted s.cfg u now) := by
  obtain ⟨hmem, hcfg⟩ := begin_life_members s m u now
  unfold adopt
  dsimp only
  by_cases hl : m.generation < u.generation
  · simp only [hl, if_true]
    repeat' split
    all_goals simp [putMember, push, count_spared, hmem, hcfg]
  · simp only [hl, if_false]
    repeat' split
    all_goals simp [putMember, push, count_spared]

theorem heard_again_members :
    (s.heard_again u now).members = s.members ∧ (s.heard_again u now).cfg = s.cfg := by
  unfold heard_again
  split
  · exact ⟨rfl, rfl⟩
  · split
    · exact ⟨rfl, rfl⟩
    · split
      · exact ⟨rfl, rfl⟩
      · exact ⟨rfl, rfl⟩

variable {claims : Update → Prop}

/-- A node that is not held comes in tidy. -/
theorem moves_learn (h : s.members[u.id]? = none) : Moves claims s (s.learn u now) := by
  refine Moves.trans (.put (fun _ => ?_) ?_) (quiet_push_change _ _ _ _ _ _).moves
  · exact ⟨rfl, Member.tombstone_isSome s.cfg u.state now, by simp⟩
  · intro m hm
    rw [h] at hm
    cases hm

theorem moves_send_last_probe (id : NodeId) (dead : Option Nat) (now : Nat)
    (h : ∀ m, s.members[id]? = some m → m.state ≠ .Dead) :
    Moves claims s (s.send_last_probe id dead now) := by
  unfold send_last_probe
  dsimp only
  split
  · exact .of_members rfl
  · next m hm =>
    have hput : Moves claims s (s.putMember id
        { m with confirm := some ⟨s.seq + 1, now + s.scaled_ack_timeout, dead⟩ }) :=
      .put_same hm rfl rfl rfl rfl rfl (fun _ => .inl (h m hm))
    exact hput.trans (.of_members rfl)

theorem moves_check_relayed_dead (id : NodeId) (incarnation now : Nat)
    (h : ∀ m, s.members[id]? = some m → m.state ≠ .Dead) :
    Moves claims s (s.check_relayed_dead id incarnation now) := by
  unfold check_relayed_dead
  split
  · exact .refl s
  · next m hm =>
    split
    · exact .put_same hm rfl rfl rfl rfl rfl (fun _ => .inl (h m hm))
    · exact moves_send_last_probe s id _ now h

theorem moves_put_touched {s : Swim} {id : NodeId} {m : Member} {u : Update} {source : Source}
    (hm : s.members[id]? = some m) (hp : ¬ m.pierced_by u source = true) :
    Moves claims s (s.putMember id (m.touched u source)) :=
  .put_same hm rfl rfl rfl rfl (by rw [Member.touched_tombstone, if_neg hp]) .inr

theorem putMember_twice (id : NodeId) (m m' : Member) :
    (s.putMember id m).members.insert id m' = s.members.insert id m' := by
  ext k v
  simp only [putMember, BTreeMap.get_insert]
  split
  · rfl
  · rfl

theorem moves_apply_update_from (source : Source) :
    Moves (fun v => v = u ∧ source = .FirstHand) s (s.apply_update_from u now source) := by
  unfold apply_update_from
  split
  · exact (quiet_refute s u).moves
  · have hnote : ∀ {claims : Update → Prop},
        Moves claims s (s.note (.Heard u.id u.generation)) := .of_members rfl
    dsimp only
    split
    · next m hm =>
      split
      · exact hnote
      · next hlife =>
        split
        · exact hnote
        · next hfence =>
          have hfence : m.fenced u source = false := by simpa using hfence
          refine hnote.trans ?_
          split
          · next hsup =>
            -- not superseded: then the claim does not pierce, and the tombstone stays
            have hp : ¬ m.pierced_by u source = true := by
              intro hp
              have hlt := (Member.pierced hp).2.2
              have : (m.touched u source).superseded_by u = true :=
                Member.superseded_iff.mpr (.inr (.inl (by simpa using hlt)))
              simp [this] at hsup
            exact moves_put_touched hm hp
          · next hsup =>
            have hsup : (m.touched u source).superseded_by u = true := by simpa using hsup
            split
            · next hcheck =>
              obtain ⟨-, -, -, hdead, hheld⟩ := hcheck
              have hp : ¬ m.pierced_by u source = true := by
                intro hp
                rw [(Member.pierced hp).2.1] at hdead
                cases hdead
              refine (moves_put_touched hm hp).trans ?_
              apply moves_check_relayed_dead
              intro m' hm'
              simp only [putMember, BTreeMap.get_insert, if_true, Option.some.injEq] at hm'
              exact hm' ▸ hheld
            · refine Moves.trans ?_ (quiet_relay _ _).moves
              intro ht
              have hput : Moves (fun v => v = u ∧ source = .FirstHand)
                  (s.note (.Heard u.id u.generation))
                  ((s.note (.Heard u.id u.generation)).putMember u.id
                    ((m.touched u source).adopted s.cfg u now)) := by
                refine .put (fun hnone => ?_) ?_
                · rw [hm] at hnone
                  cases hnone
                · intro m0 hm0 htidy
                  rw [hm] at hm0
                  cases hm0
                  exact adopted_advances s.cfg now htidy rfl (by omega) hfence hsup
              refine hput.trans (.of_members ?_) ht
              rw [members_adopt, putMember_twice]
              rfl
    · next hnone =>
      refine hnote.trans ?_
      refine Moves.trans (.of_members (heard_again_members _ u now).1) ?_
      refine Moves.trans (moves_learn _ u now ?_) (quiet_relay _ _).moves
      rw [(heard_again_members _ u now).1]
      exact hnone

end Swim

/-! ## Verdicts and timers -/

/-- Only one entry of the table changes. -/
def Only (id : NodeId) (s s' : Swim) : Prop :=
  ∀ id' : NodeId, id' ≠ id → s'.members[id']? = s.members[id']?

theorem Only.of_members {s s' : Swim} (h : s'.members = s.members) : Only id s s' := by
  intro id' _
  rw [h]

theorem Only.trans {s s' s'' : Swim} (h : Only id s s') (h' : Only id s' s'') :
    Only id s s'' := fun id' hne => (h' id' hne).trans (h id' hne)

theorem Quiet.only {s s' : Swim} (h : Quiet s s') (id : NodeId) : Only id s s' :=
  .of_members h.members

namespace Swim

variable (s : Swim) (now : Nat)

theorem only_put (id : NodeId) (m : Member) : Only id s (s.putMember id m) := by
  intro id' hne
  simp only [putMember, BTreeMap.get_insert]
  rw [if_neg (Ne.symm hne)]

theorem only_send_last_probe (id : NodeId) (dead : Option Nat) (now : Nat) :
    Only id s (s.send_last_probe id dead now) := by
  unfold send_last_probe
  dsimp only
  split
  · exact .of_members rfl
  · exact only_put s id _

theorem only_check_relayed_dead (id : NodeId) (incarnation now : Nat) :
    Only id s (s.check_relayed_dead id incarnation now) := by
  unfold check_relayed_dead
  split
  · exact .of_members rfl
  · split
    · exact only_put s id _
    · exact only_send_last_probe s id _ now

theorem only_apply_update_from (u : Update) (now : Nat) (source : Source) :
    Only u.id s (s.apply_update_from u now source) := by
  unfold apply_update_from
  split
  · exact (quiet_refute s u).only _
  · dsimp only
    split
    · next m hm =>
      split
      · exact .of_members rfl
      · split
        · exact .of_members rfl
        · have hput : Only u.id s ((s.note (.Heard u.id u.generation)).putMember u.id
            (m.touched u source)) := only_put s u.id _
          split
          · exact hput
          · split
            · exact hput.trans (only_check_relayed_dead _ _ _ _)
            · refine Only.trans ?_ ((quiet_relay _ _).only _)
              refine hput.trans ?_
              intro id' hne
              rw [members_adopt, BTreeMap.get_insert, if_neg (Ne.symm hne)]
    · refine Only.trans ?_ ((quiet_relay _ _).only _)
      have hagain : Only u.id s ((s.note (.Heard u.id u.generation)).heard_again u now) :=
        .of_members (heard_again_members _ u now).1
      exact hagain.trans (only_put _ u.id _)

theorem only_declare (id : NodeId) (state : MemberState) (now : Nat) :
    Only id s (s.declare id state now) := by
  unfold declare
  split
  · exact .of_members rfl
  · next m hm =>
    exact only_apply_update_from s (Update.mk id m.addr m.peer_addr m.incarnation m.generation
      state _ m.failure_domain) now .Own

theorem moves_declare (id : NodeId) (state : MemberState) (now : Nat) :
    Moves (fun _ => False) s (s.declare id state now) := by
  unfold declare
  split
  · exact .refl s
  · refine (moves_apply_update_from s _ now .Own).mono ?_
    rintro u ⟨-, h⟩ -
    cases h

theorem only_conclude_last_probe (id : NodeId) (probe : LastProbe) (now : Nat) :
    Only id s (s.conclude_last_probe id probe now) := by
  unfold conclude_last_probe
  split
  · exact .of_members rfl
  · dsimp only
    split
    · exact only_put s id _
    · exact Only.trans (only_put s id _) (only_declare _ id .Dead now)

theorem moves_conclude_last_probe (id : NodeId) (probe : LastProbe) (now : Nat) :
    Moves (fun _ => False) s (s.conclude_last_probe id probe now) := by
  unfold conclude_last_probe
  split
  · exact .refl s
  · next m hm =>
    dsimp only
    split
    · exact .put_same hm rfl rfl rfl rfl rfl (by simp)
    · next hstands =>
      refine Moves.trans (Moves.trans (.put (fun hnone => ?_) ?_) (quiet_count_silent _).moves)
        (moves_declare _ id .Dead now)
      · rw [hm] at hnone
        cases hnone
      · intro m0 hm0 htidy
        rw [hm] at hm0
        cases hm0
        have hup : m.incarnation ≤ probe.dead.getD m.incarnation := by
          cases hd : probe.dead with
          | none => simp
          | some claimed => simpa [hd] using hstands
        refine ⟨⟨htidy.id, htidy.tombstone, by simp⟩, ?_,
          fun hdead _ halive => absurd hdead halive⟩
        rw [rank_le]
        dsimp only
        omega

theorem only_time_out (id : NodeId) : Only id s (s.time_out now id) := by
  unfold time_out
  split
  · split
    · exact only_send_last_probe s id none now
    · split
      · exact .of_members rfl
      · exact only_conclude_last_probe s id _ now
  · exact only_declare s id .Dead now

theorem moves_time_out (id : NodeId) (h : ∀ m, s.members[id]? = some m → m.state ≠ .Dead) :
    Moves (fun _ => False) s (s.time_out now id) := by
  unfold time_out
  split
  · split
    · exact moves_send_last_probe s id none now h
    · split
      · exact .refl s
      · exact moves_conclude_last_probe s id _ now
  · exact moves_declare s id .Dead now

/-- The suspects of a list are timed out one after another, and none of them is dead when
its turn comes. -/
theorem moves_time_outs (ids : List NodeId) (hn : ids.Nodup) (s : Swim)
    (h : ∀ id ∈ ids, ∀ m, s.members[id]? = some m → m.state ≠ .Dead) :
    Moves (fun _ => False) s (ids.foldl (fun s id => s.time_out now id) s) := by
  induction ids generalizing s with
  | nil => exact .refl s
  | cons id ids ih =>
    rw [List.nodup_cons] at hn
    rw [List.foldl_cons]
    refine (moves_time_out s now id (h id (by simp))).trans (ih hn.2 _ ?_)
    intro id' hid' m hm
    have hne : id' ≠ id := fun heq => hn.1 (heq ▸ hid')
    rw [only_time_out s now id id' hne] at hm
    exact h id' (by simp [hid']) m hm

theorem values_ids {s : Swim} (ht : Tidy s) :
    s.values.map Member.id = s.members.toList.map Prod.fst := by
  unfold values
  rw [List.map_map]
  apply List.map_congr_left
  intro e he
  have hmem : s.members[e.1]? = some e.2 := (BTreeMap.mem_toList _ _ _).mp he
  exact (ht e.1 e.2 hmem).id

theorem values_nodup {s : Swim} (ht : Tidy s) (p : Member → Bool) :
    ((s.values.filter p).map Member.id).Nodup := by
  have hall : (s.values.map Member.id).Nodup := by
    rw [values_ids ht, List.nodup_iff_pairwise_ne, List.pairwise_map]
    exact s.members.toList_sorted.imp (fun h => ne_of_lt h)
  exact hall.sublist (List.filter_sublist.map _)

theorem mem_values {s : Swim} (ht : Tidy s) {p : Member → Bool} {id : NodeId}
    (h : id ∈ (s.values.filter p).map Member.id) :
    ∃ m, s.members[id]? = some m ∧ p m = true := by
  obtain ⟨m, hm, rfl⟩ := List.mem_map.mp h
  obtain ⟨hvalues, hp⟩ := List.mem_filter.mp hm
  obtain ⟨⟨key, m'⟩, he, rfl⟩ := List.mem_map.mp hvalues
  have hmem : s.members[key]? = some m' := (BTreeMap.mem_toList _ _ _).mp he
  refine ⟨m', ?_, hp⟩
  rw [(ht key m' hmem).id]
  exact hmem

theorem moves_lapsed :
    Moves (fun _ => False) s (((s.values.filter (fun m => m.state = .Suspect ∧
      s.lapsed m now = true)).map Member.id).foldl (fun s id => s.time_out now id) s) := by
  intro ht
  refine moves_time_outs now _ (values_nodup ht _) _ ?_ ht
  intro id hid m hm
  obtain ⟨m', hm', hp⟩ := mem_values ht hid
  rw [hm] at hm'
  cases hm'
  have hsuspect : m.state = .Suspect := (of_decide_eq_true hp).1
  simp [hsuspect]

end Swim

/-! ## Nothing comes back in a tick -/

/-- Every node that is not held stays so. -/
def Absent (s s' : Swim) : Prop :=
  ∀ id : NodeId, s.members[id]? = none → s'.members[id]? = none

theorem Absent.of_members {s s' : Swim} (h : s'.members = s.members) : Absent s s' := by
  intro id hnone
  rw [h]
  exact hnone

theorem Absent.trans {s s' s'' : Swim} (h : Absent s s') (h' : Absent s' s'') : Absent s s'' :=
  fun id hnone => h' id (h id hnone)

/-- One entry changes, and only where it is held. -/
theorem Absent.of_only {s s' : Swim} (h : Only id s s')
    (hnone : s.members[id]? = none → s'.members = s.members) : Absent s s' := by
  intro id' hid'
  by_cases heq : id' = id
  · subst heq
    rw [hnone hid']
    exact hid'
  · rw [h id' heq]
    exact hid'

/-! ## Changes that order nothing -/

/-- The table moves for no claim, and nothing comes into it. -/
structure Mild (s s' : Swim) : Prop extends Calm s s' where
  moves : ∀ {claims : Update → Prop}, Moves claims s s'
  absent : Absent s s'

theorem Quiet.mild {s s' : Swim} (h : Quiet s s') : Mild s s' :=
  ⟨h.toCalm, h.moves, .of_members h.members⟩

theorem Mild.refl (s : Swim) : Mild s s := (Quiet.refl s).mild

theorem Mild.trans {s s' s'' : Swim} (h : Mild s s') (h' : Mild s' s'') : Mild s s'' :=
  ⟨h.toCalm.trans h'.toCalm, h.moves.trans h'.moves, h.absent.trans h'.absent⟩

/-- An entry is changed in what does not order it. -/
theorem Mild.put_same {s : Swim} {m m' : Member} (hm : s.members[id]? = some m)
    (hid : m'.id = m.id) (hg : m'.generation = m.generation)
    (hi : m'.incarnation = m.incarnation) (hs : m'.state = m.state)
    (ht : m'.tombstone_deadline = m.tombstone_deadline)
    (hc : m'.confirm.isSome → m.confirm.isSome) : Mild s (s.putMember id m') := by
  refine ⟨⟨rfl, rfl, rfl, fun h => h⟩, .put_same hm hid hg hi hs ht (fun h => .inr (hc h)), ?_⟩
  refine .of_only (Swim.only_put s id m') ?_
  intro hnone
  cases hnone.symm.trans hm

theorem Mild.update_same {s : Swim} {f : Member → Member}
    (hf : ∀ m, (f m).id = m.id ∧ (f m).generation = m.generation ∧
      (f m).incarnation = m.incarnation ∧ (f m).state = m.state ∧
      (f m).tombstone_deadline = m.tombstone_deadline ∧
      ((f m).confirm.isSome → m.confirm.isSome)) :
    Mild s (s.updateMember id f) := by
  unfold Swim.updateMember
  split
  · next m hm =>
    obtain ⟨h1, h2, h3, h4, h5, h6⟩ := hf m
    exact .put_same hm h1 h2 h3 h4 h5 h6
  · exact .refl s

namespace Swim

theorem mild_missed (s : Swim) (id : NodeId) : Mild s (s.updateMember id missed) :=
  .update_same (fun _ => ⟨rfl, rfl, rfl, rfl, rfl, fun h => h⟩)

theorem mild_answered (s : Swim) (id : NodeId) : Mild s (s.updateMember id answered) :=
  .update_same (fun _ => ⟨rfl, rfl, rfl, rfl, rfl, fun h => h⟩)

/-- A last probe is given up. -/
theorem mild_unasked (s : Swim) (id : NodeId) :
    Mild s (s.updateMember id (fun m => { m with confirm := none })) :=
  .update_same (fun _ => ⟨rfl, rfl, rfl, rfl, rfl, by simp⟩)

theorem mild_ask_helpers (s : Swim) (p : Probe) (now : Nat) : Mild s (s.ask_helpers p now) := by
  unfold ask_helpers
  dsimp only
  split
  · refine Mild.trans (Quiet.mild ?_) (mild_missed _ _)
    exact Quiet.trans (Quiet.trans (quiet_random_alive_helpers s p.target)
      (.foldl _ (fun s addr => quiet_send_message s addr _) _)) (quiet_setProbe _ _)
  · exact (Quiet.trans (Quiet.trans (quiet_random_alive_helpers s p.target)
      (.foldl _ (fun s addr => quiet_send_message s addr _) _)) (quiet_setProbe _ _)).mild

theorem suspect_target_eq (s : Swim) (p : Probe) (now : Nat) : ∃ counted : Swim,
    s.suspect_target p now = (counted.setProbe none).declare p.target .Suspect now ∧
      counted.local_id = s.local_id ∧ Mild s counted := by
  have hcount : Quiet s { s with failed_probe_rounds := s.failed_probe_rounds + 1 } :=
    ⟨⟨rfl, rfl, rfl, fun h => h⟩, rfl⟩
  unfold suspect_target
  dsimp only
  split
  · exact ⟨_, rfl, rfl, hcount.mild⟩
  · refine ⟨_, rfl, ?_, hcount.mild.trans (mild_missed _ p.target)⟩
    unfold updateMember
    split
    · rfl
    · rfl

section chain

variable {R : Swim → Swim → Prop} {now : Nat}

theorem chain_advance_probe (htrans : ∀ {s s' s''}, R s s' → R s' s'' → R s s'')
    (hmild : ∀ {s s'}, Mild s s' → R s s') (hdeclare : ∀ s id, R s (s.declare id .Suspect now))
    (s : Swim) : R s (s.advance_probe now) := by
  unfold advance_probe
  split
  · exact hmild (.refl s)
  · next p _ =>
    split
    · split
      · exact hmild (mild_ask_helpers s p now)
      · exact hmild (.refl s)
    · split
      · obtain ⟨counted, heq, -, hcounted⟩ := suspect_target_eq s p now
        rw [heq]
        exact htrans (hmild (hcounted.trans (quiet_setProbe _ _).mild)) (hdeclare _ _)
      · exact hmild (.refl s)

theorem chain_expire_suspects (hrefl : ∀ s, R s s)
    (htrans : ∀ {s s' s''}, R s s' → R s' s'' → R s s'')
    (hsend : ∀ s id, R s (s.send_last_probe id none now))
    (hconclude : ∀ s id probe, R s (s.conclude_last_probe id probe now))
    (hunasked : ∀ s id, R s (s.updateMember id (fun m => { m with confirm := none })))
    (hdeclare : ∀ s id, R s (s.declare id .Dead now)) (s : Swim) :
    R s (s.expire_suspects now) := by
  have htime_out : ∀ s id, R s (s.time_out now id) := by
    intro s id
    unfold time_out
    split
    · split
      · exact hsend s id
      · split
        · exact hrefl s
        · exact hconclude s id _
    · exact hdeclare s id
  unfold expire_suspects
  refine htrans (htrans (chain_foldl hrefl htrans ?_ _ _) (chain_foldl hrefl htrans ?_ _ _))
    (chain_foldl hrefl htrans ?_ _ _)
  · exact fun s e => hconclude s e.1 e.2
  · exact fun s id => hunasked s id
  · exact fun s id => htime_out s id

end chain

/-! ## Probes and timers of a tick -/

theorem moves_expire_suspects (s : Swim) (now : Nat) :
    Moves (fun _ => False) s (s.expire_suspects now) := by
  have hchecked : ∀ (checked : List (NodeId × LastProbe)), Moves (fun _ => False) s
      (checked.foldl (fun s e => s.conclude_last_probe e.1 e.2 now) s) :=
    fun checked => .foldl checked (fun s e _ => moves_conclude_last_probe s e.1 e.2 now) s
  have hovertaken : ∀ (overtaken : List NodeId) (s : Swim), Moves (fun _ => False) s
      (overtaken.foldl (fun s id => s.updateMember id (fun m => { m with confirm := none })) s) :=
    fun overtaken => .foldl overtaken (fun s id _ => (mild_unasked s id).moves)
  unfold expire_suspects
  exact ((hchecked _).trans (hovertaken _ _)).trans (moves_lapsed _ now)

theorem absent_declare (s : Swim) (id : NodeId) (state : MemberState) (now : Nat) :
    Absent s (s.declare id state now) := by
  refine .of_only (only_declare s id state now) ?_
  intro hnone
  simp [declare, hnone]

theorem absent_expire_suspects (s : Swim) (now : Nat) : Absent s (s.expire_suspects now) := by
  refine chain_expire_suspects (fun _ => .of_members rfl) .trans ?_ ?_
    (fun s id => (mild_unasked s id).absent) (fun s id => absent_declare s id .Dead now) s
  · intro s id
    refine .of_only (only_send_last_probe s id none now) ?_
    intro hnone
    simp [send_last_probe, hnone]
  · intro s id probe
    refine .of_only (only_conclude_last_probe s id probe now) ?_
    intro hnone
    simp [conclude_last_probe, hnone]

end Swim

/-! ## Calls -/

namespace Swim

variable (s : Swim) (msg : Message) (now : Nat)

theorem members_depart (id : NodeId) (m : Member) : (s.depart now id m).members = s.members := rfl

theorem members_confirm_gone (id : NodeId) : (s.confirm_gone now id).members = s.members := by
  unfold confirm_gone
  split
  · rfl
  · rfl

theorem members_foldl {α : Type} {f : Swim → α → Swim} (l : List α)
    (h : ∀ s x, (f s x).members = s.members) (s : Swim) : (l.foldl f s).members = s.members :=
  chain_foldl (R := fun s s' => s'.members = s.members) (fun _ => rfl) (fun h h' => h'.trans h) h l s

theorem members_confirm_departed : (s.confirm_departed now).members = s.members :=
  members_foldl _ (fun s id => members_confirm_gone s now id) s

/-- Just the entries whose tombstone ran out are gone. -/
theorem members_prune_tombstones :
    (s.prune_tombstones now).members = s.members.filter (fun _ m => !expired now m) := by
  unfold prune_tombstones
  rw [members_confirm_departed]
  split
  · rw [members_foldl, members_foldl]
    · exact fun s e => members_depart s now e.1 e.2
    · exact fun s e => rfl
  · rw [members_foldl]
    exact fun s e => members_depart s now e.1 e.2

theorem moves_tick :
    Moves (fun _ => False) (s.prune_tombstones now) (s.tick now) ∧
      Absent (s.prune_tombstones now) (s.tick now) := by
  have hout : (prune_tombstones { s with out := [] } now).members =
      (s.prune_tombstones now).members := by
    rw [members_prune_tombstones, members_prune_tombstones]
  unfold tick
  dsimp only
  generalize prune_tombstones { s with out := [] } now = pruned at hout ⊢
  have hboot : Quiet pruned (if pruned.bootstrapped then pruned else pruned.bootstrap now) :=
    .ite (.refl pruned) (quiet_bootstrap pruned now)
  generalize (if pruned.bootstrapped then pruned else pruned.bootstrap now) = booted at hboot ⊢
  have hmoves : Moves (fun _ => False) booted (booted.advance_probe now) :=
    chain_advance_probe .trans (fun h => h.moves) (fun s id => moves_declare s id .Suspect now) _
  have habsent : Absent booted (booted.advance_probe now) :=
    chain_advance_probe .trans (fun h => h.absent) (fun s id => absent_declare s id .Suspect now) _
  replace hmoves := hmoves.trans (moves_expire_suspects _ now)
  replace habsent := habsent.trans (absent_expire_suspects _ now)
  generalize (booted.advance_probe now).expire_suspects now = timed at hmoves habsent ⊢
  have hmembers : booted.members = (s.prune_tombstones now).members := hboot.members.trans hout
  have hstart : Quiet timed (timed.start_probe now).greet_unacquainted_seeds :=
    (quiet_start_probe timed now).trans (quiet_greet_seeds _ _)
  split
  · exact ⟨((Moves.of_members hmembers).trans hmoves).trans (.of_members hstart.members),
      ((Absent.of_members hmembers).trans habsent).trans (.of_members hstart.members)⟩
  · exact ⟨(Moves.of_members hmembers).trans hmoves, (Absent.of_members hmembers).trans habsent⟩

theorem tidy_prune_tombstones {s : Swim} (ht : Tidy s) (now : Nat) :
    Tidy (s.prune_tombstones now) := by
  intro id m hm
  rw [members_prune_tombstones, BTreeMap.get_filter] at hm
  obtain ⟨hm, -⟩ := Option.filter_eq_some_iff.mp hm
  exact ht id m hm

variable {claims : Update → Prop}

theorem mild_spare (id : NodeId) (probe : LastProbe) (now : Nat) :
    Mild s (s.spare id probe now) := by
  unfold spare
  split
  · exact .refl s
  · next m hm =>
    have hworks : Quiet s s.outbound_works := ⟨⟨rfl, rfl, rfl, fun h => h⟩, rfl⟩
    have hsuspect : Mild s (s.outbound_works.putMember id
        { answered m with state_since := now, suspecters := ∅ }) :=
      hworks.mild.trans (.put_same hm rfl rfl rfl rfl rfl (fun h => h))
    have halive : Mild s (s.outbound_works.putMember id (answered m)) :=
      hworks.mild.trans (.put_same hm rfl rfl rfl rfl rfl (fun h => h))
    by_cases hs : m.state = .Suspect
    · simp only [if_pos hs]
      split
      · exact hsuspect
      · exact hsuspect.trans (quiet_push_greet _ _ _ _).mild
    · simp only [if_neg hs]
      split
      · exact halive
      · exact halive.trans (quiet_push_greet _ _ _ _).mild

theorem quiet_rescued : Quiet s (s.setProbe none).lower_awareness.outbound_works :=
  ⟨⟨rfl, rfl, rfl, fun h => h⟩, rfl⟩

theorem mild_on_ack (sender : NodeId) (generation seq now : Nat) :
    Mild s (s.on_ack sender generation seq now) := by
  unfold on_ack
  split
  · refine Mild.trans ((mild_unasked s sender).trans (Quiet.mild ?_)) (mild_spare _ _ _ now)
    exact ⟨⟨rfl, rfl, rfl, fun h => h⟩, rfl⟩
  · split
    · exact (quiet_rescued s).mild.trans (mild_answered _ _)
    · split
      · refine Mild.trans (Quiet.mild ?_) (quiet_send_message _ _ _).mild
        exact ⟨⟨rfl, rfl, rfl, fun h => h⟩, rfl⟩
      · exact .refl s

theorem mild_answer : Mild s (s.answer msg now) := by
  unfold answer
  split
  · exact (quiet_send_message _ _ _).mild
  · exact mild_on_ack s _ _ _ now
  · refine Mild.trans (Quiet.mild ?_) (quiet_send_message _ _ _).mild
    exact ⟨⟨rfl, rfl, rfl, fun h => h⟩, rfl⟩
  · split
    · dsimp only
      split
      · exact (quiet_rescued s).mild
      · exact (quiet_rescued s).mild.trans (mild_answered _ _)
    · exact .refl s
  · exact ((quiet_gossip_full_state s).trans (quiet_send_message _ _ _)).mild
  · exact .refl s

/-- A header carries incarnation zero, which brings nobody back. -/
theorem moves_header : Moves claims s (s.apply_update_from (header_claim msg) now .FirstHand) := by
  refine (moves_apply_update_from s (header_claim msg) now .FirstHand).mono ?_
  rintro u ⟨rfl, -⟩ hpos
  cases hpos

theorem moves_meet_sender : Moves claims s (s.meet_sender msg now) := by
  unfold meet_sender
  split
  · next m hm =>
    have haddr : Moves claims s (if m.addr ≠ msg.from_addr ∧ unroutable msg.from_addr = false then
        s.putMember msg.sender { m with addr := msg.from_addr } else s) := by
      split
      · exact .put_same hm rfl rfl rfl rfl rfl .inr
      · exact .refl s
    dsimp only
    split
    · exact haddr.trans (moves_header _ msg now)
    · exact haddr
  · exact moves_header s msg now

/-- A datagram moves the table up, and only what it says about its own sender brings
the sender back. -/
theorem moves_handle :
    Moves (fun u => u ∈ msg.gossip ∧ u.id = msg.sender) s (s.handle msg now) := by
  have hgossip : ∀ s' : Swim, Moves (fun u => u ∈ msg.gossip ∧ u.id = msg.sender) s'
      (s'.merge_gossip msg now) := by
    refine Moves.foldl msg.gossip ?_
    intro s' u hu
    refine (moves_apply_update_from s' u now _).mono ?_
    rintro v ⟨rfl, hsource⟩ -
    refine ⟨hu, ?_⟩
    by_contra hne
    simp [Source.of, hne] at hsource
  unfold handle
  dsimp only
  split
  · exact .of_members rfl
  · refine Moves.trans (Moves.trans ?_ (hgossip _)) (mild_answer _ msg now).moves
    refine Moves.trans ?_ (moves_meet_sender _ msg now)
    exact .of_members rfl

end Swim

/-! ## Runs -/

/-- A node is held before every one of the calls and after the last. -/
def HeldThrough (id : NodeId) (s : Swim) : List (Nat × Swim.Call) → Prop
  | [] => s.members[id]?.isSome
  | c :: calls => s.members[id]?.isSome ∧ HeldThrough id (s.call c.1 c.2) calls

/-- How one call may change the entry of a node that it keeps. -/
def CallAdvances (c : Swim.Call) (id : NodeId) (m m' : Member) : Prop :=
  Advances (fun u => ∃ msg, c = .Handle msg ∧ msg.sender = id ∧ u ∈ msg.gossip) id m m'

namespace Swim

variable {s : Swim}

theorem call_tidy (ht : Tidy s) (now : Nat) (c : Call) : Tidy (s.call now c) := by
  cases c with
  | Handle msg => exact (moves_handle s msg now ht).1
  | Tick => exact ((moves_tick s now).1 (tidy_prune_tombstones ht now)).1

variable {id : NodeId} {m m' : Member}

theorem call_advances (ht : Tidy s) (now : Nat) (c : Call) (hm : s.members[id]? = some m)
    (hm' : (s.call now c).members[id]? = some m') : CallAdvances c id m m' := by
  cases c with
  | Handle msg =>
    obtain ⟨m0, hm0, hadv⟩ := (moves_handle s msg now ht).2 id m hm
    have heq : m0 = m' := Option.some.inj (hm0.symm.trans hm')
    subst heq
    refine ⟨hadv.rank, ?_⟩
    intro hdead hlife halive
    obtain ⟨u, ⟨hu, hsender⟩, hrevives⟩ := hadv.revived hdead hlife halive
    exact ⟨u, ⟨msg, rfl, hsender.symm.trans hrevives.1, hu⟩, hrevives⟩
  | Tick =>
    obtain ⟨hmoves, habsent⟩ := moves_tick s now
    have htidy := tidy_prune_tombstones ht now
    -- the entry was not pruned, since nothing comes back after the prune
    have hkept : (s.prune_tombstones now).members[id]? = some m := by
      cases hp : (s.prune_tombstones now).members[id]? with
      | none =>
        have hgone : (s.tick now).members[id]? = none := habsent id hp
        rw [show s.call now .Tick = s.tick now from rfl, hgone] at hm'
        cases hm'
      | some m0 =>
        rw [members_prune_tombstones, BTreeMap.get_filter] at hp
        obtain ⟨hp, -⟩ := Option.filter_eq_some_iff.mp hp
        rw [hm] at hp
        exact hp.symm
    obtain ⟨m0, hm0, hadv⟩ := (hmoves htidy).2 id m hkept
    have heq : m0 = m' := Option.some.inj (hm0.symm.trans hm')
    subst heq
    refine ⟨hadv.rank, ?_⟩
    intro hdead hlife halive
    obtain ⟨u, hu, -⟩ := hadv.revived hdead hlife halive
    exact hu.elim

theorem run_tidy (ht : Tidy s) (calls : List (Nat × Call)) : Tidy (s.run calls) := by
  induction calls generalizing s with
  | nil => exact ht
  | cons c calls ih => exact ih (call_tidy ht c.1 c.2)

theorem new_tidy (local_id : NodeId) (local_addr local_peer_addr : String)
    (local_domain : Option String) (generation : Nat) (cfg : Config) (seeds : List String) :
    Tidy (new local_id local_addr local_peer_addr local_domain generation cfg seeds) := by
  intro id m hm
  simp [new] at hm

theorem run_rank (ht : Tidy s) (calls : List (Nat × Call)) (hheld : HeldThrough id s calls)
    (hm : s.members[id]? = some m) (hm' : (s.run calls).members[id]? = some m') :
    m.rank ≤ m'.rank := by
  induction calls generalizing s m with
  | nil =>
    have heq : m = m' := Option.some.inj (hm.symm.trans hm')
    rw [heq]
  | cons c calls ih =>
    have hnext : (s.call c.1 c.2).members[id]?.isSome := by
      cases calls with
      | nil => exact hheld.2
      | cons c' calls => exact hheld.2.1
    obtain ⟨m1, hm1⟩ := Option.isSome_iff_exists.mp hnext
    have hstep := (call_advances ht c.1 c.2 hm hm1).rank
    exact hstep.trans (ih (call_tidy ht c.1 c.2) hheld.2 hm1 hm')

theorem earlier_life_ignored {u : Update} (now : Nat) (source : Source)
    (hm : s.members[u.id]? = some m) (hlife : u.generation < m.generation) :
    (s.apply_update_from u now source).members = s.members := by
  have hnote : (s.note (.Heard u.id u.generation)).members[u.id]? = some m := hm
  unfold apply_update_from
  split
  · exact (quiet_refute s u).members
  · simp only [hnote, if_pos hlife]
    rfl

/-- In every run, the entry of a node that stays in the table goes up in the order of
generation, incarnation and state; within one generation it leaves `Dead` only by its own
claim to be `Alive` at a higher incarnation, in its own datagram; claims about an earlier
life change nothing; and a tombstone stands just while the entry is `Dead`, a last probe
only while it is not. -/
theorem membership_claims_are_ordered (local_id : NodeId) (local_addr local_peer_addr : String)
    (local_domain : Option String) (generation : Nat) (cfg : Config) (seeds : List String)
    (calls : List (Nat × Call)) :
    let s := (new local_id local_addr local_peer_addr local_domain generation cfg seeds).run calls
    (∀ (id : NodeId) m, s.members[id]? = some m →
      (m.tombstone_deadline.isSome ↔ m.state = .Dead) ∧ (m.confirm.isSome → m.state ≠ .Dead)) ∧
    (∀ now c (id : NodeId) m m', s.members[id]? = some m → (s.call now c).members[id]? = some m' →
      m.rank ≤ m'.rank ∧
      (m.state = .Dead → m'.generation = m.generation → m'.state ≠ .Dead →
        ∃ msg u, c = .Handle msg ∧ msg.sender = id ∧ u ∈ msg.gossip ∧ u.id = id ∧
          u.generation = m.generation ∧ u.state = .Alive ∧ m.incarnation < u.incarnation)) ∧
    (∀ more (id : NodeId) m m', HeldThrough id s more → s.members[id]? = some m →
      (s.run more).members[id]? = some m' → m.rank ≤ m'.rank) ∧
    (∀ (s : Swim) now source u m, s.members[u.id]? = some m → u.generation < m.generation →
      (s.apply_update_from u now source).members = s.members) := by
  intro s
  have ht : Tidy s := run_tidy (new_tidy _ _ _ _ _ _ _) calls
  refine ⟨?_, ?_, ?_, ?_⟩
  · intro id m hm
    exact ⟨(ht id m hm).tombstone, (ht id m hm).confirm⟩
  · intro now c id m m' hm hm'
    have hadv := call_advances ht now c hm hm'
    refine ⟨hadv.rank, ?_⟩
    intro hdead hlife halive
    obtain ⟨u, ⟨msg, hc, hsender, hu⟩, hid, hgen, hstate, hinc⟩ :=
      hadv.revived hdead hlife halive
    exact ⟨msg, u, hc, hsender, hu, hid, hgen, hstate, hinc⟩
  · intro more id m m' hheld hm hm'
    exact run_rank ht more hheld hm hm'
  · intro s now source u m hm hlife
    exact earlier_life_ignored now source hm hlife

end Swim

end mqtt_cluster.swim
