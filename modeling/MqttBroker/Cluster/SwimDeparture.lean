-- When a node is reported gone. A pruned life waits in a table of its own; it is
-- confirmed gone when its wait has run out or when a later life is heard of, and
-- a datagram from it takes it out of the table.
import MqttBroker.Cluster.SwimOrder

namespace mqtt_cluster.swim

/-! ## Why a life is gone -/

/-- What a prune waits for: the answer to the greeting, where there is one. -/
def partingWait (cfg : Config) (greeted : Bool) : Nat :=
  if greeted then cfg.ack_timeout_ms else 0

/-- A claim about a later life of the node was the last thing that happened. -/
def Replaced (id : NodeId) (life : Nat) (history : List Mark) : Prop :=
  ∃ life' rest, life < life' ∧ history = .Heard id life' :: rest

/-- The life was pruned, its wait ran out, and since then no datagram of it came while the
node had no entry. -/
def Waited (cfg : Config) (id : NodeId) (life now : Nat) (history : List Mark) : Prop :=
  ∃ t greeted since rest, history = since ++ .Pruned id life t greeted :: rest ∧
    t + partingWait cfg greeted ≤ now ∧ .Spoke id life false ∉ since

/-- A departure in the table goes back to its prune. -/
def Awaits (cfg : Config) (id : NodeId) (d : Departed) (history : List Mark) : Prop :=
  ∃ t greeted since rest, history = since ++ .Pruned id d.generation t greeted :: rest ∧
    d.confirm_at = t + partingWait cfg greeted ∧ .Spoke id d.generation false ∉ since

/-- Every departure goes back to its prune, apart from those set aside, and every `Gone` of
the call under way has its reason. -/
structure Sound (cfg : Config) (now : Nat) (aside : NodeId → Nat → Prop) (s : Swim) : Prop where
  same : s.cfg = cfg
  waiting : ∀ (id : NodeId) d, s.departed[id]? = some d → ¬ aside id d.generation →
    Awaits cfg id d s.history
  told : ∀ id addr peer_addr, .Gone id addr peer_addr ∈ s.out →
    ∃ life later earlier, s.history = later ++ .Gone id life now :: earlier ∧
      (Replaced id life earlier ∨ Waited cfg id life now earlier)

theorem Awaits.note {cfg : Config} {id : NodeId} {d : Departed} {history : List Mark} {k : Mark}
    (h : Awaits cfg id d history) (hk : k ≠ .Spoke id d.generation false) :
    Awaits cfg id d (k :: history) := by
  obtain ⟨t, greeted, since, rest, hsplit, hwait, hquiet⟩ := h
  refine ⟨t, greeted, k :: since, rest, by rw [hsplit]; rfl, hwait, ?_⟩
  simp [Ne.symm hk, hquiet]

theorem Awaits.waited {cfg : Config} {id : NodeId} {d : Departed} {history : List Mark} {now : Nat}
    (h : Awaits cfg id d history) (hdue : d.confirm_at ≤ now) :
    Waited cfg id d.generation now history := by
  obtain ⟨t, greeted, since, rest, hsplit, hwait, hquiet⟩ := h
  exact ⟨t, greeted, since, rest, hsplit, hwait ▸ hdue, hquiet⟩

/-! ## Steps that keep it -/

def Keeps (cfg : Config) (now : Nat) (aside : NodeId → Nat → Prop) (s s' : Swim) : Prop :=
  Sound cfg now aside s → Sound cfg now aside s'

section keeps

variable {cfg : Config} {now : Nat} {aside : NodeId → Nat → Prop} {s s' s'' : Swim}

theorem Keeps.refl (s : Swim) : Keeps cfg now aside s s := fun h => h

theorem Keeps.trans (h : Keeps cfg now aside s s') (h' : Keeps cfg now aside s' s'') :
    Keeps cfg now aside s s'' := fun hs => h' (h hs)

theorem Calm.keeps (h : Calm s s') : Keeps cfg now aside s s' := by
  intro hs
  refine ⟨h.cfg.trans hs.same, ?_, ?_⟩
  · intro id d hd haside
    rw [h.departed] at hd
    rw [h.history]
    exact hs.waiting id d hd haside
  · intro id addr peer_addr hgone
    rw [h.history]
    exact hs.told id addr peer_addr (h.gone hgone)

theorem keeps_note {k : Mark}
    (hk : ∀ id d, s.departed[id]? = some d → ¬ aside id d.generation →
      k ≠ .Spoke id d.generation false) : Keeps cfg now aside s (s.note k) := by
  intro hs
  refine ⟨hs.same, ?_, ?_⟩
  · intro id d hd haside
    exact (hs.waiting id d hd haside).note (hk id d hd haside)
  · intro id addr peer_addr hgone
    obtain ⟨life, later, earlier, hsplit, hreason⟩ := hs.told id addr peer_addr hgone
    have hnoted : (s.note k).history = (k :: later) ++ .Gone id life now :: earlier := by
      simp [Swim.note, hsplit]
    exact ⟨life, k :: later, earlier, hnoted, hreason⟩

/-- A departure is dropped. -/
theorem keeps_erase (id : NodeId) :
    Keeps cfg now aside s { s with departed := s.departed.erase id } := by
  intro hs
  refine ⟨hs.same, ?_, hs.told⟩
  intro id' d hd haside
  have hd : (s.departed.erase id)[id']? = some d := hd
  rw [BTreeMap.get_erase] at hd
  split at hd
  · cases hd
  · exact hs.waiting id' d hd haside

theorem keeps_gone {id : NodeId} {addr peer_addr : String} {life : Nat}
    (hreason : Replaced id life s.history ∨ Waited cfg id life now s.history) :
    Keeps cfg now aside s ((s.push (.Gone id addr peer_addr)).note (.Gone id life now)) := by
  intro hs
  have hnote : Sound cfg now aside (s.note (.Gone id life now)) :=
    keeps_note (by simp) hs
  refine ⟨hnote.same, hnote.waiting, ?_⟩
  intro id' addr' peer_addr' hgone
  have hgone : .Gone id' addr' peer_addr' ∈ s.out ++ [.Gone id addr peer_addr] := hgone
  rcases List.mem_append.mp hgone with hold | hnew
  · exact hnote.told id' addr' peer_addr' hold
  · have heq : id' = id := by simpa using (Action.Gone.inj (List.mem_singleton.mp hnew)).1
    subst heq
    exact ⟨life, [], s.history, rfl, hreason⟩

end keeps

/-! ## Claims -/

namespace Swim

theorem calm_put (s : Swim) (id : NodeId) (m : Member) : Calm s (s.putMember id m) :=
  ⟨rfl, rfl, rfl, fun h => h⟩

theorem calm_send_last_probe (s : Swim) (id : NodeId) (dead : Option Nat) (now : Nat) :
    Calm s (s.send_last_probe id dead now) := by
  unfold send_last_probe
  dsimp only
  split
  · exact ⟨rfl, rfl, rfl, fun h => h⟩
  · refine Calm.trans ?_ (quiet_push_send _ _ _).toCalm
    exact ⟨rfl, rfl, rfl, fun h => h⟩

theorem calm_check_relayed_dead (s : Swim) (id : NodeId) (incarnation now : Nat) :
    Calm s (s.check_relayed_dead id incarnation now) := by
  unfold check_relayed_dead
  split
  · exact .refl s
  · split
    · exact calm_put s id _
    · exact calm_send_last_probe s id _ now

theorem calm_learn (s : Swim) (u : Update) (now : Nat) : Calm s (s.learn u now) :=
  (calm_put s u.id _).trans (quiet_push_change _ _ _ _ _ _).toCalm

variable {cfg : Config} {now : Nat} {aside : NodeId → Nat → Prop}

theorem keeps_begin_life {s : Swim} {m : Member} {u : Update}
    (hheard : ∃ rest, s.history = .Heard u.id u.generation :: rest)
    (hlife : m.generation < u.generation) : Keeps cfg now aside s (s.begin_life m u now) := by
  obtain ⟨rest, hrest⟩ := hheard
  have hgone : Keeps cfg now aside { s with departed := s.departed.erase u.id }
      ((push { s with departed := s.departed.erase u.id } (.Gone u.id m.addr m.peer_addr)).note
        (.Gone u.id m.generation now)) :=
    keeps_gone (.inl ⟨u.generation, rest, hlife, hrest⟩)
  refine (keeps_erase u.id).trans (hgone.trans (Calm.keeps ?_))
  unfold begin_life
  dsimp only
  split
  · exact ⟨rfl, rfl, rfl, fun h => h⟩
  · exact ⟨rfl, rfl, rfl, fun h => h⟩

theorem keeps_adopt {s : Swim} {m : Member} {u : Update} (source : Source)
    (hheard : ∃ rest, s.history = .Heard u.id u.generation :: rest) :
    Keeps cfg now aside s (s.adopt m u now source) := by
  unfold adopt
  dsimp only
  have hlife : Keeps cfg now aside s
      (if m.generation < u.generation then s.begin_life m u now else s) := by
    split
    · next hlife => exact keeps_begin_life hheard hlife
    · exact .refl s
  generalize (if m.generation < u.generation then s.begin_life m u now else s) = s1 at hlife ⊢
  refine hlife.trans (Calm.keeps ?_)
  repeat' split
  · refine Calm.trans ?_ (quiet_push_change _ _ _ _ _ _).toCalm
    exact ⟨rfl, rfl, rfl, fun h => h⟩
  · refine Calm.trans ?_ (quiet_push_change _ _ _ _ _ _).toCalm
    exact ⟨rfl, rfl, rfl, fun h => h⟩
  · exact ⟨rfl, rfl, rfl, fun h => h⟩
  · exact ⟨rfl, rfl, rfl, fun h => h⟩

theorem keeps_heard_again {s : Swim} {u : Update}
    (hheard : ∃ rest, s.history = .Heard u.id u.generation :: rest) :
    Keeps cfg now aside s (s.heard_again u now) := by
  obtain ⟨rest, hrest⟩ := hheard
  unfold heard_again
  split
  · exact .refl s
  · next d hd =>
    split
    · next hlife =>
      refine (keeps_erase u.id).trans (keeps_gone (.inl ?_))
      exact ⟨u.generation, rest, hlife, hrest⟩
    · split
      · exact keeps_erase u.id
      · exact .refl s

theorem keeps_apply_update_from (s : Swim) (u : Update) (source : Source) :
    Keeps cfg now aside s (s.apply_update_from u now source) := by
  unfold apply_update_from
  split
  · exact (quiet_refute s u).toCalm.keeps
  · have hnote : Keeps cfg now aside s (s.note (.Heard u.id u.generation)) := keeps_note (by simp)
    refine hnote.trans ?_
    dsimp only
    split
    · next m hm =>
      split
      · exact .refl _
      · split
        · exact .refl _
        · refine (calm_put _ u.id (m.touched u source)).keeps.trans ?_
          split
          · exact .refl _
          · split
            · exact (calm_check_relayed_dead _ _ _ _).keeps
            · refine Keeps.trans ?_ (quiet_relay _ u).toCalm.keeps
              exact keeps_adopt source ⟨s.history, rfl⟩
    · refine Keeps.trans ?_ (quiet_relay _ u).toCalm.keeps
      refine Keeps.trans ?_ (calm_learn _ u now).keeps
      exact keeps_heard_again ⟨s.history, rfl⟩

theorem keeps_declare (s : Swim) (id : NodeId) (state : MemberState) :
    Keeps cfg now aside s (s.declare id state now) := by
  unfold declare
  split
  · exact .refl s
  · exact keeps_apply_update_from s _ .Own

end Swim

/-! ## Ticks -/

namespace Swim

variable {cfg : Config} {now : Nat} {aside : NodeId → Nat → Prop}

theorem keeps_conclude_last_probe (s : Swim) (id : NodeId) (probe : LastProbe) :
    Keeps cfg now aside s (s.conclude_last_probe id probe now) := by
  unfold conclude_last_probe
  split
  · exact .refl s
  · dsimp only
    split
    · exact (calm_put s id _).keeps
    · refine Keeps.trans (Calm.keeps ?_) (keeps_declare _ id .Dead)
      exact (calm_put s id _).trans (quiet_count_silent _).toCalm

theorem keeps_expire_suspects (s : Swim) : Keeps cfg now aside s (s.expire_suspects now) :=
  chain_expire_suspects .refl .trans (fun s id => (calm_send_last_probe s id none now).keeps)
    keeps_conclude_last_probe (fun s id => (mild_unasked s id).toCalm.keeps)
    (fun s id => keeps_declare s id .Dead) s

theorem keeps_advance_probe (s : Swim) : Keeps cfg now aside s (s.advance_probe now) :=
  chain_advance_probe .trans (fun h => h.toCalm.keeps) (fun s id => keeps_declare s id .Suspect) s

theorem keeps_depart (s : Swim) (id : NodeId) (m : Member) :
    Keeps cfg now aside s (s.depart now id m) := by
  intro hs
  have hnoted : Sound cfg now aside
      (s.note (.Pruned id m.generation now (s.cfg.greet_pruned && !unroutable m.addr))) :=
    keeps_note (by simp) hs
  refine ⟨hs.same, ?_, hnoted.told⟩
  intro id' d hd haside
  have hd : (s.departed.insert id
      (Departed.mk m.generation m.addr m.peer_addr (now + s.parting_wait m)))[id']? = some d := hd
  rw [BTreeMap.get_insert] at hd
  split at hd
  · next heq =>
    cases hd
    subst heq
    refine ⟨now, _, [], s.history, rfl, ?_, by simp⟩
    rw [← hs.same]
    rfl
  · exact hnoted.waiting id' d hd haside

theorem departed_confirm_gone (s : Swim) (id id' : NodeId) {d : Departed}
    (hd : (s.confirm_gone now id).departed[id']? = some d) : s.departed[id']? = some d := by
  unfold confirm_gone at hd
  split at hd
  · have hd : (s.departed.erase id)[id']? = some d := hd
    rw [BTreeMap.get_erase] at hd
    split at hd
    · cases hd
    · exact hd
  · exact hd

theorem keeps_confirm_gone {s : Swim} {id : NodeId}
    (hdue : ∀ d, s.departed[id]? = some d → d.confirm_at ≤ now) :
    Keeps cfg now (fun _ _ => False) s (s.confirm_gone now id) := by
  unfold confirm_gone
  split
  · next d hd =>
    intro hs
    have hwaited := (hs.waiting id d hd (fun h => h)).waited (hdue d hd)
    exact (keeps_erase id).trans (keeps_gone (.inr hwaited)) hs
  · exact .refl s

theorem keeps_confirm_departed (s : Swim) :
    Keeps cfg now (fun _ _ => False) s (s.confirm_departed now) := by
  have hfold : ∀ (due : List NodeId) (s : Swim),
      (∀ id ∈ due, ∀ d, s.departed[id]? = some d → d.confirm_at ≤ now) →
      Keeps cfg now (fun _ _ => False) s (due.foldl (fun s id => s.confirm_gone now id) s) := by
    intro due
    induction due with
    | nil => exact fun s _ => .refl s
    | cons id due ih =>
      intro s hdue
      refine (keeps_confirm_gone (hdue id (by simp))).trans (ih _ ?_)
      intro id' hid' d hd
      exact hdue id' (by simp [hid']) d (departed_confirm_gone s id id' hd)
  refine hfold _ s ?_
  intro id hid d hd
  obtain ⟨e, he, rfl⟩ := List.mem_map.mp hid
  obtain ⟨hmem, hle⟩ := List.mem_filter.mp he
  have hsome : s.departed[e.1]? = some e.2 := (BTreeMap.mem_toList _ _ _).mp hmem
  rw [hd] at hsome
  cases hsome
  simpa using hle

theorem keeps_prune_tombstones (s : Swim) :
    Keeps cfg now (fun _ _ => False) s (s.prune_tombstones now) := by
  unfold prune_tombstones
  refine Keeps.trans ?_ (keeps_confirm_departed _)
  have hdepart : ∀ (gone : List (NodeId × Member)) (s : Swim), Keeps cfg now (fun _ _ => False) s
      (gone.foldl (fun s e => s.depart now e.1 e.2) s) :=
    chain_foldl .refl .trans (fun s e => keeps_depart s e.1 e.2)
  have hgreet : ∀ (gone : List (NodeId × Member)) (s : Swim), Quiet s
      (gone.foldl (fun s e => s.push (s.greet e.2.addr [])) s) :=
    fun gone => .foldl gone (fun s e => quiet_push_greet s s e.2.addr [])
  have hretain : Calm s { s with members := s.members.filter (fun _ m => !expired now m) } :=
    ⟨rfl, rfl, rfl, fun h => h⟩
  split
  · exact (hretain.keeps.trans (hdepart _ _)).trans (hgreet _ _).toCalm.keeps
  · exact hretain.keeps.trans (hdepart _ _)

theorem keeps_tick (s : Swim) : Keeps cfg now (fun _ _ => False) { s with out := [] } (s.tick now) := by
  unfold tick
  dsimp only
  have hpruned := @keeps_prune_tombstones cfg now { s with out := [] }
  generalize prune_tombstones { s with out := [] } now = pruned at hpruned ⊢
  have hboot : Quiet pruned (if pruned.bootstrapped then pruned else pruned.bootstrap now) :=
    .ite (.refl pruned) (quiet_bootstrap pruned now)
  generalize (if pruned.bootstrapped then pruned else pruned.bootstrap now) = booted at hboot ⊢
  have htimed : Keeps cfg now (fun _ _ => False) booted
      ((booted.advance_probe now).expire_suspects now) :=
    (keeps_advance_probe booted).trans (keeps_expire_suspects _)
  generalize (booted.advance_probe now).expire_suspects now = timed at htimed ⊢
  have hstart : Quiet timed (timed.start_probe now).greet_unacquainted_seeds :=
    (quiet_start_probe timed now).trans (quiet_greet_seeds _ _)
  refine hpruned.trans (hboot.toCalm.keeps.trans (htimed.trans ?_))
  split
  · refine hstart.toCalm.keeps.trans (Calm.keeps ?_)
    exact ⟨rfl, rfl, rfl, fun h => h⟩
  · exact .refl timed

end Swim

/-! ## Datagrams -/

namespace Swim

variable {cfg : Config} {now : Nat} {aside : NodeId → Nat → Prop}

/-- The departure of the life that spoke is set aside. -/
def Spoken (msg : Message) (id : NodeId) (life : Nat) : Prop :=
  id = msg.sender ∧ life = msg.from_generation

/-- A datagram of a life that has no entry takes its departure out of the table. -/
theorem sound_header {s : Swim} {msg : Message} (hs : Sound cfg now (Spoken msg) s)
    (hlocal : msg.sender ≠ s.local_id) (hnone : s.members[msg.sender]? = none) :
    Sound cfg now (fun _ _ => False) (s.apply_update_from (header_claim msg) now .FirstHand) := by
  have hnone : (s.note (.Heard msg.sender msg.from_generation)).members[msg.sender]? = none := hnone
  have hnoted : Sound cfg now (Spoken msg) (s.note (.Heard msg.sender msg.from_generation)) :=
    keeps_note (by simp) hs
  have hagain : Sound cfg now (Spoken msg)
      ((s.note (.Heard msg.sender msg.from_generation)).heard_again (header_claim msg) now) :=
    keeps_heard_again ⟨s.history, rfl⟩ hnoted
  unfold apply_update_from
  rw [if_neg (show ¬ (header_claim msg).id = s.local_id from hlocal)]
  simp only [show (header_claim msg).id = msg.sender from rfl,
    show (header_claim msg).generation = msg.from_generation from rfl, hnone]
  refine (quiet_relay _ _).toCalm.keeps ((calm_learn _ _ now).keeps ?_)
  refine ⟨hagain.same, ?_, hagain.told⟩
  intro id d hd _
  refine hagain.waiting id d hd ?_
  rintro ⟨rfl, hlife⟩
  -- the claim of the header is of this life and says `Alive`
  unfold heard_again at hd
  have hdep : (s.note (.Heard msg.sender msg.from_generation)).departed = s.departed := rfl
  simp only [show (header_claim msg).id = msg.sender from rfl,
    show (header_claim msg).generation = msg.from_generation from rfl,
    show (header_claim msg).state = .Alive from rfl, hdep, and_true] at hd
  cases hold : s.departed[msg.sender]? with
  | none =>
    simp only [hold, hdep] at hd
    cases hd
  | some d0 =>
    simp only [hold] at hd
    split at hd
    · simp [note, push] at hd
    · split at hd
      · simp at hd
      · next hne =>
        simp only [hdep, hold, Option.some.injEq] at hd
        exact hne (hd ▸ hlife).symm

theorem keeps_meet_known {s : Swim} {msg : Message} {m : Member}
    (hm : s.members[msg.sender]? = some m) : Keeps cfg now aside s (s.meet_sender msg now) := by
  unfold meet_sender
  simp only [hm]
  have haddr : Calm s (if m.addr ≠ msg.from_addr ∧ unroutable msg.from_addr = false then
      s.putMember msg.sender { m with addr := msg.from_addr } else s) := by
    split
    · exact calm_put s _ _
    · exact .refl s
  split
  · exact haddr.keeps.trans (keeps_apply_update_from _ _ _)
  · exact haddr.keeps

theorem sound_handle {s : Swim} (hs : Sound cfg now (fun _ _ => False) { s with out := [] })
    (msg : Message) : Sound cfg now (fun _ _ => False) (s.handle msg now) := by
  unfold handle
  dsimp only
  split
  · exact hs
  · next hlocal =>
    have hgossip : ∀ s' : Swim, Keeps cfg now (fun _ _ => False) s' (s'.merge_gossip msg now) :=
      chain_foldl .refl .trans (fun s u => keeps_apply_update_from s u _) msg.gossip
    refine (mild_answer _ msg now).toCalm.keeps (hgossip _ ?_)
    cases hm : s.members[msg.sender]? with
    | some m =>
      refine keeps_meet_known (m := m) hm (keeps_note ?_ hs)
      simp
    | none =>
      have hspoke : Sound cfg now (Spoken msg)
          (note { s with out := [] } (.Spoke msg.sender msg.from_generation false)) := by
        refine keeps_note ?_ ⟨hs.same, fun id d hd _ => hs.waiting id d hd (fun h => h), hs.told⟩
        rintro id d - haside heq
        obtain ⟨hid, hlife, -⟩ := Mark.Spoke.inj heq
        exact haside ⟨hid.symm, hlife.symm⟩
      unfold meet_sender
      have hnone : (note { s with out := [] }
          (.Spoke msg.sender msg.from_generation false)).members[msg.sender]? = none := hm
      simp only [Option.isSome_none, hnone]
      exact sound_header hspoke hlocal hm

end Swim

/-! ## Runs -/

namespace Swim

/-- Between calls every departure goes back to its prune. -/
structure Parted (cfg : Config) (s : Swim) : Prop where
  same : s.cfg = cfg
  waiting : ∀ (id : NodeId) d, s.departed[id]? = some d → Awaits cfg id d s.history

theorem Parted.sound {cfg : Config} {s : Swim} (h : Parted cfg s) (now : Nat) :
    Sound cfg now (fun _ _ => False) { s with out := [] } := by
  refine ⟨h.same, fun id d hd _ => h.waiting id d hd, ?_⟩
  intro id addr peer_addr hgone
  simp at hgone

theorem sound_call {cfg : Config} {s : Swim} (h : Parted cfg s) (now : Nat) (c : Call) :
    Sound cfg now (fun _ _ => False) (s.call now c) := by
  cases c with
  | Handle msg => exact sound_handle (h.sound now) msg
  | Tick => exact keeps_tick s (h.sound now)

theorem parted_run {cfg : Config} {s : Swim} (h : Parted cfg s) (calls : List (Nat × Call)) :
    Parted cfg (s.run calls) := by
  induction calls generalizing s with
  | nil => exact h
  | cons c calls ih =>
    have hcall := sound_call h c.1 c.2
    exact ih ⟨hcall.same, fun id d hd => hcall.waiting id d hd (fun h => h)⟩

theorem parted_new (local_id : NodeId) (local_addr local_peer_addr : String)
    (local_domain : Option String) (generation : Nat) (cfg : Config) (seeds : List String) :
    Parted cfg (new local_id local_addr local_peer_addr local_domain generation cfg seeds) := by
  refine ⟨rfl, ?_⟩
  intro id d hd
  simp [new] at hd

/-- In every run, a `Gone` that a call raises is about a life of that node of which a later
one was just heard, or which was pruned and whose wait has run out: the ack timeout after
a greeting, none where there was no greeting. Since the prune no datagram of that life has
come in while the node had no entry. -/
theorem gone_only_after_silence (local_id : NodeId) (local_addr local_peer_addr : String)
    (local_domain : Option String) (generation : Nat) (cfg : Config) (seeds : List String)
    (calls : List (Nat × Call)) (now : Nat) (c : Call) (id : NodeId) (addr peer_addr : String) :
    let s := (new local_id local_addr local_peer_addr local_domain generation cfg seeds).run calls
    .Gone id addr peer_addr ∈ (s.call now c).out →
      ∃ life later earlier, (s.call now c).history = later ++ .Gone id life now :: earlier ∧
        (Replaced id life earlier ∨ Waited cfg id life now earlier) := by
  intro s hgone
  have hparted : Parted cfg s := parted_run (parted_new _ _ _ _ _ _ _) calls
  exact (sound_call hparted now c).told id addr peer_addr hgone

/-- A claim about the first life of `b`. -/
def aboutB (addr : String) (incarnation : Nat) (state : MemberState) : Update :=
  { id := "b", addr, incarnation, generation := 1, state }

/-- A datagram of the first life of `b` or of `c`, with one claim about `b`. -/
def aboutBFrom (sender addr : String) (u : Update) : Call :=
  .Handle { sender, from_addr := addr, from_generation := 1, kind := .Sync, gossip := [u] }

/-- Node `a` hears from `b` that it is alive, and then that it is dead. -/
def untilPruned (addr : String) : List (Nat × Call) :=
  [(0, .Tick), (0, aboutBFrom "b" addr (aboutB addr 1 .Alive)),
    (0, aboutBFrom "b" addr (aboutB addr 1 .Dead))]

/-- After the prune a rumour brings `b` back, and then `b` says that it is alive. -/
def afterPrune (addr : String) : List (Nat × Call) :=
  [(30000, .Tick), (30001, aboutBFrom "c" "10.0.0.3:1" (aboutB addr 1 .Suspect)),
    (30002, aboutBFrom "b" addr (aboutB addr 2 .Alive))]

def nodeA : Swim := new "a" "10.0.0.1:1" "" none 7 {} []

theorem gone_only_after_silence_of_b :
    let s := nodeA.run (untilPruned "10.0.0.2:1" ++ [(30000, .Tick)])
    Action.Gone "b" "10.0.0.2:1" "" ∈ (s.call 30250 .Tick).out ∧
      ∃ life later earlier,
        (s.call 30250 .Tick).history = later ++ .Gone "b" life 30250 :: earlier ∧
          (Replaced "b" life earlier ∨ Waited {} "b" life 30250 earlier) := by
  intro s
  have hgone : Action.Gone "b" "10.0.0.2:1" "" ∈ (s.call 30250 .Tick).out := by decide +kernel
  have hreason := gone_only_after_silence "a" "10.0.0.1:1" "" none 7 {} []
    (untilPruned "10.0.0.2:1" ++ [(30000, .Tick)]) 30250 .Tick "b" "10.0.0.2:1" ""
  exact ⟨hgone, hreason hgone⟩

/-- A member at an address that nobody can dial is reported gone in the tick that prunes
it, with no greeting; and a member that was pruned, came back in a rumour and then said
itself that it is alive is reported gone while it is held `Alive`. -/
theorem gone_without_greeting_and_gone_while_alive :
    let pruned := (nodeA.run (untilPruned "0.0.0.0:1")).call 30000 .Tick
    let alive := (nodeA.run (untilPruned "10.0.0.2:1" ++ afterPrune "10.0.0.2:1")).call 30250 .Tick
    (Action.Gone "b" "0.0.0.0:1" "" ∈ pruned.out ∧
      pruned.history.take 2 = [.Gone "b" 1 30000, .Pruned "b" 1 30000 false]) ∧
    (Action.Gone "b" "10.0.0.2:1" "" ∈ alive.out ∧
      alive.members["b"]?.map (fun m => (m.generation, m.state)) = some (1, .Alive)) := by
  refine ⟨?_, ?_⟩
  · decide +kernel
  · decide +kernel

end Swim

end mqtt_cluster.swim
