-- What an acknowledgement of the bridge stands for. A forward at QoS 1 of an acknowledged
-- message is in its destination's spool, on its channel, being written, or written to the
-- destination, if it was not in hand when a write failed; it is never shed. Its destination
-- need not have acknowledged it.
import MqttBroker.Bridge.Engine

namespace mqtt_bridge

open mqtt_core mqtt_codec

/-! ## What a side has of a forward -/

/-- The command is the publish of forward `o` with the message, as it was or as its record
gave it back. -/
def Command.Carries (c : Command) (o : Origin) (m : SpooledMessage) : Prop :=
  c = m.command (some o) ∨ c = (cut m).command (some o)

/-- The publish as the run loop writes it, under a packet identifier. -/
def Command.withId (c : Command) (pkid : UInt16) : Command :=
  match c with
  | .Publish topic payload qos retain _ properties origin =>
    .Publish topic payload qos retain (some pkid) properties origin
  | c => c

namespace SideState

/-- The forward was written whole on a connection: its broker has acknowledged it or may still
do so, or had not when the connection ended. -/
def Sent (d : SideState) (o : Origin) : Prop :=
  (∃ pkid, (pkid, some o) ∈ d.outstanding) ∨ some o ∈ d.acked ∨ some o ∈ d.unanswered

/-- Where a forward is that a side has taken. -/
inductive InHand (d : SideState) (o : Origin) (m : SpooledMessage) : Prop
  | spooled (h : d.spool.Holds o m)
  | onChannel (c : Command) (hc : c ∈ d.commands) (h : c.Carries o m)
  | writing (c : Command) (pkid next : UInt16)
      (hp : d.phase = .Running next (some (c.withId pkid))) (h : c.Carries o m)
  | sent (h : d.Sent o)
  | torn (c : Command) (pkid : UInt16) (hc : c.withId pkid ∈ d.torn) (h : c.Carries o m)

/-- The spool refuses at its bounds, and its next key is free. -/
structure Solid (d : SideState) : Prop where
  refuses : d.spool.overflow = .Refuse
  fresh : d.spool.Fresh

/-- The side loses none of the forwards at QoS 1 that it has in hand. -/
structure Keeps (d d' : SideState) : Prop where
  solid : d.Solid → d'.Solid
  in_hand : d.Solid → ∀ o m, m.qos = 1 → d.InHand o m → d'.InHand o m

variable {d d' : SideState}

/-- A step that leaves the spool, what is being written and what went wrong. -/
theorem keeps_of (hspool : d'.spool = d.spool) (hcommands : ∀ c ∈ d.commands, c ∈ d'.commands)
    (hphase : ∀ next c, d.phase = .Running next (some c) → d'.phase = .Running next (some c))
    (hsent : ∀ o, d.Sent o → d'.Sent o) (htorn : d'.torn = d.torn) : Keeps d d' where
  solid hs := ⟨hspool ▸ hs.refuses, hspool ▸ hs.fresh⟩
  in_hand _ o m _ h := by
    cases h with
    | spooled h => exact .spooled (hspool ▸ h)
    | onChannel c hc h => exact .onChannel c (hcommands c hc) h
    | writing c pkid next hp h => exact .writing c pkid next (hphase _ _ hp) h
    | sent h => exact .sent (hsent o h)
    | torn c pkid hc h => exact .torn c pkid (htorn ▸ hc) h

theorem Keeps.refl (d : SideState) : Keeps d d :=
  keeps_of rfl (fun _ hc => hc) (fun _ _ hp => hp) (fun _ h => h) rfl

theorem Keeps.trans {d'' : SideState} (h : Keeps d d') (h' : Keeps d' d'') : Keeps d d'' where
  solid hs := h'.solid (h.solid hs)
  in_hand hs o m hq hm := h'.in_hand (h.solid hs) o m hq (h.in_hand hs o m hq hm)

/-- A step between two writes. -/
theorem keeps_idle (hidle : ∀ next c, d.phase ≠ .Running next (some c))
    (hspool : d'.spool = d.spool) (hcommands : ∀ c ∈ d.commands, c ∈ d'.commands)
    (hsent : ∀ o, d.Sent o → d'.Sent o) (htorn : d'.torn = d.torn) : Keeps d d' :=
  keeps_of hspool hcommands (fun next c hp => absurd hp (hidle next c)) hsent htorn

/-- What leaves the spool on a connect is on the channel. -/
theorem keeps_open (fault : Option DiskFault) (skipped : List Nat) :
    Keeps d (d.openHandoff fault skipped) where
  solid hs := ⟨(Spool.drain_overflow skipped).trans hs.refuses, Spool.drain_fresh skipped hs.fresh⟩
  in_hand _ o m _ h := by
    cases h with
    | spooled h =>
      rcases @Spool.drain_keeps _ fault _ _ skipped h with h | ⟨out, hout, h⟩
      · exact .spooled h
      · have hreplay : (d.openHandoff fault skipped).commands =
            d.commands ++ out.map (fun e => e.1.command e.2) := by
          simp only [openHandoff, hout]
        have hon : ∀ e ∈ out, e.1.command e.2 ∈ (d.openHandoff fault skipped).commands := by
          intro e he
          rw [hreplay]
          exact List.mem_append_right _ (List.mem_map_of_mem he)
        rcases h with h | h
        · exact .onChannel _ (hon _ h) (.inl rfl)
        · exact .onChannel _ (hon _ h) (.inr rfl)
    | onChannel c hc h => exact .onChannel c (List.mem_append_left _ hc) h
    | writing c pkid next hp h => exact .writing c pkid next hp h
    | sent h => exact .sent h
    | torn c pkid hc h => exact .torn c pkid hc h

theorem keeps_forward (fault : Option DiskFault) (cmd : Command) (msg : SpooledMessage)
    (o : Option Origin) : Keeps d (d.forward fault cmd msg o).2 := by
  unfold forward
  split
  · exact keeps_of rfl (fun c hc => List.mem_append_left _ hc) (fun _ _ hp => hp) (fun _ h => h) rfl
  · constructor
    · exact fun hs => ⟨Spool.push_overflow hs.refuses, Spool.push_fresh hs.refuses hs.fresh⟩
    · intro hs o' m _ h
      cases h with
      | spooled h => exact .spooled (Spool.push_keeps hs.refuses hs.fresh h)
      | onChannel c hc h => exact .onChannel c hc h
      | writing c pkid next hp h => exact .writing c pkid next hp h
      | sent h => exact .sent h
      | torn c pkid hc h => exact .torn c pkid hc h

theorem in_hand_forward (hs : d.Solid) {fault : Option DiskFault} {msg : SpooledMessage}
    {o : Origin}
    (h : (d.forward fault (msg.command (some o)) msg (some o)).1 = .ok ()) :
    (d.forward fault (msg.command (some o)) msg (some o)).2.InHand o msg := by
  unfold forward at *
  split
  · exact .onChannel _ (List.mem_append_right _ (List.mem_singleton_self _)) (.inl rfl)
  · next hc =>
    rw [if_neg hc] at h
    exact .spooled (Spool.push_holds hs.refuses h)

theorem recv_command {m : SpooledMessage} (hq : m.qos = 1) {o : Option Origin}
    {rest : List Command} (hcommands : d.commands = m.command o :: rest) (h : d.recv = some d') :
    ∃ pkid next, d'.phase = .Running next (some ((m.command o).withId pkid)) := by
  unfold recv at h
  rw [hcommands] at h
  split at h
  · next next_pkid cmd rest' hphase hcons =>
    obtain ⟨rfl, rfl⟩ := List.cons.inj hcons
    have hassign : assign (qos_from_u8 m.qos) none next_pkid =
        (some (max (next_pkid + 1) 1), max (next_pkid + 1) 1) := by
      rw [hq]
      rfl
    simp only [SpooledMessage.command, hassign, Option.some.injEq] at h
    exact ⟨max (next_pkid + 1) 1, max (next_pkid + 1) 1, by rw [← h]; rfl⟩
  · cases h

/-- A forward at QoS 1 that the run loop takes is written under an identifier. -/
theorem recv_carries {c : Command} {o : Origin} {m : SpooledMessage} (hc : c.Carries o m)
    (hq : m.qos = 1) {rest : List Command} (hcommands : d.commands = c :: rest)
    (h : d.recv = some d') : ∃ pkid next, d'.phase = .Running next (some (c.withId pkid)) := by
  rcases hc with rfl | rfl
  · exact recv_command hq hcommands h
  · exact recv_command (m := cut m) hq hcommands h

theorem keeps_recv (h : d.recv = some d') : Keeps d d' := by
  have hmoved : (∀ next c, d.phase ≠ .Running next (some c)) ∧ d'.spool = d.spool ∧
      (∀ o, d.Sent o → d'.Sent o) ∧ d'.torn = d.torn ∧ ∃ cmd, d.commands = cmd :: d'.commands := by
    unfold recv at h
    split at h
    · next next_pkid cmd rest hphase hcommands =>
      refine ⟨fun next c hp => by simp [hphase] at hp, ?_⟩
      cases cmd <;> cases h <;> exact ⟨rfl, fun _ h => h, rfl, _, hcommands⟩
    · cases h
  obtain ⟨hidle, hspool, hsent, htorn, cmd, hcommands⟩ := hmoved
  constructor
  · exact fun hs => ⟨hspool ▸ hs.refuses, hspool ▸ hs.fresh⟩
  · intro _ o m hq hm
    cases hm with
    | spooled hm => exact .spooled (hspool ▸ hm)
    | onChannel c hc hm =>
      rw [hcommands] at hc
      rcases List.mem_cons.mp hc with rfl | hc
      · obtain ⟨pkid, next, hp⟩ := recv_carries hm hq hcommands h
        exact .writing c pkid next hp hm
      · exact .onChannel c hc hm
    | writing c pkid next hp hm => exact absurd hp (hidle _ _)
    | sent hm => exact .sent (hsent o hm)
    | torn c pkid hc hm => exact .torn c pkid (htorn ▸ hc) hm

theorem written_carries {c : Command} {o : Origin} {m : SpooledMessage} (hc : c.Carries o m)
    {pkid next : UInt16} (hp : d.phase = .Running next (some (c.withId pkid))) {ok : Bool}
    (h : d.written ok = some d') : d'.Sent o ∨ c.withId pkid ∈ d'.torn := by
  unfold written at h
  rw [hp] at h
  cases ok with
  | false =>
    cases h
    exact .inr (List.mem_append_right _ (List.mem_singleton_self _))
  | true =>
    refine .inl (.inl ⟨pkid, ?_⟩)
    rcases hc with rfl | rfl <;> cases h <;>
      exact List.mem_append_right _ (List.mem_singleton_self _)

theorem keeps_written {ok : Bool} (h : d.written ok = some d') : Keeps d d' := by
  have hmoved : d'.spool = d.spool ∧ d'.commands = d.commands ∧ (∀ o, d.Sent o → d'.Sent o) ∧
      ∀ c ∈ d.torn, c ∈ d'.torn := by
    have hmore : ∀ (o : Origin) (e : UInt16 × Option Origin) (d : SideState), d.Sent o →
        ({ d with outstanding := d.outstanding ++ [e] } : SideState).Sent o := by
      rintro o e d (⟨pkid, ho⟩ | ho)
      · exact .inl ⟨pkid, List.mem_append_left _ ho⟩
      · exact .inr ho
    unfold written at h
    split at h
    · split at h
      · dsimp only at h
        split at h <;> cases h
        · exact ⟨rfl, rfl, fun _ h => h, fun _ hc => hc⟩
        · exact ⟨rfl, rfl, fun o => hmore o _ _, fun _ hc => hc⟩
        · exact ⟨rfl, rfl, fun _ h => h, fun _ hc => hc⟩
      · cases h
        exact ⟨rfl, rfl, fun _ h => h, fun _ hc => List.mem_append_left _ hc⟩
    · cases h
  obtain ⟨hspool, hcommands, hsent, htorn⟩ := hmoved
  constructor
  · exact fun hs => ⟨hspool ▸ hs.refuses, hspool ▸ hs.fresh⟩
  · intro _ o m _ hm
    cases hm with
    | spooled hm => exact .spooled (hspool ▸ hm)
    | onChannel c hc hm => exact .onChannel c (hcommands ▸ hc) hm
    | writing c pkid next hp hm =>
      rcases written_carries hm hp h with hm' | hc
      · exact .sent hm'
      · exact .torn c pkid hc hm
    | sent hm => exact .sent (hsent o hm)
    | torn c pkid hc hm => exact .torn c pkid (htorn _ hc) hm

theorem keeps_read {p : Packet} (h : d.read p = some d') : Keeps d d' := by
  unfold read at h
  split at h
  · next next_pkid hphase =>
    have hidle : ∀ next c, d.phase ≠ .Running next (some c) := by
      intro next c hp
      simp [hphase] at hp
    split at h
    · cases h
      exact keeps_idle hidle rfl (fun _ hc => hc) (fun _ h => h) rfl
    · next a =>
      cases h
      refine keeps_idle hidle rfl (fun _ hc => hc) ?_ rfl
      rintro o (⟨pkid, ho⟩ | ho | ho)
      · by_cases hid : pkid = a.pkid
        · exact .inr (.inl (List.mem_append_right _
            (List.mem_map_of_mem (List.mem_filter.mpr ⟨ho, by simpa using hid⟩))))
        · exact .inl ⟨pkid, List.mem_filter.mpr ⟨ho, by simpa using hid⟩⟩
      · exact .inr (.inl (List.mem_append_left _ ho))
      · exact .inr (.inr ho)
    · cases h
      exact Keeps.refl d
  · cases h

theorem keeps_lost (h : d.lost = some d') : Keeps d d' := by
  unfold lost at h
  split at h
  · next hphase =>
    cases h
    exact keeps_idle (by simp [hphase]) rfl (fun _ hc => hc) (fun _ h => h) rfl
  · cases h

theorem keeps_connect {subs : List (String × UInt8)} (h : d.connect subs = some d') :
    Keeps d d' := by
  unfold connect at h
  split at h
  · next hphase =>
    cases h
    refine keeps_idle (by simp [hphase]) rfl (fun _ hc => hc) ?_ rfl
    rintro o (⟨pkid, ho⟩ | ho | ho)
    · exact .inr (.inr (List.mem_append_right _ (List.mem_map_of_mem ho)))
    · exact .inr (.inl ho)
    · exact .inr (.inr (List.mem_append_left _ ho))
  · cases h

theorem keeps_subscribe (h : d.subscribe = some d') : Keeps d d' := by
  unfold subscribe at h
  split at h
  · next hphase =>
    cases h
    exact keeps_idle (by simp [hphase]) rfl (fun c hc => List.mem_append_left _ hc)
      (fun _ h => h) rfl
  · cases h

theorem keeps_begin_run {fault : Option DiskFault} {skipped : List Nat}
    (h : d.begin_run fault skipped = some d') : Keeps d d' := by
  unfold begin_run at h
  split at h
  · next hphase =>
    cases h
    refine (keeps_open fault skipped).trans ?_
    exact keeps_idle (by simp [openHandoff, hphase]) rfl (fun _ hc => hc) (fun _ h => h) rfl
  · cases h

theorem keeps_end_run (h : d.end_run = some d') : Keeps d d' := by
  unfold end_run at h
  split at h
  · next hphase =>
    cases h
    exact keeps_idle (by simp [hphase]) rfl (fun _ hc => hc) (fun _ h => h) rfl
  · cases h

end SideState

/-! ## What the bridge has of its messages -/

theorem live_eq_command (p : Publish) (f : Forward) (o : Option Origin) :
    live p f o = (spooled p f).command o := by
  have hback : ∀ props : Properties, (∀ q ∈ props, ∃ k v, q = Property.UserProperty k v) →
      (props.filterMap user_property).map
        (fun e : String × String => Property.UserProperty e.1 e.2) = props := by
    intro props
    induction props with
    | nil => simp
    | cons q props ih =>
      intro h
      obtain ⟨k, v, rfl⟩ := h q List.mem_cons_self
      simp [user_property, ih (fun q hq => h q (List.mem_cons_of_mem _ hq))]
  have hprops := hback (forward_properties p) (set_hop_count_user _ _)
  simp only [live, spooled, SpooledMessage.command, hprops]

namespace State

/-- The first `count` forwards of message `n` are in hand, those of them at QoS 1. -/
def InHand (s : State) (n : Nat) (side : Side) (p : Publish) (count : Nat) : Prop :=
  ∀ i < count, ∀ f, (planned s.cfg side p)[i]? = some f → f.qos = 1 →
    (s.sides f.dest).InHand (n, i) (spooled p f)

/-- The invariant of the bridge: its spools refuse where a rule needs that, and every forward
that the router is through with, of a message that no side refused, is in hand. -/
structure Sound (s : State) : Prop where
  solid : s.cfg.requires_durable_spool = true → ∀ side, exists_side s.cfg side = true →
    (s.sides side).Solid
  acknowledged : ∀ n ∈ s.acknowledged, ∃ side p, s.routed[n]? = some (side, p) ∧
    p.qos = .AtLeastOnce ∧ s.InHand n side p (planned s.cfg side p).length
  routing : ∀ r, s.routing = some r → s.routed[r.message]? = some (r.side, r.publish) ∧
    r.left = (planned s.cfg r.side r.publish).drop r.next ∧
    (r.durably_accepted = true → s.InHand r.message r.side r.publish r.next)

variable {s s' : State}

variable {side : Side} {p : Publish}

theorem Sound.solid_planned {i : Nat} {f : Forward} (hs : s.Sound)
    (hf : (planned s.cfg side p)[i]? = some f) (hq : f.qos = 1) : (s.sides f.dest).Solid := by
  have hmem := List.mem_of_getElem? hf
  refine hs.solid (durable_of_planned hmem hq) f.dest ?_
  rcases planned_side hmem with hd | ⟨i, hi, hd⟩
  · simp [hd, exists_side]
  · simp [hd, exists_side, hi]

theorem InHand.keep {n count : Nat} (hs : s.Sound) (hcfg : s'.cfg = s.cfg)
    (hk : ∀ x, (s.sides x).Keeps (s'.sides x)) (h : s.InHand n side p count) :
    s'.InHand n side p count := by
  intro i hi f hf hq
  rw [hcfg] at hf
  exact (hk f.dest).in_hand (hs.solid_planned hf hq) _ _ hq (h i hi f hf hq)

theorem Sound.solid_keep (hs : s.Sound) (hcfg : s'.cfg = s.cfg)
    (hk : ∀ x, (s.sides x).Keeps (s'.sides x)) :
    s'.cfg.requires_durable_spool = true → ∀ side, exists_side s'.cfg side = true →
      (s'.sides side).Solid := by
  rw [hcfg]
  exact fun h side hside => (hk side).solid (hs.solid h side hside)

theorem Sound.acknowledged_keep (hs : s.Sound) (hcfg : s'.cfg = s.cfg)
    (hk : ∀ x, (s.sides x).Keeps (s'.sides x)) (hrouted : ∃ more, s'.routed = s.routed ++ more) :
    ∀ n ∈ s.acknowledged, ∃ side p, s'.routed[n]? = some (side, p) ∧
      p.qos = .AtLeastOnce ∧ s'.InHand n side p (planned s'.cfg side p).length := by
  intro n hn
  obtain ⟨side, p, hp, hq, hin⟩ := hs.acknowledged n hn
  obtain ⟨more, hmore⟩ := hrouted
  refine ⟨side, p, ?_, hq, ?_⟩
  · have hlt : n < s.routed.length := (List.getElem?_eq_some_iff.mp hp).1
    rw [hmore, List.getElem?_append_left hlt]
    exact hp
  · rw [hcfg]
    exact hin.keep hs hcfg hk

variable {d : SideState}

theorem keeps_update (h : (s.sides side).Keeps d) (x : Side) :
    (s.sides x).Keeps (Function.update s.sides side d x) := by
  by_cases hx : x = side
  · subst hx
    simpa using h
  · rw [Function.update_of_ne hx]
    exact SideState.Keeps.refl _

/-- A step that leaves the router and its messages. -/
theorem Sound.of_sides (hs : s.Sound) (hcfg : s'.cfg = s.cfg)
    (hk : ∀ x, (s.sides x).Keeps (s'.sides x)) (hrouted : s'.routed = s.routed)
    (hrouting : s'.routing = s.routing) (hack : s'.acknowledged = s.acknowledged) : s'.Sound where
  solid := hs.solid_keep hcfg hk
  acknowledged := by
    rw [hack]
    exact hs.acknowledged_keep hcfg hk ⟨[], by simp [hrouted]⟩
  routing r hr := by
    rw [hrouting] at hr
    obtain ⟨hp, hleft, hin⟩ := hs.routing r hr
    rw [hrouted, hcfg]
    exact ⟨hp, hleft, fun hd => (hin hd).keep hs hcfg hk⟩

theorem sound_onSide {f : SideState → Option SideState} (hf : ∀ d d', f d = some d' → d.Keeps d')
    (hs : s.Sound) (h : s.onSide side f = some s') : s'.Sound := by
  unfold onSide at h
  split at h
  · split at h
    · next d hd =>
      cases h
      exact hs.of_sides rfl (keeps_update (hf _ _ hd)) rfl rfl rfl
    · cases h
  · cases h

theorem sound_tag (hs : s.Sound) (h : s.tag side = some s') : s'.Sound := by
  unfold tag at h
  split at h
  · cases h
    refine hs.of_sides rfl (keeps_update ?_) rfl rfl rfl
    exact SideState.keeps_of rfl (fun _ hc => hc) (fun _ _ hp => hp) (fun _ h => h) rfl
  · cases h

theorem sound_take (hs : s.Sound) (h : s.take = some s') : s'.Sound := by
  have hsame : ∀ x, (s.sides x).Keeps (s.sides x) := fun x => SideState.Keeps.refl _
  unfold take at h
  split at h
  · next side p rest hrouting hinbound =>
    split at h
    · cases h
      exact hs.of_sides rfl hsame rfl rfl rfl
    · cases h
      refine ⟨hs.solid, hs.acknowledged_keep rfl hsame ⟨_, rfl⟩, ?_⟩
      rintro r hr
      cases hr
      refine ⟨by simp, by simp, fun _ i hi => ?_⟩
      exact absurd hi (Nat.not_lt_zero i)
  · cases h

variable {r : Routing} {fault : Option DiskFault}

theorem in_hand_next {f : Forward} {left : List Forward} {accepted : Except SpoolError Unit}
    (hs : s.Sound) (hr : s.routing = some r) (hleft : r.left = f :: left)
    (hd : (s.sides f.dest).forward fault (live r.publish f (some (r.message, r.next)))
      (spooled r.publish f) (some (r.message, r.next)) = (accepted, d))
    (haccepted : r.durably_accepted = true) (hok : accepted = .ok ())
    (hsides : s'.sides = Function.update s.sides f.dest d) (hcfg : s'.cfg = s.cfg) :
    s'.InHand r.message r.side r.publish (r.next + 1) := by
  obtain ⟨_, hdrop, hin⟩ := hs.routing r hr
  have hkeeps : ∀ x, (s.sides x).Keeps (s'.sides x) := by
    rw [hsides]
    refine keeps_update ?_
    have hk := SideState.keeps_forward (d := s.sides f.dest) fault
      (live r.publish f (some (r.message, r.next))) (spooled r.publish f)
      (some (r.message, r.next))
    rwa [hd] at hk
  have hf : (planned s.cfg r.side r.publish)[r.next]? = some f := by
    rw [hleft] at hdrop
    rw [← List.head?_drop, ← hdrop]
    rfl
  intro i hi g hg hq
  rcases Nat.lt_succ_iff_lt_or_eq.mp hi with hi | rfl
  · exact (hin haccepted).keep hs hcfg hkeeps i hi g hg hq
  · rw [hcfg, hf] at hg
    cases hg
    have hsolid := hs.solid_planned hf hq
    rw [live_eq_command] at hd
    have hhand := @SideState.in_hand_forward _ hsolid fault (spooled r.publish f)
      (r.message, r.next) (by rw [hd]; exact hok)
    rw [hd] at hhand
    rw [hsides, Function.update_self]
    exact hhand

theorem sound_forward (hs : s.Sound) (h : s.forward fault = some s') : s'.Sound := by
  unfold forward at h
  split at h
  · next r hr =>
    split at h
    · next f left hleft =>
      rcases hd : (s.sides f.dest).forward fault (live r.publish f (some (r.message, r.next)))
        (spooled r.publish f) (some (r.message, r.next)) with ⟨accepted, d⟩
      simp only [hd, Option.some.injEq] at h
      have hkeeps : (s.sides f.dest).Keeps d := by
        have hk := SideState.keeps_forward (d := s.sides f.dest) fault
          (live r.publish f (some (r.message, r.next))) (spooled r.publish f)
          (some (r.message, r.next))
        rwa [hd] at hk
      obtain ⟨hp, hdrop, hin⟩ := hs.routing r hr
      have hall : ∀ x, (s.sides x).Keeps (s'.sides x) := by
        rw [← h]
        exact keeps_update hkeeps
      have hcfg : s'.cfg = s.cfg := by rw [← h]
      refine ⟨hs.solid_keep hcfg hall, ?_, ?_⟩
      · rw [← h]
        rw [← h] at hall
        exact hs.acknowledged_keep rfl hall ⟨[], by simp⟩
      · intro r' hr'
        have hrr : ({ r with
            left := left, next := r.next + 1
            durably_accepted := r.durably_accepted && accepted.toBool } : Routing) = r' := by
          rw [← h] at hr'
          exact Option.some.inj hr'
        rw [← hrr]
        refine ⟨?_, ?_, ?_⟩
        · rw [← h]
          exact hp
        · rw [hcfg, ← List.drop_drop, ← hdrop, hleft]
          rfl
        · intro hacc
          rw [Bool.and_eq_true] at hacc
          have hok : accepted = .ok () := by
            cases accepted with
            | ok u => rfl
            | error e => cases hacc.2
          exact in_hand_next hs hr hleft hd hacc.1 hok (by rw [← h]) hcfg
    · cases h
  · cases h

theorem sound_acknowledge {pkid : UInt16} (hs : s.Sound) (hr : s.routing = some r)
    (hleft : r.left = []) (howed : owed_ack r.publish = some pkid)
    (hacc : r.durably_accepted = true)
    (h : some { s with
      routing := none
      sides := Function.update s.sides r.side { s.sides r.side with
        commands := (s.sides r.side).commands ++ [.Ack pkid r.message] }
      acknowledged := s.acknowledged ++ [r.message] } = some s') : s'.Sound := by
  obtain ⟨hp, hdrop, hin⟩ := hs.routing r hr
  have hs' := Option.some.inj h
  have hcfg : s'.cfg = s.cfg := by rw [← hs']
  have hrouted : s'.routed = s.routed := by rw [← hs']
  have hack : s'.acknowledged = s.acknowledged ++ [r.message] := by rw [← hs']
  have hkeeps : ∀ x, (s.sides x).Keeps (s'.sides x) := by
    rw [← hs']
    refine keeps_update (SideState.keeps_of rfl (fun c hc => ?_) (fun _ _ hp => hp)
      (fun _ h => h) rfl)
    exact List.mem_append_left _ hc
  refine ⟨hs.solid_keep hcfg hkeeps, fun n hn => ?_, fun r' hr' => ?_⟩
  · rw [hack] at hn
    rcases List.mem_append.mp hn with hn | hn
    · exact hs.acknowledged_keep hcfg hkeeps ⟨[], by simp [hrouted]⟩ n hn
    · obtain rfl : n = r.message := by simpa using hn
      refine ⟨r.side, r.publish, by rw [hrouted, hp], ?_, ?_⟩
      · unfold owed_ack at howed
        by_contra hq
        rw [if_neg hq] at howed
        cases howed
      · have hlen : (planned s.cfg r.side r.publish).length ≤ r.next := by
          rw [hleft] at hdrop
          exact List.drop_eq_nil_iff.mp hdrop.symm
        intro i hi
        rw [hcfg] at hi
        exact (hin hacc).keep hs hcfg hkeeps i (Nat.lt_of_lt_of_le hi hlen)
  · rw [← hs'] at hr'
    cases hr'

theorem sound_finish (hs : s.Sound) (h : s.finish = some s') : s'.Sound := by
  unfold finish at h
  split at h
  · next r hr =>
    split at h
    · next hleft =>
      split at h
      · next pkid howed =>
        split at h
        · next hacc => exact sound_acknowledge hs hr hleft howed hacc h
        · cases h
          exact ⟨hs.solid, hs.acknowledged, fun r' hr' => by cases hr'⟩
      · cases h
        exact ⟨hs.solid, hs.acknowledged, fun r' hr' => by cases hr'⟩
    · cases h
  · cases h

variable {e : Event}

theorem sound_step (hs : s.Sound) (h : s.step e = some s') : s'.Sound := by
  cases e with
  | Connect side => exact sound_onSide (fun d d' => SideState.keeps_connect) hs h
  | Subscribe side => exact sound_onSide (fun d d' => SideState.keeps_subscribe) hs h
  | Open side fault skipped => exact sound_onSide (fun d d' => SideState.keeps_begin_run) hs h
  | Recv side => exact sound_onSide (fun d d' => SideState.keeps_recv) hs h
  | Written side ok => exact sound_onSide (fun d d' => SideState.keeps_written) hs h
  | Read side p => exact sound_onSide (fun d d' => SideState.keeps_read) hs h
  | Lost side => exact sound_onSide (fun d d' => SideState.keeps_lost) hs h
  | Close side => exact sound_onSide (fun d d' => SideState.keeps_end_run) hs h
  | Tag side => exact sound_tag hs h
  | Take => exact sound_take hs h
  | Forward fault => exact sound_forward hs h
  | Finish => exact sound_finish hs h

theorem sound_run (es : List Event) (hs : s.Sound) (h : s.run es = some s') : s'.Sound := by
  induction es generalizing s with
  | nil =>
    cases h
    exact hs
  | cons e es ih =>
    unfold run at h
    split at h
    · next t ht => exact ih (sound_step hs ht) h
    · cases h

theorem step_history (h : s.step e = some s') :
    s'.cfg = s.cfg ∧ ∃ more, s'.acknowledged = s.acknowledged ++ more := by
  have hside : ∀ {side : Side} {f : SideState → Option SideState},
      s.onSide side f = some s' →
        s'.cfg = s.cfg ∧ ∃ more, s'.acknowledged = s.acknowledged ++ more := by
    intro side f h
    unfold onSide at h
    split at h
    · split at h
      · cases h
        exact ⟨rfl, [], by simp⟩
      · cases h
    · cases h
  cases e with
  | Tag side =>
    simp only [step, tag] at h
    split at h
    · cases h
      exact ⟨rfl, [], by simp⟩
    · cases h
  | Take =>
    simp only [step, take] at h
    split at h
    · split at h <;> cases h <;> exact ⟨rfl, [], by simp⟩
    · cases h
  | Forward fault =>
    simp only [step, forward] at h
    split at h
    · split at h
      · cases h
        exact ⟨rfl, [], by simp⟩
      · cases h
    · cases h
  | Finish =>
    simp only [step, finish] at h
    split at h
    · split at h
      · split at h
        · split at h
          · cases h
            exact ⟨rfl, _, rfl⟩
          · cases h
            exact ⟨rfl, [], by simp⟩
        · cases h
          exact ⟨rfl, [], by simp⟩
      · cases h
    · cases h
  | _ =>
    simp only [step] at h
    exact hside h

theorem run_history (es : List Event) (h : s.run es = some s') :
    s'.cfg = s.cfg ∧ ∃ more, s'.acknowledged = s.acknowledged ++ more := by
  induction es generalizing s with
  | nil =>
    cases h
    exact ⟨rfl, [], by simp⟩
  | cons e es ih =>
    unfold run at h
    split at h
    · next t ht =>
      obtain ⟨hcfg, more, hmore⟩ := step_history ht
      obtain ⟨hcfg', more', hmore'⟩ := ih h
      exact ⟨hcfg'.trans hcfg, more ++ more', by rw [hmore', hmore, List.append_assoc]⟩
    · cases h

end State

/-! ## The contract -/

/-- The spools that a bridge starts with: what `build_spool` gives for each of its sides. -/
def Built (cfg : BridgeConfig) (files : Side → Option (BTreeMap Nat Wire.Bytes))
    (spools : Side → Spool) : Prop :=
  ∀ side, State.exists_side cfg side = true → build_spool cfg (files side) = some (spools side)

theorem solid_built {cfg : BridgeConfig} {file : Option (BTreeMap Nat Wire.Bytes)} {spool : Spool}
    (h : build_spool cfg file = some spool) (hd : cfg.requires_durable_spool = true) :
    spool.overflow = .Refuse ∧ spool.Fresh := by
  unfold build_spool at h
  simp only [hd, if_true] at h
  split at h
  · cases h
    exact ⟨rfl, trivial⟩
  · split at h
    · next file =>
      cases h
      exact ⟨rfl, Spool.fresh_on_disk file cfg.spool.max_messages⟩
    · split at h
      · cases h
      · cases h
        exact ⟨rfl, trivial⟩

theorem sound_start {cfg : BridgeConfig} {files : Side → Option (BTreeMap Nat Wire.Bytes)}
    {spools : Side → Spool} (h : Built cfg files spools) : (start cfg spools).Sound where
  solid hd side hside := by
    obtain ⟨hr, hf⟩ := solid_built (h side hside) hd
    exact ⟨hr, hf⟩
  acknowledged n hn := by simp [start] at hn
  routing r hr := by cases hr

/-- Every forward at QoS 1 of a message that was acknowledged to its source is, from then on,
in the destination's spool, on its channel, being written by the run loop of its connection, or
written on one of its connections, unless a write failed while it was in hand. -/
theorem acknowledged_forward_is_in_hand {cfg : BridgeConfig}
    {files : Side → Option (BTreeMap Nat Wire.Bytes)} {spools : Side → Spool}
    (hbuilt : Built cfg files spools) (before after : List Event) {s s' : State}
    (h : (start cfg spools).run before = some s) (h' : s.run after = some s') :
    ∀ n ∈ s.acknowledged, ∃ side p, s'.routed[n]? = some (side, p) ∧ p.qos = .AtLeastOnce ∧
      ∀ (i : Nat) f, (planned cfg side p)[i]? = some f → f.qos = 1 →
        (s'.sides f.dest).InHand (n, i) (spooled p f) := by
  intro n hn
  obtain ⟨hcfg, -⟩ := State.run_history before h
  obtain ⟨hcfg', more, hmore⟩ := State.run_history after h'
  have hsound := State.sound_run after (State.sound_run before (sound_start hbuilt) h) h'
  obtain ⟨side, p, hp, hq, hin⟩ := hsound.acknowledged n (hmore ▸ List.mem_append_left _ hn)
  refine ⟨side, p, hp, hq, fun i f hf hfq => ?_⟩
  have hc : s'.cfg = cfg := hcfg'.trans hcfg
  rw [← hc] at hf
  exact hin i (List.getElem?_eq_some_iff.mp hf).1 f hf hfq

/-! ## A message on the live path -/

def oneWay : BridgeConfig :=
  { upstreams := [{ name := "up", rules := [{ direction := .Out, filter := "t", qos := 1 }] }]
    spool := { dir := some "spool" } }

def emptyFiles : Side → Option (BTreeMap Nat Wire.Bytes) := fun _ => some ∅

def emptySpools : Side → Spool :=
  fun _ => ((Spool.on_disk ∅ 10000).with_overflow .Refuse).with_max_bytes 0

theorem emptySpools_built : Built oneWay emptyFiles emptySpools := by
  intro side _
  have hd : oneWay.requires_durable_spool = true := by decide
  unfold build_spool
  rw [hd]
  rfl

def hello : Publish :=
  { dup := false, qos := .AtLeastOnce, retain := false, topic := "t", pkid := some 7
    properties := [], payload := [1] }

/-- Both sides connect, and a message from the local side is routed and acknowledged. -/
def liveRun : List Event :=
  [.Connect .Local, .Subscribe .Local, .Open .Local none [],
    .Connect (.Upstream 0), .Open (.Upstream 0) none [],
    .Read .Local (.Publish hello), .Tag .Local, .Take, .Forward none, .Finish,
    .Recv .Local, .Written .Local true, .Recv .Local, .Written .Local true]

/-- The acknowledgement is written, and the forward is on the channel alone. -/
def onChannelAlone (s : State) : Bool :=
  decide ((s.sides .Local).pubacked = [0]) && decide (s.acknowledged = [0]) &&
    decide (s.routed = [(.Local, hello)]) && decide ((s.sides (.Upstream 0)).acked = []) &&
    decide ((s.sides (.Upstream 0)).spool.len = 0) &&
    decide ((s.sides (.Upstream 0)).commands.length = 1)

theorem liveRun_ends :
    ((start oneWay emptySpools).run liveRun).map onChannelAlone = some true := by
  decide +kernel

theorem acknowledged_forward_is_in_hand_live :
    ∃ s, (start oneWay emptySpools).run liveRun = some s ∧ s.acknowledged = [0] ∧
      ∀ n ∈ s.acknowledged, ∃ side p, s.routed[n]? = some (side, p) ∧ p.qos = .AtLeastOnce ∧
        ∀ (i : Nat) f, (planned oneWay side p)[i]? = some f → f.qos = 1 →
          (s.sides f.dest).InHand (n, i) (spooled p f) := by
  obtain ⟨s, hs, hend⟩ := Option.map_eq_some_iff.mp liveRun_ends
  simp only [onChannelAlone, Bool.and_eq_true, decide_eq_true_eq] at hend
  exact ⟨s, hs, hend.1.1.1.1.2,
    acknowledged_forward_is_in_hand emptySpools_built liveRun [] hs rfl⟩

/-- Every acknowledged forward at QoS 1 is spooled, or acknowledged by its destination. -/
def State.SpooledOrAcked (s : State) : Prop :=
  ∀ n ∈ s.acknowledged, ∀ side p, s.routed[n]? = some (side, p) →
    ∀ (i : Nat) f, (planned s.cfg side p)[i]? = some f → f.qos = 1 →
      (s.sides f.dest).spool.Holds (n, i) (spooled p f) ∨ some (n, i) ∈ (s.sides f.dest).acked

theorem Spool.not_holds_of_empty {s : Spool} (h : s.len = 0) (o : Origin) (m : SpooledMessage) :
    ¬ s.Holds o m := by
  unfold Spool.len at h
  unfold Spool.Holds
  cases hin : s.inner with
  | Mem q bytes =>
    rw [hin] at h
    simp [List.length_eq_zero_iff.mp h]
  | Disk table next bytes =>
    simp only [hin] at h ⊢
    rintro ⟨k, hk⟩
    have hempty : table.isEmpty = true := by
      rw [Std.ExtTreeMap.isEmpty_eq_size_beq_zero]
      simp [h]
    rw [(BTreeMap.isEmpty_iff table).mp hempty k] at hk
    cases hk

/-- The acknowledgement is sent when the forward is on the channel of a side that is up. -/
theorem acknowledged_at_dispatch :
    Built oneWay emptyFiles emptySpools ∧
    ∃ s, (start oneWay emptySpools).run liveRun = some s ∧ (s.sides .Local).pubacked = [0] ∧
      ¬ s.SpooledOrAcked := by
  obtain ⟨s, hs, hend⟩ := Option.map_eq_some_iff.mp liveRun_ends
  simp only [onChannelAlone, Bool.and_eq_true, decide_eq_true_eq] at hend
  obtain ⟨⟨⟨⟨⟨hpubacked, hack⟩, hrouted⟩, hacked⟩, hlen⟩, -⟩ := hend
  refine ⟨emptySpools_built, s, hs, hpubacked, fun hall => ?_⟩
  have hcfg : s.cfg = oneWay := (State.run_history liveRun hs).1
  have hplan : (planned oneWay .Local hello)[0]? =
      some { dest := .Upstream 0, topic := "t", qos := 1, retain_ok := true } := by
    decide +kernel
  have hfirst : s.routed[0]? = some (.Local, hello) := by rw [hrouted]; rfl
  rw [← hcfg] at hplan
  rcases hall 0 (by simp [hack]) .Local hello hfirst 0 _ hplan rfl with h | h
  · exact Spool.not_holds_of_empty hlen _ _ h
  · rw [hacked] at h
    simp at h

end mqtt_bridge
