-- Calls of `kv_incr` that carry one idempotency key, through every interleaving of their turns.
-- The entry that remembers the key is a token: the call that put it there is the only one that
-- may add, until it takes it out again.
import MqttBroker.RuleState.LocalTurns

namespace mqttd.rule_state.local_store

open mqtt_rules BTreeMap

/-! ## The turns of a call -/

section turns

variable {est : Estimate} {settings : NamespaceSettings} {seen key : Key} {lo : Nat} {v : View}
  {c : OnceCall}

/-- Every reading of the clock is from `lo` on, and within the dedupe window from there. -/
def InWindow (settings : NamespaceSettings) (lo now_ms : Nat) : Prop :=
  lo ≤ now_ms ∧ now_ms < View.expires_at lo settings.dedupe_window_secs

/-- A call at a purge began it at such a reading. -/
def OnceCall.Timed (settings : NamespaceSettings) (lo : Nat) (c : OnceCall) : Prop :=
  match c.phase with
  | .Purge _ _ now_ms _ => InWindow settings lo now_ms
  | _ => True

/-- What a turn can come to: the call goes on, puts the entry there, finds it, or takes it out
again. -/
inductive Turned (settings : NamespaceSettings) (seen : Key) (lo : Nat) (v : View) (c : OnceCall)
    (v' : View) (c' : OnceCall) : Prop
  | onward
      (spares : View.Spares (View.expires_at lo settings.dedupe_window_secs) seen v v')
      (owns : c'.phase.owns = c.phase.owns)
      (found : c'.phase.found = true → c.phase.found = true)
  | puts (before : c.phase.owns = false) (owns : c'.phase.owns = true)
      (found : c'.phase.found = false) (was : View.Over lo seen v)
      (lasts : View.Lasts (View.expires_at lo settings.dedupe_window_secs) seen v')
  | finds (before : c.phase.owns = false) (owns : c'.phase.owns = false)
      (there : View.Lasts (View.expires_at lo settings.dedupe_window_secs) seen v)
      (lasts : View.Lasts (View.expires_at lo settings.dedupe_window_secs) seen v')
  | undoes (before : ∃ e, c.phase = .Undo e) (owns : c'.phase.owns = false)
      (found : c'.phase.found = false) (gone : View.Over lo seen v')

/-- What holds around a turn. -/
structure Turns (settings : NamespaceSettings) (seen : Key) (lo : Nat) (v : View) (c : OnceCall)
    (r : View × OnceCall) : Prop where
  turned : Turned settings seen lo v c r.1 r.2
  keyed : r.1.Keyed
  clock : r.1.sh.clock = v.sh.clock
  timed : r.2.Timed settings lo

theorem turns_onward {v' : View} {c' : OnceCall} (hk : v.Keyed)
    (hs : View.Spares (View.expires_at lo settings.dedupe_window_secs) seen v v')
    (howns : c'.phase.owns = c.phase.owns)
    (hfound : c'.phase.found = true → c.phase.found = true) (ht : c'.Timed settings lo) :
    Turns settings seen lo v c (v', c') :=
  ⟨.onward hs howns hfound, hs.keyed hk, hs.clock, ht⟩

section owns

variable (wants : Wants) (refusal : Refusal)

@[simp] theorem owns_try : (Phase.Try wants).owns = decide (wants = .Increment) := by
  cases wants <;> rfl

@[simp] theorem owns_room : (Phase.Room wants refusal).owns = decide (wants = .Increment) := by
  cases wants <;> rfl

@[simp] theorem owns_purge (now_ms : Nat) (left : List (Fin SHARDS)) :
    (Phase.Purge wants refusal now_ms left).owns = decide (wants = .Increment) := by
  cases wants <;> rfl

@[simp] theorem owns_evict : (Phase.Evict wants refusal).owns = decide (wants = .Increment) := by
  cases wants <;> rfl

@[simp] theorem owns_refusedRoom (e : StateError) :
    (Phase.refusedRoom e wants).owns = decide (wants = .Increment) := by
  cases wants <;> rfl

end owns

theorem found_refusedRoom (e : StateError) (wants : Wants) :
    (Phase.refusedRoom e wants).found = false := by
  cases wants <;> rfl

theorem turns_gives_up (hk : v.Keyed) {wants : Wants} {refusal : Refusal}
    (howns : c.phase.owns = decide (wants = .Increment)) :
    Turns settings seen lo v c (gives_up settings c wants refusal v) := by
  have hspares : View.Spares (View.expires_at lo settings.dedupe_window_secs) seen v
      (v.full settings refusal).2 := View.spares_refuse refusal ""
  refine turns_onward hk hspares ?_ ?_ ?_
  · simp [howns]
  · intro hfound
    rw [found_refusedRoom] at hfound
    cases hfound
  · cases wants <;> exact trivial

theorem turns_begin_purge (hk : v.Keyed) (hwindow : InWindow settings lo v.now) {wants : Wants}
    {refusal : Refusal} (hphase : c.phase = .Room wants refusal) :
    Turns settings seen lo v c (begin_purge settings c wants refusal v) := by
  unfold begin_purge
  split
  · exact turns_gives_up hk (by simp [hphase])
  split
  · exact turns_onward hk (View.Spares.refl v) (by simp [hphase]) (fun hf => by cases hf) trivial
  · dsimp only
    split
    · exact turns_onward hk (View.spares_ticked v) (by simp [hphase]) (fun hf => by cases hf)
        trivial
    · exact turns_onward hk (View.spares_ticked v) (by simp [hphase]) (fun hf => by cases hf)
        hwindow

/-- The first section: the entry is found, or put there, or there is no room for it. -/
theorem turns_remember (hk : v.Keyed) (hwindow : InWindow settings lo v.now)
    (hthere : View.Lasts (View.expires_at lo settings.dedupe_window_secs) seen v ∨
      View.Over lo seen v) (hphase : c.phase = .Try .Remember) :
    Turns settings seen lo v c (turn est settings seen key c v) := by
  have howns : c.phase.owns = false := by simp [hphase]
  unfold turn
  rw [hphase]
  rcases hthere with hlasts | hover
  · obtain ⟨v', heq, hlasts', hk', hclock⟩ :
        ∃ v', v.remember settings seen = (.ok (.Done false), v') ∧ _ :=
      View.remember_lasts hk hwindow.2 hlasts
    simp only [heq]
    exact ⟨.finds howns rfl hlasts hlasts', hk', hclock, trivial⟩
  · obtain ⟨r, v', heq, hk', hclock, ⟨⟨refusal, rfl⟩, hspares⟩ | ⟨rfl, hlasts⟩⟩ :=
      View.remember_over hk hwindow.1 hwindow.2 hover
    · simp only [heq]
      exact turns_onward hk hspares (by simp [afterRemember, hphase]) (fun hf => by cases hf)
        trivial
    · simp only [heq]
      exact ⟨.puts howns rfl rfl hover hlasts, hk', hclock, trivial⟩

theorem owns_afterIncrement (r : Except StateError (Step StateReply)) :
    (afterIncrement r).owns = true ∧ (afterIncrement r).found = false := by
  rcases r with e | (reply | refusal) <;> simp [afterIncrement, Phase.owns, Phase.found]

theorem turns_turn (hk : v.Keyed) (hwindow : InWindow settings lo v.now)
    (hthere : View.Lasts (View.expires_at lo settings.dedupe_window_secs) seen v ∨
      View.Over lo seen v)
    (hne : key ≠ seen) (hfail : settings.eviction = .Fail) (ht : c.Timed settings lo) :
    Turns settings seen lo v c (turn est settings seen key c v) := by
  rcases hphase : c.phase with (_ | _) | _ | ⟨wants, refusal, now_ms, _ | ⟨i, left⟩⟩ | _ | _ | e |
    _ | _ | _
  case Try.Remember => exact turns_remember hk hwindow hthere hphase
  all_goals
    unfold turn
    rw [hphase]
    try dsimp only
  case Try.Increment =>
    obtain ⟨howns, hfound⟩ := owns_afterIncrement
      (v.attempt est settings (.Incr key c.by_ c.ttl)).1
    refine turns_onward hk (View.spares_attempt est hk hwindow.2 hne c.by_ c.ttl) ?_ ?_ ?_
    · simp [hphase, howns]
    · intro hf
      rw [hfound] at hf
      cases hf
    · rcases (v.attempt est settings (.Incr key c.by_ c.ttl)).1 with e | (reply | refusal) <;>
        exact trivial
  case Room wants refusal => exact turns_begin_purge hk hwindow hphase
  case Purge.nil =>
    refine turns_onward hk (View.spares_of_maps rfl rfl (fun _ => rfl)) (by simp [hphase])
      (fun hf => by cases hf) trivial
  case Purge.cons =>
    have hnow : InWindow settings lo now_ms := by
      unfold OnceCall.Timed at ht
      rwa [hphase] at ht
    have hpurge : View.Spares (View.expires_at lo settings.dedupe_window_secs) seen v
        (v.purge i now_ms).2 := View.spares_purge hnow.2 hk
    have hspares := hpurge.trans (View.idle_note_oldest _ i).spares
    cases hany : (v.purge i now_ms).1 with
    | true =>
      exact turns_onward hk hspares (by simp [hphase]) (fun hf => by simp [Phase.found] at hf)
        trivial
    | false =>
      exact turns_onward hk hspares (by simp [hphase]) (fun hf => by simp [Phase.found] at hf)
        hnow
  case Evict wants refusal =>
    rw [if_neg (by simp [hfail])]
    exact turns_gives_up hk (by simp [hphase])
  case Count =>
    refine turns_onward hk (View.spares_count est hk hwindow.2 hne) ?_
      (by simp [hphase, Phase.found]) ?_
    · rcases (v.count est settings key).1 with e | reply <;>
        simp [hphase, afterCount, Phase.owns]
    · rcases (v.count est settings key).1 with e | reply <;> exact trivial
  case Undo =>
    obtain ⟨hover, hk', hclock⟩ := View.forgotten_over lo seen hk
    exact ⟨.undoes ⟨e, hphase⟩ rfl rfl hover, hk', hclock, trivial⟩
  all_goals
    exact turns_onward hk (View.Spares.refl v) rfl (fun hf => hf) ht

end turns

/-! ## Every interleaving -/

namespace Calls

/-- How many calls have found the entry. -/
def finders (s : Calls) : Nat := s.calls.countP (·.phase.found)

variable {est : Estimate} {settings : NamespaceSettings} {seen key : Key} {lo : Nat} {s : Calls}

/-- At most one call has put the entry there, and then it lasts. -/
structure Token (settings : NamespaceSettings) (seen : Key) (lo : Nat) (s : Calls) : Prop where
  keyed : s.v.Keyed
  window : ∀ n, InWindow settings lo (s.v.sh.clock n)
  timed : ∀ c ∈ s.calls, c.Timed settings lo
  one : s.owners ≤ 1
  lasts : s.owners = 1 → View.Lasts (View.expires_at lo settings.dedupe_window_secs) seen s.v
  gone : s.owners = 0 → View.Over lo seen s.v

/-- A call that found the entry found that of a call that is still to add, or has. -/
structure Backed (s : Calls) : Prop where
  backed : 0 < s.finders → s.owners = 1

theorem added_owns {p : Phase} (h : p.added = true) : p.owns = true := by
  cases p <;> simp_all [Phase.added, Phase.owns]

theorem additions_le (s : Calls) : s.additions ≤ s.owners :=
  List.countP_mono_left (fun _ _ h => added_owns h)

theorem Token.lasts_or_over (ht : s.Token settings seen lo) :
    s.owners = 1 ∧ View.Lasts (View.expires_at lo settings.dedupe_window_secs) seen s.v ∨
      s.owners = 0 ∧ View.Over lo seen s.v := by
  rcases Nat.le_one_iff_eq_zero_or_eq_one.mp ht.one with h | h
  · exact .inr ⟨h, ht.gone h⟩
  · exact .inl ⟨h, ht.lasts h⟩

theorem Token.not_both (ht : s.Token settings seen lo)
    (hl : View.Lasts (View.expires_at lo settings.dedupe_window_secs) seen s.v) :
    ¬ View.Over lo seen s.v := by
  intro ho
  obtain ⟨e, hget, hexp⟩ := hl
  have hpast := View.expires_of_expired (ho e hget)
  have hnow := ht.window 0
  unfold InWindow at hnow
  omega

theorem Token.owned (ht : s.Token settings seen lo)
    (hl : View.Lasts (View.expires_at lo settings.dedupe_window_secs) seen s.v) :
    s.owners = 1 := by
  rcases ht.lasts_or_over with ⟨h1, -⟩ | ⟨-, ho⟩
  · exact h1
  · exact absurd ho (ht.not_both hl)

theorem Token.unowned (ht : s.Token settings seen lo) (ho : View.Over lo seen s.v) :
    s.owners = 0 := by
  rcases ht.lasts_or_over with ⟨-, hl⟩ | ⟨h0, -⟩
  · exact absurd ho (ht.not_both hl)
  · exact h0

theorem countP_turn {calls : List OnceCall} {i : Nat} {c : OnceCall} (h : calls[i]? = some c)
    (p : OnceCall → Bool) (c' : OnceCall) :
    (calls.set i c').countP p + (if p c then 1 else 0) =
      calls.countP p + (if p c' then 1 else 0) := by
  obtain ⟨hlt, heq⟩ := List.getElem?_eq_some_iff.mp h
  rw [List.countP_set hlt, heq]
  by_cases hp : p c
  · have hpos : 0 < calls.countP p :=
      List.countP_pos_iff.mpr ⟨c, List.mem_of_getElem? h, hp⟩
    simp only [hp, if_true]
    omega
  · simp [hp]

theorem step_cases (est : Estimate) (key : Key) (ht : s.Token settings seen lo)
    (hne : key ≠ seen) (hfail : settings.eviction = .Fail) (i : Nat) :
    s.step est settings seen key i = s ∨
    ∃ c v' c', s.calls[i]? = some c ∧
      s.step est settings seen key i = { v := v', calls := s.calls.set i c' } ∧
      Turns settings seen lo s.v c (v', c') := by
  unfold step
  rcases hc : s.calls[i]? with _ | c
  · exact .inl rfl
  · have hthere : View.Lasts (View.expires_at lo settings.dedupe_window_secs) seen s.v ∨
        View.Over lo seen s.v := ht.lasts_or_over.imp And.right And.right
    exact .inr ⟨c, _, _, rfl, rfl, turns_turn ht.keyed (ht.window _) hthere hne hfail
      (ht.timed c (List.mem_of_getElem? hc))⟩

theorem Token.step (est : Estimate) (key : Key) (ht : s.Token settings seen lo)
    (hne : key ≠ seen) (hfail : settings.eviction = .Fail) (i : Nat) :
    (s.step est settings seen key i).Token settings seen lo := by
  rcases step_cases est key ht hne hfail i with hsame | ⟨c, v', c', hc, hstep, hturn⟩
  · rw [hsame]
    exact ht
  rw [hstep]
  have hcount := countP_turn hc (·.phase.owns) c'
  have hwindow : ∀ n, InWindow settings lo (v'.sh.clock n) := by
    intro n
    have hclock : v'.sh.clock = s.v.sh.clock := hturn.clock
    rw [hclock]
    exact ht.window n
  have htimed : ∀ d ∈ s.calls.set i c', d.Timed settings lo := by
    intro d hd
    rcases List.mem_or_eq_of_mem_set hd with hd | rfl
    · exact ht.timed d hd
    · exact hturn.timed
  have hone := ht.one
  -- how many calls own the entry after the turn, and whether it is there
  have howners : (s.calls.set i c').countP (·.phase.owns) = 1 ∧
      View.Lasts (View.expires_at lo settings.dedupe_window_secs) seen v' ∨
      (s.calls.set i c').countP (·.phase.owns) = 0 ∧ View.Over lo seen v' := by
    cases hturn.turned with
    | onward hspares howns hfound =>
      have hsame : (s.calls.set i c').countP (·.phase.owns) = s.owners := by
        simp only [howns] at hcount
        unfold owners
        omega
      rw [hsame]
      exact ht.lasts_or_over.imp (fun h => ⟨h.1, h.2.spares hspares⟩)
        (fun h => ⟨h.1, h.2.spares hspares⟩)
    | puts hbefore howns hfound hwas hlasts =>
      refine .inl ⟨?_, hlasts⟩
      have hnone := ht.unowned hwas
      unfold owners at hnone
      simp [hbefore, howns, hnone] at hcount
      exact hcount
    | finds hbefore howns hthere hlasts =>
      refine .inl ⟨?_, hlasts⟩
      have hsome := ht.owned hthere
      unfold owners at hsome
      simp [hbefore, howns, hsome] at hcount
      exact hcount
    | undoes hbefore howns hfound hover =>
      refine .inr ⟨?_, hover⟩
      obtain ⟨e, he⟩ := hbefore
      have hbefore : c.phase.owns = true := by
        rw [he]
        rfl
      unfold owners at hone
      simp only [hbefore, howns] at hcount
      simp at hcount
      omega
  refine ⟨hturn.keyed, hwindow, htimed, ?_, ?_, ?_⟩
  · show (s.calls.set i c').countP (·.phase.owns) ≤ 1
    omega
  · intro h
    change (s.calls.set i c').countP (·.phase.owns) = 1 at h
    rcases howners with ⟨-, hl⟩ | ⟨h0, -⟩
    · exact hl
    · omega
  · intro h
    change (s.calls.set i c').countP (·.phase.owns) = 0 at h
    rcases howners with ⟨h1, -⟩ | ⟨-, ho⟩
    · omega
    · exact ho

theorem finders_eq_zero {calls : List OnceCall}
    (h : ∀ d ∈ calls, d.phase.found = false) : calls.countP (·.phase.found) = 0 := by
  rw [List.countP_eq_zero]
  intro d hd
  simp [h d hd]

theorem Backed.step (est : Estimate) (key : Key) (hb : s.Backed) (ht : s.Token settings seen lo)
    (hne : key ≠ seen) (hfail : settings.eviction = .Fail) {i : Nat} (hm : s.Meets i) :
    (s.step est settings seen key i).Backed := by
  have ht' := ht.step est key hne hfail i
  rcases step_cases est key ht hne hfail i with hsame | ⟨c, v', c', hc, hstep, hturn⟩
  · rw [hsame]
    exact hb
  rw [hstep] at ht' ⊢
  have hcount := countP_turn hc (·.phase.found) c'
  refine ⟨fun hpos => ?_⟩
  change 0 < (s.calls.set i c').countP (·.phase.found) at hpos
  cases hturn.turned with
  | onward hspares howns hfound =>
    have hfinders : 0 < s.finders := by
      unfold finders
      by_cases hf' : c'.phase.found = true
      · simp only [hf', hfound hf', if_true] at hcount
        omega
      · simp only [hf', Bool.false_eq_true, if_false] at hcount
        omega
    have hlasts := ht.lasts (hb.backed hfinders)
    exact ht'.owned (hlasts.spares hspares)
  | puts hbefore howns hfound hwas hlasts => exact ht'.owned hlasts
  | finds hbefore howns hthere hlasts => exact ht'.owned hlasts
  | undoes hbefore howns hfound hover =>
    obtain ⟨e, he⟩ := hbefore
    have hnone := finders_eq_zero (hm (by simp [hc, he, Phase.undoes]))
    simp only [hnone, hfound, Bool.false_eq_true, if_false] at hcount
    omega

def AllMeet (est : Estimate) (settings : NamespaceSettings) (seen key : Key) (s : Calls) :
    List Nat → Prop
  | [] => True
  | i :: turns => s.Meets i ∧ AllMeet est settings seen key (s.step est settings seen key i) turns

instance (est : Estimate) (settings : NamespaceSettings) (seen key : Key) (turns : List Nat)
    (s : Calls) : Decidable (AllMeet est settings seen key s turns) :=
  match turns with
  | [] => inferInstanceAs (Decidable True)
  | i :: turns =>
    have : Decidable (AllMeet est settings seen key (s.step est settings seen key i) turns) :=
      instDecidableAllMeet est settings seen key turns _
    inferInstanceAs (Decidable (_ ∧ _))

theorem Token.run (est : Estimate) (key : Key) (ht : s.Token settings seen lo)
    (hne : key ≠ seen) (hfail : settings.eviction = .Fail) (turns : List Nat) :
    (s.run est settings seen key turns).Token settings seen lo := by
  induction turns generalizing s with
  | nil => exact ht
  | cons i turns ih => exact ih (ht.step est key hne hfail i)

theorem Backed.run (est : Estimate) (key : Key) (hb : s.Backed) (ht : s.Token settings seen lo)
    (hne : key ≠ seen) (hfail : settings.eviction = .Fail) {turns : List Nat}
    (hm : AllMeet est settings seen key s turns) : (s.run est settings seen key turns).Backed := by
  induction turns generalizing s with
  | nil => exact hb
  | cons i turns ih =>
    exact ih (hb.step est key ht hne hfail hm.1) (ht.step est key hne hfail i) hm.2

/-- The calls as they are made: none has taken a turn. -/
def made (v : View) (increments : List (Int64 × Option Nat)) : Calls :=
  { v, calls := increments.map (fun p => { by_ := p.1, ttl := p.2 }) }

theorem made_token {v : View} {others : Nat} (hs : View.Sound others v)
    (hwindow : ∀ n, InWindow settings lo (v.sh.clock n)) (hover : View.Over lo seen v)
    (increments : List (Int64 × Option Nat)) :
    (made v increments).Token settings seen lo ∧ (made v increments).Backed := by
  have hphase : ∀ c ∈ (made v increments).calls, c.phase = .Try .Remember := by
    intro c hc
    obtain ⟨p, -, rfl⟩ := List.mem_map.mp hc
    rfl
  have howners : (made v increments).owners = 0 := by
    refine List.countP_eq_zero.mpr (fun c hc => ?_)
    simp [hphase c hc]
  have hfinders : (made v increments).finders = 0 := by
    refine finders_eq_zero (fun c hc => ?_)
    rw [hphase c hc]
    rfl
  refine ⟨⟨fun i k e he => ((hs.shards i).key_of he).1, hwindow, ?_, ?_, ?_, fun _ => hover⟩, ⟨?_⟩⟩
  · intro c hc
    unfold OnceCall.Timed
    rw [hphase c hc]
    trivial
  · omega
  · omega
  · omega

/-- What holds of the calls: at most one has added, one that returned without an error has a
call that has added or is still to come to the end of its increment, and once all have
returned that one has added. -/
structure CountsOnce (s : Calls) : Prop where
  at_most_one : s.additions ≤ 1
  underway : (∃ c ∈ s.calls, c.phase.succeeded = true) → s.owners = 1
  exactly_one : (∃ c ∈ s.calls, c.phase.succeeded = true) →
    (∀ c ∈ s.calls, c.phase.ended = true) → s.additions = 1

theorem Token.countsOnce (ht : s.Token settings seen lo) (hb : s.Backed) : s.CountsOnce := by
  have hunderway : (∃ c ∈ s.calls, c.phase.succeeded = true) → s.owners = 1 := by
    rintro ⟨c, hc, hok⟩
    have hcases : c.phase.owns = true ∨ c.phase.found = true := by
      cases hp : c.phase <;> simp_all [Phase.succeeded, Phase.owns, Phase.found]
    rcases hcases with howns | hfound
    · have hpos : 0 < s.owners := List.countP_pos_iff.mpr ⟨c, hc, howns⟩
      have hone := ht.one
      omega
    · exact hb.backed (List.countP_pos_iff.mpr ⟨c, hc, hfound⟩)
  refine ⟨s.additions_le.trans ht.one, hunderway, fun hok hended => ?_⟩
  rw [← hunderway hok]
  refine List.countP_congr (fun c hc => ?_)
  have hend := hended c hc
  cases hp : c.phase <;> simp_all [Phase.ended, Phase.added, Phase.owns]

/-- In a namespace that evicts nothing, at most one of the calls with one idempotency key and one
counter adds, through every interleaving; and they count once where no call finds the entry of
one that takes it out. -/
theorem an_idempotency_key_counts_once (est : Estimate) (settings : NamespaceSettings)
    (once key : Key) (v : View) (others lo : Nat) (increments : List (Int64 × Option Nat))
    (turns : List Nat) (hs : View.Sound others v) (hfail : settings.eviction = .Fail)
    (hkey : key.head? ≠ some REMEMBERED_PREFIX)
    (hwindow : ∀ n, InWindow settings lo (v.sh.clock n))
    (hover : View.Over lo (remembered_of once) v) :
    ((made v increments).run est settings (remembered_of once) key turns).additions ≤ 1 ∧
    (AllMeet est settings (remembered_of once) key (made v increments) turns →
      ((made v increments).run est settings (remembered_of once) key turns).CountsOnce) := by
  have hne : key ≠ remembered_of once := by
    rintro rfl
    exact hkey rfl
  obtain ⟨ht, hb⟩ := made_token hs hwindow hover increments
  have ht' := ht.run est key hne hfail turns
  exact ⟨(additions_le _).trans ht'.one,
    fun hmeet => ht'.countsOnce (hb.run est key ht hne hfail hmeet)⟩

/-- A store with one empty namespace, whose clock stands still. -/
def still : Store :=
  { shared := { max_bytes := 100000, expiry_events := true, clock := fun _ => 1000
                walk := fun _ _ => [] }
    namespaces := [{ name := "counts", shard_of := fun _ => ⟨0, shards_pos⟩ }] }

/-- Its namespace. -/
def empty : View := ⟨still.shared, { name := "counts", shard_of := fun _ => ⟨0, shards_pos⟩ }⟩

def room (max_keys : Nat) : NamespaceSettings :=
  { max_keys, max_bytes := 10000, default_ttl_secs := none, eviction := .Fail
    dedupe_window_secs := 60 }

theorem sound_still : ∃ others, View.Sound others empty := by
  have hfresh : still.Fresh := by
    refine ⟨rfl, fun ns hns => ?_⟩
    rw [List.mem_singleton.mp hns]
  obtain ⟨others, hsound⟩ := (Store.sound_fresh hfresh).each (n := 0) rfl
  exact ⟨others, hsound⟩

theorem window_still (max_keys : Nat) :
    ∀ n, InWindow (room max_keys) 1000 (empty.sh.clock n) := by
  intro n
  refine ⟨Nat.le_refl _, ?_⟩
  show 1000 < View.expires_at 1000 60
  decide

theorem over_still : View.Over 1000 (remembered_of [9]) empty := by
  intro e he
  have hnone : empty.get (remembered_of [9]) = none := by decide +kernel
  rw [hnone] at he
  cases he

/-- Two calls take turns, there is room for both entries, and one of them adds. -/
theorem two_calls_count_once :
    ((made empty [(1, none), (1, none)]).run ⟨fun _ => 0⟩ (room 2) (remembered_of [9]) [2]
      [0, 1, 1, 0]).CountsOnce ∧
    ((made empty [(1, none), (1, none)]).run ⟨fun _ => 0⟩ (room 2) (remembered_of [9]) [2]
      [0, 1, 1, 0]).additions = 1 := by
  refine ⟨?_, by decide +kernel⟩
  obtain ⟨others, hsound⟩ := sound_still
  exact (an_idempotency_key_counts_once ⟨fun _ => 0⟩ (room 2) [9] [2] empty others 1000
    [(1, none), (1, none)] [0, 1, 1, 0] hsound rfl (by decide) (window_still 2) over_still).2
    (by decide +kernel)

/-- There is room for one key only. The second call finds the entry of the first and reads the
count; then the increment of the first is refused, and the entry goes. -/
theorem a_call_succeeds_on_an_entry_that_is_taken_out :
    ((made empty [(1, none), (1, none)]).run ⟨fun _ => 0⟩ (room 1) (remembered_of [9]) [2]
      [0, 1, 1, 0, 0, 0, 0]).calls.map (fun c => (c.phase.succeeded, c.phase.ended)) =
        [(false, true), (true, true)] ∧
    ((made empty [(1, none), (1, none)]).run ⟨fun _ => 0⟩ (room 1) (remembered_of [9]) [2]
      [0, 1, 1, 0, 0, 0, 0]).additions = 0 ∧
    ¬ ∀ (est : Estimate) (settings : NamespaceSettings) (once key : Key) (v : View)
      (others lo : Nat) (increments : List (Int64 × Option Nat)) (turns : List Nat),
      View.Sound others v → settings.eviction = .Fail → key.head? ≠ some REMEMBERED_PREFIX →
      (∀ n, InWindow settings lo (v.sh.clock n)) → View.Over lo (remembered_of once) v →
      ((made v increments).run est settings (remembered_of once) key turns).CountsOnce := by
  have hcalls : ((made empty [(1, none), (1, none)]).run ⟨fun _ => 0⟩ (room 1) (remembered_of [9])
      [2] [0, 1, 1, 0, 0, 0, 0]).calls.map (fun c => (c.phase.succeeded, c.phase.ended)) =
        [(false, true), (true, true)] := by decide +kernel
  have hadditions : ((made empty [(1, none), (1, none)]).run ⟨fun _ => 0⟩ (room 1)
      (remembered_of [9]) [2] [0, 1, 1, 0, 0, 0, 0]).additions = 0 := by decide +kernel
  refine ⟨hcalls, hadditions, fun hall => ?_⟩
  obtain ⟨others, hsound⟩ := sound_still
  have hcounts := hall ⟨fun _ => 0⟩ (room 1) [9] [2] empty others 1000 [(1, none), (1, none)]
    [0, 1, 1, 0, 0, 0, 0] hsound rfl (by decide) (window_still 1) over_still
  have hone := hcounts.exactly_one ?_ ?_
  · rw [hadditions] at hone
    cases hone
  · have hmem : (true, true) ∈ [(false, true), (true, true)] := by decide
    rw [← hcalls] at hmem
    obtain ⟨c, hc, heq⟩ := List.mem_map.mp hmem
    exact ⟨c, hc, congrArg Prod.fst heq⟩
  · intro c hc
    have hmem := List.mem_map_of_mem (f := fun c : OnceCall =>
      (c.phase.succeeded, c.phase.ended)) hc
    rw [hcalls] at hmem
    rcases List.mem_cons.mp hmem with heq | heq
    · exact congrArg Prod.snd heq
    · exact congrArg Prod.snd (List.mem_singleton.mp heq)

end Calls

end mqttd.rule_state.local_store
