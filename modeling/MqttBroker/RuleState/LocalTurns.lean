-- Calls of `kv_incr` with an idempotency key (`Handle::incr_once`), taken apart into what a call
-- does under one shard's lock at a time; between two of these any other call may go on. What
-- such a turn leaves of the entry of a key is here, for readings of the clock in any order.
import MqttBroker.RuleState.LocalRuns

namespace mqttd.rule_state.local_store

open mqtt_rules BTreeMap

/-! ## One call, a lock at a time -/

/-- What a call wants to do under the lock of a shard. -/
inductive Wants
  | Remember
  | Increment
  deriving DecidableEq, Repr

/-- Where a call is. `Room` and `Purge` look for room between two tries, `Purge` with the reading
of the clock it began with and the shards that are left. A call ends with what it added to, with
a count that it only read, or refused. -/
inductive Phase
  | Try (wants : Wants)
  | Room (wants : Wants) (refusal : Refusal)
  | Purge (wants : Wants) (refusal : Refusal) (now_ms : Nat) (left : List (Fin SHARDS))
  | Evict (wants : Wants) (refusal : Refusal)
  | Count
  | Undo (e : StateError)
  | Added (reply : StateReply)
  | Counted (reply : StateReply)
  | Failed (e : StateError)

structure OnceCall where
  by_ : Int64
  ttl : Option Nat
  evictions : Nat := 0
  phase : Phase := .Try .Remember

namespace Phase

/-- The call put the entry of the idempotency key there, and has not taken it out again. -/
def owns : Phase → Bool
  | .Try .Increment | .Room .Increment _ | .Purge .Increment _ _ _ | .Evict .Increment _
  | .Undo _ | .Added _ => true
  | _ => false

def found : Phase → Bool
  | .Count | .Counted _ => true
  | _ => false

/-- The call has to take the entry out again. -/
def undoes : Phase → Bool
  | .Undo _ => true
  | _ => false

def added : Phase → Bool
  | .Added _ => true
  | _ => false

def succeeded : Phase → Bool
  | .Added _ | .Counted _ => true
  | _ => false

def ended : Phase → Bool
  | .Added _ | .Counted _ | .Failed _ => true
  | _ => false

/-- A call that is refused room: one that has put the entry there has to take it out again. -/
def refusedRoom (e : StateError) : Wants → Phase
  | .Remember => .Failed e
  | .Increment => .Undo e

end Phase

section steps

variable (est : Estimate) (settings : NamespaceSettings) (seen key : Key)

def afterRemember : Except StateError (Step Bool) → Phase
  | .ok (.Done true) => .Try .Increment
  | .ok (.Done false) => .Count
  | .ok (.NeedRoom refusal) => .Room .Remember refusal
  | .error e => .Failed e

def afterIncrement : Except StateError (Step StateReply) → Phase
  | .ok (.Done reply) => .Added reply
  | .ok (.NeedRoom refusal) => .Room .Increment refusal
  | .error e => .Undo e

def afterCount : Except StateError StateReply → Phase
  | .ok reply => .Counted reply
  | .error e => .Failed e

def gives_up (c : OnceCall) (wants : Wants) (refusal : Refusal) (v : View) : View × OnceCall :=
  let (e, v) := v.full settings refusal
  (v, { c with phase := Phase.refusedRoom e wants })

/-- `purge_all` begins: it reads the clock, and does not look again within a second. -/
def begin_purge (c : OnceCall) (wants : Wants) (refusal : Refusal) (v : View) :
    View × OnceCall :=
  if refusal = .Brownout then gives_up settings c wants refusal v
  else if v.sh.expiry_events then (v, { c with phase := .Evict wants refusal })
  else
    let now_ms := v.now
    let v := v.ticked
    let last := v.ns.purged_ms
    if last ≠ 0 ∧ now_ms < add_saturating last PURGE_EVERY_MS then
      (v, { c with phase := .Evict wants refusal })
    else (v, { c with phase := .Purge wants refusal now_ms (List.finRange SHARDS) })

def turn (c : OnceCall) (v : View) : View × OnceCall :=
  match c.phase with
  | .Try .Remember =>
    let (r, v) := v.remember settings seen
    (v, { c with phase := afterRemember r })
  | .Try .Increment =>
    let (r, v) := v.attempt est settings (.Incr key c.by_ c.ttl)
    (v, { c with phase := afterIncrement r })
  | .Room wants refusal => begin_purge settings c wants refusal v
  | .Purge wants refusal now_ms [] =>
    ({ v with ns := { v.ns with purged_ms := max now_ms 1 } },
      { c with phase := .Evict wants refusal })
  | .Purge wants refusal now_ms (i :: left) =>
    let (any, v) := v.purge i now_ms
    (v.note_oldest i,
      { c with phase := if any then .Try wants else .Purge wants refusal now_ms left })
  | .Evict wants refusal =>
    if settings.eviction = .Lru ∧ c.evictions < MAX_EVICTIONS_PER_CALL then
      match v.evict_one with
      | (true, v) => (v, { c with evictions := c.evictions + 1, phase := .Try wants })
      | (false, v) => gives_up settings c wants refusal v
    else gives_up settings c wants refusal v
  | .Count =>
    let (r, v) := v.count est settings key
    (v, { c with phase := afterCount r })
  | .Undo e =>
    let i := v.ns.shard_of seen
    (((v.remove i seen).2).note_used i, { c with phase := .Failed e })
  | .Added _ | .Counted _ | .Failed _ => (v, c)

/-- A namespace, and the calls with one idempotency key and one counter. -/
structure Calls where
  v : View
  calls : List OnceCall

/-- Call `i` takes a turn. -/
def Calls.step (s : Calls) (i : Nat) : Calls :=
  match s.calls[i]? with
  | none => s
  | some c =>
    let (v, c) := turn est settings seen key c s.v
    { v, calls := s.calls.set i c }

def Calls.run (s : Calls) (turns : List Nat) : Calls :=
  turns.foldl (Calls.step est settings seen key) s

end steps

namespace Calls

/-- How many calls have added to the counter. -/
def additions (s : Calls) : Nat := s.calls.countP (·.phase.added)

/-- How many calls have put the entry there and not taken it out again. -/
def owners (s : Calls) : Nat := s.calls.countP (·.phase.owns)

/-- What a turn has to meet: a call whose increment was refused takes the entry out again only
where no call has found it. -/
def Meets (s : Calls) (i : Nat) : Prop :=
  s.calls[i]?.any (·.phase.undoes) = true → ∀ d ∈ s.calls, d.phase.found = false

instance (s : Calls) (i : Nat) : Decidable (s.Meets i) :=
  inferInstanceAs (Decidable (_ → _))

end Calls

/-! ## What leaves the entry of a key alone -/

namespace View

def Keyed (v : View) : Prop :=
  ∀ (i : Fin SHARDS) (k : Key) (e : Entry), (v.shard i).map[k]? = some e → e.key = k

/-- The key has an entry that does not expire before `hi`. -/
def Lasts (hi : Nat) (seen : Key) (v : View) : Prop :=
  ∃ e, v.get seen = some e ∧ (e.expires_ms = 0 ∨ hi ≤ e.expires_ms)

/-- The key has no entry, or one that is past its expiry from `lo` on. -/
def Over (lo : Nat) (seen : Key) (v : View) : Prop :=
  ∀ e, v.get seen = some e → e.expired lo = true

/-- A step before `hi`: it takes the entry of `seen` out only where that has expired. -/
structure Spares (hi : Nat) (seen : Key) (v v' : View) : Prop where
  shard_of : v'.ns.shard_of = v.ns.shard_of
  clock : v'.sh.clock = v.sh.clock
  keyed : v.Keyed → v'.Keyed
  entry : v'.get seen = v.get seen ∨
    v'.get seen = none ∧ ∃ e t, v.get seen = some e ∧ t < hi ∧ e.expired t = true

variable {lo hi now_ms : Nat} {seen key : Key} {v v' v'' : View} {i : Fin SHARDS} {e : Entry}
  {settings : NamespaceSettings}

theorem Spares.trans (h : Spares hi seen v v') (h' : Spares hi seen v' v'') :
    Spares hi seen v v'' := by
  refine ⟨h'.shard_of.trans h.shard_of, h'.clock.trans h.clock,
    fun hk => h'.keyed (h.keyed hk), ?_⟩
  rcases h'.entry with heq | ⟨hnone, e, t, hget, ht, hexp⟩
  · rcases h.entry with heq' | ⟨hnone, hex⟩
    · exact .inl (heq.trans heq')
    · exact .inr ⟨heq.trans hnone, hex⟩
  · rcases h.entry with heq' | ⟨hnone', hex⟩
    · exact .inr ⟨hnone, e, t, heq'.symm.trans hget, ht, hexp⟩
    · exact .inr ⟨hnone, hex⟩

theorem spares_of_maps (hof : v'.ns.shard_of = v.ns.shard_of) (hclock : v'.sh.clock = v.sh.clock)
    (hmaps : ∀ j, (v'.shard j).map = (v.shard j).map) : Spares hi seen v v' := by
  refine ⟨hof, hclock, fun hk j k e he => ?_, .inl ?_⟩
  · rw [hmaps] at he
    exact hk j k e he
  · unfold get
    rw [hof, hmaps]

theorem Spares.refl (v : View) : Spares hi seen v v :=
  spares_of_maps rfl rfl (fun _ => rfl)

theorem Idle.spares (h : Idle v v') : Spares hi seen v v' :=
  spares_of_maps h.shard_of h.clock (fun j => by rw [h.shard])

theorem map_setShard (v : View) (i j : Fin SHARDS) (s : Shard) :
    ((v.setShard i s).shard j).map = if j = i then s.map else (v.shard j).map := by
  by_cases hj : j = i
  · subst hj
    rw [if_pos rfl, shard_setShard]
  · rw [if_neg hj, shard_setShard_ne v s hj]

theorem spares_setShard {s : Shard} (hmap : s.map = (v.shard i).map) :
    Spares hi seen v (v.setShard i s) := by
  refine spares_of_maps rfl rfl (fun j => ?_)
  rw [map_setShard]
  split
  · rename_i hj
    rw [hj, hmap]
  · rfl

theorem spares_taken (hk : v.Keyed) (hget : (v.shard i).map[key]? = some e)
    (hwhy : key ≠ seen ∨ now_ms < hi ∧ e.expired now_ms = true) {s : Shard}
    (hmap : s.map = ((v.shard i).without e).map) : Spares hi seen v (v.setShard i s) := by
  have hkey : e.key = key := hk i key e hget
  refine ⟨rfl, rfl, fun _ j k x hx => ?_, ?_⟩
  · rw [map_setShard] at hx
    split at hx
    · rw [hmap, Shard.get_without] at hx
      split at hx
      · cases hx
      · exact hk i k x hx
    · exact hk j k x hx
  · rw [get_setShard, hmap, Shard.get_without, hkey]
    by_cases hi' : v.ns.shard_of seen = i
    · rw [if_pos hi']
      have hsame : (v.shard i).map[seen]? = v.get seen := by
        unfold get
        rw [hi']
      by_cases hseen : key = seen
      · obtain ⟨ht, hexp⟩ := hwhy.resolve_left (not_not.mpr hseen)
        rw [if_pos hseen]
        refine .inr ⟨rfl, e, now_ms, ?_, ht, hexp⟩
        rw [← hsame, ← hseen]
        exact hget
      · rw [if_neg hseen, hsame]
        exact .inl rfl
    · rw [if_neg hi']
      exact .inl rfl

theorem spares_remove (hk : v.Keyed)
    (hwhy : key ≠ seen ∨ now_ms < hi ∧ (v.shard i).map[key]?.any (·.expired now_ms) = true) :
    Spares hi seen v (v.remove i key).2 := by
  unfold remove Shard.take
  rcases hget : (v.shard i).map[key]? with _ | e
  · exact Spares.refl v
  · rw [hget] at hwhy
    exact (spares_taken hk hget hwhy rfl).trans (spares_of_maps rfl rfl (fun _ => rfl))

theorem spares_expireFound (hk : v.Keyed) (hnow : now_ms < hi) :
    Spares hi seen v (v.expireFound i key now_ms) := by
  unfold expireFound
  split
  · rename_i hany
    unfold expire Shard.take
    rcases hget : (v.shard i).map[key]? with _ | e
    · exact Spares.refl v
    · rw [hget] at hany
      dsimp only
      split
      · exact spares_taken hk hget (.inr ⟨hnow, hany⟩) rfl
      · exact (spares_taken hk hget (.inr ⟨hnow, hany⟩) rfl).trans
          (spares_of_maps rfl rfl (fun _ => rfl))
  · exact Spares.refl v

theorem spares_purge_loop (hnow : now_ms < hi) (n : Nat) (any : Bool) (hk : v.Keyed) :
    Spares hi seen v (purge_loop i now_ms n any v).2 := by
  induction n generalizing any v with
  | zero => exact Spares.refl v
  | succ n ih =>
    unfold purge_loop
    split
    · exact Spares.refl v
    · rename_i first rest hexpiry
      dsimp only
      split
      · have herased : Spares hi seen v
            (v.setShard i { v.shard i with expiry := (v.shard i).expiry.erase first }) :=
          spares_setShard rfl
        have hk' := herased.keyed hk
        split
        · rename_i hany
          have hremove : Spares hi seen
              (v.setShard i { v.shard i with expiry := (v.shard i).expiry.erase first }) (remove
              (v.setShard i { v.shard i with expiry := (v.shard i).expiry.erase first }) i
              (ofLex first).2).2 := by
            refine spares_remove hk' (.inr ⟨hnow, ?_⟩)
            rw [shard_setShard]
            exact hany
          exact (herased.trans hremove).trans (ih _ (hremove.keyed hk'))
        · exact herased.trans (ih _ hk')
      · exact Spares.refl v

theorem spares_purge (hnow : now_ms < hi) (hk : v.Keyed) :
    Spares hi seen v (v.purge i now_ms).2 := by
  unfold purge
  split
  · exact Spares.refl v
  · exact spares_purge_loop hnow _ _ hk

theorem spares_reserve {bytes : Nat} (h : v.reserve settings bytes = .ok v') :
    Spares hi seen v v' := by
  rw [reserve_eq h]
  exact spares_of_maps rfl rfl (fun _ => rfl)

theorem keyed_touch (hk : v.Keyed) (i : Fin SHARDS) (e : Entry) (ttl : Option Nat) :
    (v.touch settings i e ttl now_ms).Keyed := by
  intro j k x hx
  rw [touch_eq] at hx
  have hmap := map_setShard v i j ((v.shard i).touched settings v.ns.tick e ttl now_ms)
  change ((v.setShard i _).shard j).map[k]? = some x at hx
  rw [hmap] at hx
  split at hx
  · rw [Shard.get_touched] at hx
    split at hx
    · rename_i hkey
      cases hx
      exact hkey
    · exact hk i k x hx
  · exact hk j k x hx

theorem spares_touch (e : Entry) (hne : e.key ≠ seen) (hi' : v.ns.shard_of e.key = i)
    (ttl : Option Nat) : Spares hi seen v (v.touch settings i e ttl now_ms) := by
  subst hi'
  have hon : Onward v (v.touch settings (v.ns.shard_of e.key) e ttl now_ms) :=
    onward_touch v _ e ttl
  refine ⟨hon.shard_of, hon.clock, fun hk => keyed_touch hk _ e ttl, .inl ?_⟩
  rw [get_touch, if_neg hne]

/-- What an insertion comes to: it finds no room, or the new entry is written on what is left
after some expired keys went. -/
theorem insert_cases (settings : NamespaceSettings) (seen key : Key) (i : Fin SHARDS)
    (hk : v.Keyed) (hnow : now_ms < hi) (data : Data) (bytes : Nat) (ttl : Option Nat) :
    (∃ refusal v', v.insert settings i key data bytes ttl now_ms = (.error refusal, v') ∧
      Spares hi seen v v') ∨
    ∃ v' e, v.insert settings i key data bytes ttl now_ms =
        (.ok (), v'.touch settings i e (ttl.or settings.default_ttl_secs) now_ms) ∧
      Spares hi seen v v' ∧ e.key = key := by
  have hput {v₁ v₂ : View} (h : Spares hi seen v v₁) (hr : v₁.reserve settings
      (ENTRY_OVERHEAD + key.length + bytes) = .ok v₂) : Spares hi seen v v₂.numbered :=
    (h.trans (spares_reserve hr)).trans (spares_of_maps rfl rfl (fun _ => rfl))
  unfold insert
  dsimp only
  split
  · exact .inl ⟨_, v, rfl, Spares.refl v⟩
  · rcases hr : v.reserve settings (ENTRY_OVERHEAD + key.length + bytes) with refusal | v₁
    · have hpurge : Spares hi seen v (v.purge i now_ms).2 := spares_purge hnow hk
      rcases hp : v.purge i now_ms with ⟨_ | _, v₁⟩
      · rw [hp] at hpurge
        exact .inl ⟨_, v₁, rfl, hpurge⟩
      · rw [hp] at hpurge
        dsimp only
        rcases hr' : v₁.reserve settings (ENTRY_OVERHEAD + key.length + bytes) with refusal | v₂
        · exact .inl ⟨_, v₁, rfl, hpurge⟩
        · exact .inr ⟨v₂.numbered, _, rfl, hput hpurge hr', rfl⟩
    · exact .inr ⟨v₁.numbered, _, rfl, hput (Spares.refl v) hr, rfl⟩

theorem spares_ticked (v : View) : Spares hi seen v v.ticked := (idle_ticked v).spares

theorem spares_note_used (v : View) (i : Fin SHARDS) : Spares hi seen v (v.note_used i) :=
  (idle_note_used v i).spares

/-- The start of a call: it reads the clock, and takes its key out where that has expired. -/
theorem spares_found (seen key : Key) (hk : v.Keyed) (hnow : v.now < hi) :
    Spares hi seen v (v.ticked.expireFound (v.ns.shard_of key) key v.now) := by
  have hticked : Spares hi seen v v.ticked := spares_ticked v
  exact hticked.trans (spares_expireFound (hticked.keyed hk) hnow)

theorem spares_refuse (refusal : Refusal) (message : String) :
    Spares hi seen v (v.refuse refusal message).2 :=
  (idle_refuse v refusal message).spares

theorem spares_incr (est : Estimate) (hk : v.Keyed) (hnow : now_ms < hi) (hne : key ≠ seen)
    (hi' : v.ns.shard_of key = i) (by_ : Int64) (ttl : Option Nat) :
    Spares hi seen v (v.applyLive est settings (.Incr key by_ ttl) i now_ms).2 := by
  unfold applyLive
  dsimp only [op_key]
  rcases hget : (v.shard i).map[key]? with _ | e
  · dsimp only
    unfold inserted
    rcases insert_cases settings seen key i hk hnow (counter by_) NUMBER_BYTES ttl with
      ⟨refusal, v', heq, hspares⟩ | ⟨v', e, heq, hspares, hkey⟩
    · rw [heq]
      exact hspares
    · rw [heq]
      refine hspares.trans (spares_touch e (hkey ▸ hne) ?_ _)
      rw [hspares.shard_of, hkey, hi']
  · have hkey : e.key = key := hk _ key e hget
    dsimp only
    split
    · split
      · exact spares_touch _ (hkey ▸ hne) (hkey ▸ hi') _
      · exact spares_refuse .Other ""
      · exact spares_refuse .Other ""
    · exact spares_refuse .WrongType ""

theorem spares_attempt (est : Estimate) (hk : v.Keyed) (hnow : v.now < hi) (hne : key ≠ seen)
    (by_ : Int64) (ttl : Option Nat) :
    Spares hi seen v (v.attempt est settings (.Incr key by_ ttl)).2 := by
  have hfound := spares_found seen key hk hnow
  have hof := congrFun hfound.shard_of key
  exact (hfound.trans (spares_incr est (hfound.keyed hk) hnow hne hof by_ ttl)).trans
    (spares_note_used _ _)

theorem spares_count (est : Estimate) (hk : v.Keyed) (hnow : v.now < hi) (hne : key ≠ seen) :
    Spares hi seen v (v.count est settings key).2 := by
  have hfound := spares_found seen key hk hnow
  unfold count
  dsimp only
  rcases hget : ((v.ticked.expireFound (v.ns.shard_of key) key v.now).shard
      (v.ns.shard_of key)).map[key]? with _ | e
  · exact hfound.trans (spares_note_used _ _)
  · have hkey : e.key = key := hfound.keyed hk _ key e hget
    dsimp only
    split
    · refine (hfound.trans ?_).trans (spares_note_used _ _)
      refine spares_touch e (hkey ▸ hne) ?_ _
      rw [hfound.shard_of, hkey]
    · exact hfound.trans (spares_refuse .WrongType "")

/-! ## The entry of the idempotency key -/

theorem Lasts.spares (h : Lasts hi seen v) (hs : Spares hi seen v v') : Lasts hi seen v' := by
  obtain ⟨e, hget, hexp⟩ := h
  rcases hs.entry with heq | ⟨-, e', t, hget', ht, hexp'⟩
  · exact ⟨e, heq.trans hget, hexp⟩
  · rw [hget] at hget'
    cases hget'
    have := expires_of_expired hexp'
    omega

theorem Over.spares (h : Over lo seen v) (hs : Spares hi seen v v') : Over lo seen v' := by
  intro e he
  rcases hs.entry with heq | ⟨hnone, -⟩
  · exact h e (heq.symm.trans he)
  · rw [hnone] at he
    cases he

theorem remember_lasts (hk : v.Keyed) (hnow : v.now < hi) (h : Lasts hi seen v) :
    ∃ v', v.remember settings seen = (.ok (.Done false), v') ∧ Lasts hi seen v' ∧ v'.Keyed ∧
      v'.sh.clock = v.sh.clock := by
  have hfound := spares_found seen seen hk hnow
  obtain ⟨e, hget, hexp⟩ := h.spares hfound
  have hkey : e.key = seen := hfound.keyed hk _ seen e hget
  have hof := hfound.shard_of
  unfold get at hget
  rw [hof] at hget
  generalize hw : v.ticked.expireFound (v.ns.shard_of seen) seen v.now = w at *
  have hon : Onward w (w.touch settings (v.ns.shard_of seen) e none v.now) := onward_touch _ _ _ _
  have hnote : Spares hi seen _ ((w.touch settings (v.ns.shard_of seen) e none v.now).note_used
      (v.ns.shard_of seen)) := spares_note_used _ _
  refine ⟨_, ?_, Lasts.spares ⟨e.touched settings w.ns.tick none v.now, ?_, hexp⟩ hnote,
    hnote.keyed (keyed_touch (hfound.keyed hk) _ e none),
    hnote.clock.trans (hon.clock.trans hfound.clock)⟩
  · unfold remember
    simp only [hw, hget]
  · have hi' : v.ns.shard_of seen = w.ns.shard_of e.key := by rw [hof, hkey]
    rw [hi', get_touch, if_pos hkey]

theorem expires_at_mono {t t' : Nat} (h : t ≤ t') (secs : Nat) :
    expires_at t secs ≤ expires_at t' secs := by
  unfold expires_at add_saturating
  omega

/-- An entry that is past its expiry is out of the way of the call that finds it. -/
theorem found_over (hk : v.Keyed) (h : Over lo seen v) (hlo : lo ≤ v.now) :
    (v.ticked.expireFound (v.ns.shard_of seen) seen v.now).get seen = none := by
  have hticked : v.ticked.get seen = v.get seen := (idle_ticked v).get seen
  unfold expireFound
  rcases hget : v.get seen with _ | e
  · rw [if_neg]
    · rw [hticked, hget]
    · have hmap : (v.ticked.shard (v.ns.shard_of seen)).map[seen]? = none := hget
      simp [hmap]
  · have hmap : (v.ticked.shard (v.ns.shard_of seen)).map[seen]? = some e := hget
    have hkey : e.key = seen := hk _ seen e hmap
    have hexp : e.expired v.now = true := expired_mono (h e hget) hlo
    rw [if_pos (by simp [hmap, hexp])]
    unfold expire Shard.take
    rw [hmap]
    dsimp only
    have hsame : v.ticked.ns.shard_of seen = v.ns.shard_of seen := rfl
    split
    · rw [get_setShard, if_pos hsame]
      show ((v.ticked.shard _).without e).map[seen]? = none
      rw [Shard.get_without, if_pos hkey]
    · show (v.ticked.setShard _ ((v.ticked.shard _).without e)).get seen = none
      rw [get_setShard, if_pos hsame, Shard.get_without, if_pos hkey]

theorem remember_over (hk : v.Keyed) (hlo : lo ≤ v.now)
    (hnow : v.now < expires_at lo settings.dedupe_window_secs) (h : Over lo seen v) :
    ∃ r v', v.remember settings seen = (.ok r, v') ∧ v'.Keyed ∧ v'.sh.clock = v.sh.clock ∧
      ((∃ refusal, r = .NeedRoom refusal) ∧
          Spares (expires_at lo settings.dedupe_window_secs) seen v v' ∨
        r = .Done true ∧ Lasts (expires_at lo settings.dedupe_window_secs) seen v') := by
  have hfound := spares_found seen seen hk hnow
  have hnone := found_over hk h hlo
  have hof := hfound.shard_of
  unfold get at hnone
  rw [hof] at hnone
  generalize hw : v.ticked.expireFound (v.ns.shard_of seen) seen v.now = w at *
  rcases insert_cases settings seen seen (v.ns.shard_of seen) (hfound.keyed hk) hnow
      (first (int_of v.now)) NUMBER_BYTES (some settings.dedupe_window_secs) with
    ⟨refusal, v', heq, hspares⟩ | ⟨v', e, heq, hspares, hkey⟩
  · have hall := (hfound.trans hspares).trans (spares_note_used v' (v.ns.shard_of seen))
    refine ⟨_, _, ?_, hall.keyed hk, hall.clock, .inl ⟨⟨refusal, rfl⟩, hall⟩⟩
    unfold remember
    simp only [hw, hnone, heq]
  · have hon : Onward v' (v'.touch settings (v.ns.shard_of seen) e
        (some settings.dedupe_window_secs) v.now) := onward_touch _ _ _ _
    have hnote : Spares (expires_at lo settings.dedupe_window_secs) seen _
        ((v'.touch settings (v.ns.shard_of seen) e (some settings.dedupe_window_secs)
          v.now).note_used (v.ns.shard_of seen)) := spares_note_used _ _
    have hi' : v.ns.shard_of seen = v'.ns.shard_of e.key := by
      rw [hspares.shard_of, hof, hkey]
    refine ⟨_, _, ?_, hnote.keyed (keyed_touch (hspares.keyed (hfound.keyed hk)) _ e _),
      hnote.clock.trans (hon.clock.trans (hspares.clock.trans hfound.clock)),
      .inr ⟨rfl, Lasts.spares ⟨e.touched settings v'.ns.tick
        (some settings.dedupe_window_secs) v.now, ?_, .inr (expires_at_mono hlo _)⟩ hnote⟩⟩
    · unfold remember
      simp only [hw, hnone, heq]
      rfl
    · rw [hi', get_touch, if_pos hkey]

/-- The entry is taken out. -/
theorem forgotten_over (lo : Nat) (seen : Key) (hk : v.Keyed) :
    Over lo seen ((v.remove (v.ns.shard_of seen) seen).2.note_used (v.ns.shard_of seen)) ∧
    ((v.remove (v.ns.shard_of seen) seen).2.note_used (v.ns.shard_of seen)).Keyed ∧
    ((v.remove (v.ns.shard_of seen) seen).2.note_used (v.ns.shard_of seen)).sh.clock =
      v.sh.clock := by
  have hidle := idle_note_used (v.remove (v.ns.shard_of seen) seen).2 (v.ns.shard_of seen)
  have hremoved : (v.remove (v.ns.shard_of seen) seen).2.get seen = none ∧
      (v.remove (v.ns.shard_of seen) seen).2.Keyed ∧
      (v.remove (v.ns.shard_of seen) seen).2.sh.clock = v.sh.clock := by
    unfold remove Shard.take
    rcases hget : (v.shard (v.ns.shard_of seen)).map[seen]? with _ | e
    · exact ⟨hget, hk, rfl⟩
    · have hkey : e.key = seen := hk _ seen e hget
      refine ⟨?_, ?_, rfl⟩
      · show (v.setShard _ ((v.shard _).without e)).get seen = none
        rw [get_setShard, if_pos rfl, Shard.get_without, if_pos hkey]
      · intro j k x hx
        change ((v.setShard _ ((v.shard _).without e)).shard j).map[k]? = some x at hx
        rw [map_setShard] at hx
        split at hx
        · rw [Shard.get_without] at hx
          split at hx
          · cases hx
          · exact hk _ k x hx
        · exact hk j k x hx
  obtain ⟨hget, hkeyed, hclock⟩ := hremoved
  have hspares : Spares 0 seen _ _ := hidle.spares
  refine ⟨fun e he => ?_, hspares.keyed hkeyed, hidle.clock.trans hclock⟩
  rw [hidle.get, hget] at he
  cases he

end View

end mqttd.rule_state.local_store
