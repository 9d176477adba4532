-- A local namespace refines the plain map: while no key is refused or evicted for room, every
-- call answers what the plain map answers, and what is in the maps is what the plain map
-- holds, but for keys that have expired and were found.
import MqttBroker.RuleState.LocalCalls

namespace mqttd.rule_state.local_store

open mqtt_rules BTreeMap

/-! ## What the two sides share -/

/-- What is in the maps is in the plain map, and what the plain map holds live is in the maps. -/
structure Agrees (v : View) (m : Plain) : Prop where
  same : ∀ {key e}, v.get key = some e → m key = some (heldOf e)
  live : ∀ {key h}, m key = some h → h.expired v.last = false → ∃ e, v.get key = some e

def Unrefused (ns : Namespace) : Prop :=
  ns.evicted = 0 ∧ ∀ refusal : Refusal, refusal.Full → ns.refused refusal = 0

variable {v v' : View} {m : Plain} {key : Key} {e : Entry} {settings : NamespaceSettings}
  {others t lo : Nat} {left : Option Wrote} {α : Type}

open View

theorem expired_heldOf (e : Entry) (t : Nat) : (heldOf e).expired t = e.expired t := rfl

theorem held_expired_mono {h : Held} {t t' : Nat} (hlive : h.expired t' = false) (ht : t ≤ t') :
    h.expired t = false := by
  unfold Held.expired at hlive ⊢
  simp only [Bool.and_eq_false_iff, decide_eq_false_iff_not] at hlive ⊢
  omega

theorem Agrees.onward (h : Agrees v m) (hon : Onward v v') (hclock : Monotone v.sh.clock)
    (hget : ∀ k, v'.get k = v.get k) : Agrees v' m where
  same hk := h.same (hget _ ▸ hk)
  live hk hlive := by
    rw [hget]
    exact h.live hk (held_expired_mono hlive (hon.last_le hclock))

theorem Agrees.lapses (h : Agrees v m) (hlapses : Lapses lo v v') (hclock : Monotone v.sh.clock) :
    Agrees v' m where
  same {k e} hk := by
    rcases hlapses.get hclock k with heq | ⟨hnone, -⟩
    · exact h.same (heq ▸ hk)
    · rw [hnone] at hk
      cases hk
  live {k held} hk hlive := by
    obtain ⟨e, he⟩ := h.live hk
      (held_expired_mono hlive (hlapses.onward.last_le hclock))
    rcases hlapses.get hclock k with heq | ⟨-, e', he', hexp⟩
    · exact ⟨e, heq.trans he⟩
    · -- A key that went out has expired, and is absent from the plain map too.
      have hheld := h.same he'
      rw [hk] at hheld
      cases hheld
      rw [expired_heldOf, hexp] at hlive
      cases hlive

theorem Agrees.live_eq (h : Agrees v m)
    (hlive : ∀ e, v.get key = some e → e.expired v.last = false) :
    m.live key v.last = (v.get key).map heldOf := by
  unfold Plain.live
  rcases hget : v.get key with _ | e
  · rcases hm : m key with _ | held
    · rfl
    · rcases hexp : held.expired v.last with _ | _
      · obtain ⟨e, he⟩ := h.live hm hexp
        rw [hget] at he
        cases he
      · simp [hexp]
  · rw [h.same hget]
    simp [expired_heldOf, hlive e hget]

/-! ## What a call leaves -/

theorem heldOf_left (v : View) (e : Entry) (w : Wrote) :
    heldOf (v.left settings e w t) =
      { data := w.data, bytes := w.bytes
        expires_ms := expiryAfter settings (some (heldOf e)) w.ttl t
        lru := decide (e.used ≠ 0) || decide (settings.eviction = .Lru) } := by
  obtain ⟨data, bytes, ttl⟩ := w
  cases ttl <;> cases hev : settings.eviction <;>
    simp [heldOf, View.left, rewritten, Entry.touched, Entry.expiresAfter, Entry.data_bytes,
      expiryAfter, hev]

theorem heldOf_newborn (v : View) (key : Key) (w : Wrote) :
    heldOf (v.newborn settings key w t) =
      { data := w.data, bytes := w.bytes
        expires_ms := expiryAfter settings none w.ttl t
        lru := decide (settings.eviction = .Lru) } := by
  obtain ⟨data, bytes, ttl⟩ := w
  cases ttl <;> cases hdef : settings.default_ttl_secs <;> cases hev : settings.eviction <;>
    simp [heldOf, View.newborn, View.fresh, Entry.touched, Entry.expiresAfter, Entry.data_bytes,
      expiryAfter, hev, hdef]

theorem Agrees.update (h : Agrees v m) (hon : Onward v v') (hclock : Monotone v.sh.clock)
    (held : Option Entry)
    (hget : ∀ k, v'.get k = if key = k then held else v.get k) :
    Agrees v' (Function.update m key (held.map heldOf)) where
  same {k e} hk := by
    rw [hget] at hk
    by_cases hkey : key = k
    · subst hkey
      rw [if_pos rfl] at hk
      rw [Function.update_self, hk]
      rfl
    · rw [if_neg hkey] at hk
      rw [Function.update_of_ne (Ne.symm hkey)]
      exact h.same hk
  live {k held'} hk hlive := by
    rw [hget]
    by_cases hkey : key = k
    · subst hkey
      rw [Function.update_self] at hk
      obtain ⟨e, he, -⟩ := Option.map_eq_some_iff.mp hk
      exact ⟨e, by rw [if_pos rfl]; exact he⟩
    · rw [Function.update_of_ne (Ne.symm hkey)] at hk
      rw [if_neg hkey]
      exact h.live hk (held_expired_mono hlive (hon.last_le hclock))

theorem Agrees.use (h : Agrees v m) (huse : Use settings key t left v v')
    (hclock : Monotone v.sh.clock) (hlive : m.live key t = (v.get key).map heldOf) :
    Agrees v' (m.put settings key left t) := by
  have hon := huse.onward
  unfold Plain.put
  dsimp only
  rw [hlive]
  cases huse with
  | absent hnone =>
    apply h.update hon hclock none
    intro k
    by_cases hk : key = k
    · subst hk
      rw [if_pos rfl, hnone]
    · rw [if_neg hk]
  | drop e hkey hget hexp =>
    subst hkey
    exact h.update hon hclock none (get_dropped v e)
  | write e w hkey hget hexp =>
    subst hkey
    have hleft := @heldOf_left settings t v e w
    rw [hget]
    have := h.update hon hclock (some (v.left settings e w t)) (get_wrote v e w)
    rw [Option.map_some, hleft] at this
    simpa [heldOf] using this
  | new w hnone hroom =>
    have hnew := @heldOf_newborn settings t v key w
    rw [hnone]
    have := h.update hon hclock (some (v.newborn settings key w t)) (get_began hroom key w)
    rw [Option.map_some, hnew] at this
    simpa using this

/-! ## Attempts and calls -/

theorem Agrees.tries {r : Option Held → Nat → Verdict α} {out : Answer α} (h : Agrees v m)
    (hclock : Monotone v.sh.clock) (htries : Tries settings key r v (finished out)) :
    out.1 = (m.settle settings key v.now (r (m.live key v.now) v.now)).1 ∧
      Agrees out.2 (m.settle settings key v.now (r (m.live key v.now) v.now)).2 ∧
      v.sh.reads < out.2.sh.reads := by
  obtain ⟨v₁, hlapses, hreads, hlive, hcomes⟩ := htries
  have hon := hlapses.onward
  have hclock₁ : Monotone v₁.sh.clock := hon.clock ▸ hclock
  have hlast : v₁.last = v.now := by
    unfold last now
    rw [hreads, hon.clock]
    rfl
  have h₁ := h.lapses hlapses hclock
  have hseen : m.live key v.now = (v₁.get key).map heldOf := by
    rw [← hlast]
    exact h₁.live_eq (hlast ▸ hlive)
  rw [hseen]
  obtain ⟨err | a, v'⟩ := out
  · cases hcomes with
    | refused hr hlapses' =>
      rw [hr]
      exact ⟨rfl, h₁.lapses hlapses' hclock₁,
        (Nat.lt_of_succ_le hreads.ge).trans_le hlapses'.onward.reads_le⟩
  · cases hcomes with
    | done hr hlapses' hsame huse hidle =>
      rw [hr]
      have hon' := hlapses'.onward
      have hclock₂ := hon'.clock ▸ hclock₁
      have h₂ := (h₁.lapses hlapses' hclock₁).use huse hclock₂ (by rw [hseen, hsame])
      refine ⟨rfl, h₂.onward hidle.toOnward (huse.onward.clock ▸ hclock₂) hidle.get, ?_⟩
      have hle := hon'.reads_le.trans (huse.onward.reads_le.trans hidle.reads_le)
      exact (Nat.lt_of_succ_le hreads.ge).trans_le hle

theorem Agrees.ends {r : Option Held → Nat → Verdict α} {out : Answer α} (h : Agrees v m)
    (hclock : Monotone v.sh.clock) (hends : Ends settings key r v out)
    (hun : Unrefused out.2.ns) :
    ∃ i, v.sh.reads ≤ i ∧ i < out.2.sh.reads ∧
      out.1 = (m.settle settings key (v.sh.clock i) (r (m.live key (v.sh.clock i))
        (v.sh.clock i))).1 ∧
      Agrees out.2 (m.settle settings key (v.sh.clock i) (r (m.live key (v.sh.clock i))
        (v.sh.clock i))).2 := by
  rcases hends with ⟨v₀, hlapses, htries⟩ | hcount | ⟨refusal, hfull, hcount⟩
  · have hon := hlapses.onward
    have hnow : v₀.now = v.sh.clock v₀.sh.reads := by
      unfold now
      rw [hon.clock]
    obtain ⟨hanswer, hagrees, hlt⟩ := (h.lapses hlapses hclock).tries (hon.clock ▸ hclock) htries
    rw [hnow] at hanswer hagrees
    exact ⟨v₀.sh.reads, hon.reads_le, hlt, hanswer, hagrees⟩
  · rw [hun.1] at hcount
    omega
  · rw [hun.2 refusal hfull] at hcount
    omega

theorem Unrefused.before (hon : Onward v v') (h : Unrefused v'.ns) : Unrefused v.ns :=
  ⟨Nat.le_zero.mp (h.1 ▸ hon.evicted_le),
    fun refusal hfull => Nat.le_zero.mp (h.2 refusal hfull ▸ hon.refused_le refusal)⟩

theorem onward_forget (hs : Sound others v) (seen : Key) (i : Fin SHARDS) :
    Onward v ((v.remove (v.ns.shard_of seen) seen).2.note_used i) := by
  have hidle := idle_note_used (v.remove (v.ns.shard_of seen) seen).2 i
  refine Onward.trans ?_ hidle.toOnward
  rcases hget : v.get seen with _ | e
  · rw [remove_none hget]
    exact Onward.refl v
  · rw [remove_some hs hget]
    exact onward_dropped v e

theorem Agrees.forget (h : Agrees v m) (hs : Sound others v) (hclock : Monotone v.sh.clock)
    (seen : Key) (i : Fin SHARDS) :
    Agrees ((v.remove (v.ns.shard_of seen) seen).2.note_used i) (Function.update m seen none) := by
  have hidle := idle_note_used (v.remove (v.ns.shard_of seen) seen).2 i
  rcases hget : v.get seen with _ | e
  · have hremove : (v.remove (v.ns.shard_of seen) seen).2 = v := by rw [remove_none hget]
    rw [hremove] at hidle ⊢
    apply h.update hidle.toOnward hclock none
    intro k
    rw [hidle.get]
    by_cases hk : seen = k
    · subst hk
      rw [if_pos rfl, hget]
    · rw [if_neg hk]
  · have hkey := key_of_get hs hget
    have hremove : (v.remove (v.ns.shard_of seen) seen).2 = v.dropped e := by
      rw [remove_some hs hget]
    rw [hremove] at hidle ⊢
    subst hkey
    apply h.update ((onward_dropped v e).trans hidle.toOnward) hclock none
    intro k
    rw [hidle.get, get_dropped]

theorem Agrees.room (h : Agrees v m) (est : Estimate) (hs : Sound others v)
    (hclock : Monotone v.sh.clock) (op : StateOp)
    (hop : ∀ key by_ ttl once, op ≠ .IncrOnce key by_ ttl once)
    (hun : Unrefused (v.with_room settings (View.attempt est settings op)).2.ns) :
    ∃ i, v.sh.reads ≤ i ∧ i < (v.with_room settings (View.attempt est settings op)).2.sh.reads ∧
      (v.with_room settings (View.attempt est settings op)).1 =
        (m.apply est settings op (v.sh.clock i)).1 ∧
      Agrees (v.with_room settings (View.attempt est settings op)).2
        (m.apply est settings op (v.sh.clock i)).2 :=
  h.ends hclock (room_tries est op hop settings hs hclock).2 hun

theorem Agrees.incr_once (h : Agrees v m) (est : Estimate) (hs : Sound others v)
    (hclock : Monotone v.sh.clock) (key : Key) (by_ : Int64) (ttl : Option Nat) (once : Key)
    (hun : Unrefused (v.incr_once est settings key by_ ttl once).2.ns) :
    ∃ i j, v.sh.reads ≤ i ∧ i ≤ j ∧ j < (v.incr_once est settings key by_ ttl once).2.sh.reads ∧
      (v.incr_once est settings key by_ ttl once).1 =
        (m.incr_once est settings key by_ ttl once (v.sh.clock i) (v.sh.clock j)).1 ∧
      Agrees (v.incr_once est settings key by_ ttl once).2
        (m.incr_once est settings key by_ ttl once (v.sh.clock i) (v.sh.clock j)).2 := by
  obtain ⟨hmoves, hends⟩ := room_remembers (remembered_of once) settings hs hclock
  unfold View.incr_once Plain.incr_once Plain.remember at *
  dsimp only at hun ⊢
  generalize v.with_room settings (View.remember settings (remembered_of once)) = out
    at hmoves hends hun ⊢
  have hs₁ := hmoves.sound hs
  have hclock₁ : Monotone out.2.sh.clock := hmoves.onward.clock ▸ hclock
  obtain ⟨err | first, v₁⟩ := out
  · obtain ⟨i, hle, hlt, hanswer, hagrees⟩ := h.ends hclock hends hun
    refine ⟨i, i, hle, le_refl i, hlt, ?_⟩
    generalize m.settle settings (remembered_of once) (v.sh.clock i) _ = plain at hanswer hagrees ⊢
    obtain ⟨answer, m₁⟩ := plain
    dsimp only at hanswer hagrees
    subst hanswer
    exact ⟨rfl, hagrees⟩
  · cases first with
    | false =>
      have htries : Tries settings key _ v₁ _ := count_tries est hs₁ hclock₁ key
      obtain ⟨i, hle, hlt, hanswer, hagrees⟩ := h.ends hclock hends
        (Unrefused.before (htries.moves hclock₁).onward hun)
      have hnow : v₁.now = v.sh.clock v₁.sh.reads := by
        unfold now
        rw [hmoves.onward.clock]
      refine ⟨i, v₁.sh.reads, hle, hlt.le, ?_⟩
      generalize m.settle settings (remembered_of once) (v.sh.clock i) _ = plain
        at hanswer hagrees ⊢
      obtain ⟨answer, m₁⟩ := plain
      dsimp only at hanswer hagrees
      subst hanswer
      obtain ⟨hanswer', hagrees', hlt'⟩ := hagrees.tries hclock₁ htries
      rw [hnow] at hanswer' hagrees'
      exact ⟨hlt', hanswer', hagrees'⟩
    | true =>
      obtain ⟨hincr, hends'⟩ := room_tries est (.Incr key by_ ttl)
        (fun _ _ _ _ => StateOp.noConfusion) settings hs₁ hclock₁
      dsimp only at hun ⊢
      generalize v₁.with_room settings (View.attempt est settings (.Incr key by_ ttl)) = out
        at hincr hends' hun ⊢
      have hs₂ := hincr.sound hs₁
      have hclock₂ : Monotone out.2.sh.clock := hincr.onward.clock ▸ hclock₁
      have hun₂ : Unrefused out.2.ns := by
        obtain ⟨err | reply, v₂⟩ := out
        · exact Unrefused.before (onward_forget hs₂ _ _) hun
        · exact hun
      obtain ⟨i, hle, hlt, hanswer, hagrees⟩ := h.ends hclock hends
        (Unrefused.before hincr.onward hun₂)
      generalize hplain : m.settle settings (remembered_of once) (v.sh.clock i) _ = plain
        at hanswer hagrees
      obtain ⟨answer, m₁⟩ := plain
      dsimp only at hanswer hagrees
      subst hanswer
      obtain ⟨j, hle', hlt', hanswer', hagrees'⟩ := hagrees.ends hclock₁ hends' hun₂
      have hclock' : v₁.sh.clock = v.sh.clock := hmoves.onward.clock
      rw [hclock'] at hanswer' hagrees'
      refine ⟨i, j, hle, hlt.le.trans hle', ?_⟩
      rw [hplain]
      dsimp only
      unfold Plain.apply
      generalize m₁.settle settings (op_key (.Incr key by_ ttl)) (v.sh.clock j) _ = plain'
        at hanswer' hagrees' ⊢
      obtain ⟨answer', m₂⟩ := plain'
      obtain ⟨err | reply, v₂⟩ := out
      · dsimp only at hanswer' hagrees' hlt' ⊢
        subst hanswer'
        refine ⟨?_, rfl, hagrees'.forget hs₂ hclock₂ _ _⟩
        exact hlt'.trans_le (onward_forget hs₂ _ _).reads_le
      · dsimp only at hanswer' hagrees' hlt' ⊢
        subst hanswer'
        exact ⟨hlt', rfl, hagrees'⟩

theorem Agrees.call (h : Agrees v m) (est : Estimate) (hs : Sound others v)
    (hclock : Monotone v.sh.clock) (op : StateOp)
    (hun : Unrefused (v.call est settings op).2.ns) :
    ∃ i j, v.sh.reads ≤ i ∧ i ≤ j ∧ j < (v.call est settings op).2.sh.reads ∧
      (v.call est settings op).1 = (m.call est settings op (v.sh.clock i) (v.sh.clock j)).1 ∧
      Agrees (v.call est settings op).2
        (m.call est settings op (v.sh.clock i) (v.sh.clock j)).2 := by
  by_cases hop : ∃ key by_ ttl once, op = .IncrOnce key by_ ttl once
  · obtain ⟨key, by_, ttl, once, rfl⟩ := hop
    exact h.incr_once est hs hclock key by_ ttl once hun
  · have hop : ∀ key by_ ttl once, op ≠ .IncrOnce key by_ ttl once :=
      fun key by_ ttl once heq => hop ⟨key, by_, ttl, once, heq⟩
    have hcall : v.call est settings op = v.with_room settings (View.attempt est settings op) := by
      cases op with
      | IncrOnce key by_ ttl once => exact absurd rfl (hop key by_ ttl once)
      | _ => rfl
    have hplain : ∀ i j, m.call est settings op i j = m.apply est settings op i := by
      cases op with
      | IncrOnce key by_ ttl once => exact absurd rfl (hop key by_ ttl once)
      | _ => exact fun _ _ => rfl
    rw [hcall] at hun ⊢
    obtain ⟨i, hle, hlt, hanswer, hagrees⟩ := h.room est hs hclock op hop hun
    refine ⟨i, i, hle, le_refl i, hlt, ?_⟩
    rw [hplain]
    exact ⟨hanswer, hagrees⟩

end mqttd.rule_state.local_store
