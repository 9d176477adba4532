-- What a call does: it makes of its key what the plain map says, or it asks for room. The
-- cases of the thirteen operations are gone through once, in `applyLive_eq`; everything
-- after it is about verdicts.
import MqttBroker.RuleState.LocalRoom

namespace mqttd.rule_state.local_store

open mqtt_rules BTreeMap

/-- What an entry holds, as the plain map has it. -/
def heldOf (e : Entry) : Held :=
  { data := e.data, bytes := e.data_bytes, expires_ms := e.expires_ms, lru := decide (e.used ≠ 0) }

/-- The bounds that are in the way of a new key. -/
def Refusal.Full (r : Refusal) : Prop := r = .NamespaceFull ∨ r = .StoreFull ∨ r = .Brownout

namespace View

variable {v v' : View} {i : Fin SHARDS} {e : Entry} {others : Nat} {key : Key} {t lo now_ms : Nat}
  {settings : NamespaceSettings} {α : Type}

/-! ## A verdict carried out -/

def execute (v : View) (settings : NamespaceSettings) (key : Key) (now_ms : Nat) :
    Verdict α → Answer (Step α)
  | .error (refusal, message) => v.refusedOther refusal message
  | .ok result =>
    match result.left, v.get key with
    | none, none => (.ok (.Done result.reply), v)
    | none, some e => (.ok (.Done result.reply), v.dropped e)
    | some w, some e => (.ok (.Done result.reply), v.wrote settings e w now_ms)
    | some w, none =>
      match v.insert settings (v.ns.shard_of key) key w.data w.bytes w.ttl now_ms with
      | (.ok (), v) => (.ok (.Done result.reply), v)
      | (.error refusal, v) => (.ok (.NeedRoom refusal), v)

theorem touch_eq_wrote (hsized : ENTRY_OVERHEAD + e.key.length ≤ e.bytes) (data : Data)
    (ttl : Option Nat) :
    v.touch settings (v.ns.shard_of e.key) { e with data } ttl t =
      v.wrote settings e { data, bytes := e.data_bytes, ttl } t := by
  have hbytes : ENTRY_OVERHEAD + e.key.length + e.data_bytes = e.bytes := by
    unfold Entry.data_bytes
    omega
  have hentry : rewritten e { data, bytes := e.data_bytes, ttl } = { e with data } := by
    simp [rewritten, hbytes]
  have hview : v.resized e { data, bytes := e.data_bytes, ttl } = v := by
    simp [resized, View.resize, hbytes]
  rw [wrote_eq, hentry, hview]

/-- A write is what the plain map says, where the sizes are the same. -/
theorem write_eq_wrote {bytes size : Nat} (h : bytes = ENTRY_OVERHEAD + e.key.length + size)
    (data : Data) (ttl : Option Nat) :
    v.write settings (v.ns.shard_of e.key) e data bytes ttl t =
      v.wrote settings e { data, bytes := size, ttl } t := by
  subst h
  rfl

theorem inserted_eq (h : v.get key = none) (data : Data) (bytes : Nat) (ttl : Option Nat)
    (reply : Option Value) :
    v.inserted settings (v.ns.shard_of key) key data bytes ttl t reply =
      v.execute settings key t (Verdict.sets reply data bytes ttl) := by
  unfold inserted execute Verdict.sets Verdict.replies
  simp only [h]
  rfl

theorem execute_absent (h : v.get key = none) (value : Option Value) :
    v.execute settings key t (Verdict.replies value none) = (.ok (done value), v) := by
  unfold execute Verdict.replies
  simp only [h]
  rfl

variable (est : Estimate)

theorem applyLive_absent (op : StateOp) (h : v.get (op_key op) = none)
    (hop : ∀ key by_ ttl once, op ≠ .IncrOnce key by_ ttl once) :
    v.applyLive est settings op (v.ns.shard_of (op_key op)) t =
      v.execute settings (op_key op) t (verdict est op none t) := by
  have hmap : (v.shard (v.ns.shard_of (op_key op))).map[op_key op]? = none := h
  cases op with
  | Get key | Ttl key | HllCount key =>
    simp only [op_key] at h hmap ⊢
    simp only [applyLive, op_key, hmap, verdict, execute_absent h]
  | Set key value ttl | SetOnce key value ttl | Incr key by_ ttl | Extreme key value largest ttl
  | Add key element identity ttl | Changed key value ttl | HllAdd key hash ttl =>
    simp only [op_key] at h hmap ⊢
    simp only [applyLive, op_key, hmap, verdict, inserted_eq h]
  | IncrOnce key by_ ttl once => exact absurd rfl (hop key by_ ttl once)
  | Del key =>
    simp only [op_key] at h hmap ⊢
    simp only [applyLive, op_key, verdict, remove_none h, Option.isSome_none, execute_absent h]
  | Held key holds ttl =>
    simp only [op_key] at h hmap ⊢
    cases holds with
    | true => simp only [applyLive, op_key, hmap, verdict, inserted_eq h, ↓reduceIte]
    | false =>
      simp only [applyLive, op_key, hmap, verdict, execute_absent h, Bool.false_eq_true, ↓reduceIte]

theorem execute_sets (h : v.get key = some e) (value : Option Value) (data : Data) (bytes : Nat)
    (ttl : Option Nat) :
    v.execute settings key t (Verdict.sets value data bytes ttl) =
      (.ok (done value), v.wrote settings e { data, bytes, ttl } t) := by
  unfold execute Verdict.sets Verdict.replies
  simp only [h]
  rfl

theorem execute_removes (h : v.get key = some e) (value : Option Value) :
    v.execute settings key t (Verdict.replies value none) = (.ok (done value), v.dropped e) := by
  unfold execute Verdict.replies
  simp only [h]
  rfl

theorem execute_wrongType (v : View) (held : Data) (wanted : String) :
    v.execute settings key t (Verdict.wrongType held wanted : Verdict α) =
      v.refusedType held wanted := rfl

/-- An entry as it is, but for a time to live. -/
theorem touch_eq_keeps (hsized : ENTRY_OVERHEAD + e.key.length ≤ e.bytes) (ttl : Option Nat) :
    v.touch settings (v.ns.shard_of e.key) e ttl t =
      v.wrote settings e { data := e.data, bytes := e.data_bytes, ttl } t :=
  touch_eq_wrote hsized e.data ttl

/-- With an entry, an operation answers and leaves, writes or removes it. -/
theorem applyLive_present (hs : Sound others v) (op : StateOp) (h : v.get (op_key op) = some e)
    (hop : ∀ key by_ ttl once, op ≠ .IncrOnce key by_ ttl once) :
    v.applyLive est settings op (v.ns.shard_of (op_key op)) t =
      v.execute settings (op_key op) t (verdict est op (some (heldOf e)) t) := by
  have hmap : (v.shard (v.ns.shard_of (op_key op))).map[op_key op]? = some e := h
  have hsized := (hs.shards _).sized hmap
  have hkey := key_of_get hs h
  have hremove := remove_some hs h
  have hbytes : ENTRY_OVERHEAD + e.key.length + e.data_bytes = e.bytes := by
    unfold Entry.data_bytes
    omega
  cases op with
  | Get key =>
    simp only [op_key] at h hmap hkey ⊢
    subst hkey
    cases hdata : e.data <;>
      simp only [applyLive, op_key, hmap, touch_eq_keeps hsized, verdict, execute, h, readReply,
        heldOf, hdata]
  | Set key value ttl =>
    simp only [op_key] at h hmap hkey ⊢
    subst hkey
    simp only [applyLive, op_key, hmap, verdict, heldOf]
    cases e.data with
    | Lww stamp held =>
      simp only [execute_sets h, write_eq_wrote rfl]
    | _ => rfl
  | SetOnce key value ttl =>
    simp only [op_key] at h hmap hkey ⊢
    subst hkey
    simp only [applyLive, op_key, hmap, touch_eq_keeps hsized, verdict, heldOf]
    cases hdata : e.data with
    | First stamp held => simp only [execute, h]
    | _ => rfl
  | Incr key by_ ttl =>
    simp only [op_key] at h hmap hkey ⊢
    subst hkey
    simp only [applyLive, op_key, hmap, touch_eq_wrote hsized, verdict, heldOf]
    cases hdata : e.data with
    | Sum counts =>
      dsimp only
      rcases counts.add LOCAL_NODE by_ with err | ⟨sum, counts'⟩
      · cases err <;> rfl
      · simp only [execute_sets h]
    | _ => rfl
  | IncrOnce key by_ ttl once => exact absurd rfl (hop key by_ ttl once)
  | Extreme key value largest ttl =>
    simp only [op_key] at h hmap hkey ⊢
    subst hkey
    simp only [applyLive, op_key, hmap, touch_eq_keeps hsized, verdict, heldOf]
    rcases extremeHeld largest e.data with _ | held
    · rfl
    · dsimp only
      by_cases hwins : wins largest value.value held = true
      · simp only [if_pos hwins, execute_sets h, write_eq_wrote rfl]
      · simp only [if_neg hwins, Verdict.keeps]
        exact (execute_sets h _ _ _ _).symm
  | Add key element identity ttl =>
    simp only [op_key] at h hmap hkey ⊢
    subst hkey
    simp only [applyLive, op_key, hmap, verdict, heldOf]
    cases hdata : e.data with
    | Union elements =>
      dsimp only
      rcases elements.insert identity element.value with _ | ⟨is_new, elements'⟩
      · rfl
      · dsimp only
        rw [execute_sets h]
        refine congrArg (Prod.mk _) (write_eq_wrote ?_ _ _)
        split <;> omega
    | _ => rfl
  | Del key =>
    simp only [op_key] at h hmap hkey hremove ⊢
    simp only [applyLive, op_key, hremove, verdict, Option.isSome_some, execute_removes h]
  | Ttl key =>
    simp only [op_key] at h hmap hkey ⊢
    subst hkey
    simp only [applyLive, op_key, hmap, touch_eq_keeps hsized, verdict, heldOf, Verdict.keeps]
    exact (execute_sets h _ _ _ _).symm
  | Held key holds ttl =>
    simp only [op_key] at h hmap hkey hremove ⊢
    subst hkey
    simp only [applyLive, op_key, hmap, touch_eq_keeps hsized, verdict, heldOf, Verdict.keeps]
    cases hdata : e.data with
    | First stamp since =>
      cases holds with
      | true =>
        cases since with
        | Int since =>
          simp only [↓reduceIte]
          rw [← hdata]
          exact (execute_sets h _ _ _ _).symm
        | _ => rfl
      | false => simp only [Bool.false_eq_true, ↓reduceIte, hremove, execute_removes h]
    | _ => rfl
  | Changed key value ttl =>
    simp only [op_key] at h hmap hkey ⊢
    subst hkey
    simp only [applyLive, op_key, hmap, touch_eq_keeps hsized, verdict, heldOf, Verdict.keeps]
    cases hdata : e.data with
    | Lww stamp held =>
      dsimp only
      by_cases hsame : exact_eq held value.value = true
      · simp only [if_pos hsame]
        rw [← hdata]
        exact (execute_sets h _ _ _ _).symm
      · simp only [if_neg hsame, execute_sets h, write_eq_wrote rfl]
    | _ => rfl
  | HllAdd key hash ttl =>
    simp only [op_key] at h hmap hkey ⊢
    subst hkey
    simp only [applyLive, op_key, hmap, verdict, heldOf]
    cases hdata : e.data with
    | Hll sketch =>
      dsimp only
      rw [execute_sets h]
      refine congrArg (Prod.mk _) (write_eq_wrote ?_ _ _)
      split <;> omega
    | _ => rfl
  | HllCount key =>
    simp only [op_key] at h hmap hkey ⊢
    subst hkey
    simp only [applyLive, op_key, hmap, touch_eq_keeps hsized, verdict, heldOf, Verdict.keeps]
    cases hdata : e.data with
    | Hll sketch =>
      dsimp only
      rw [← hdata]
      exact (execute_sets h _ _ _ _).symm
    | _ => rfl

theorem applyLive_eq (hs : Sound others v) (op : StateOp)
    (hop : ∀ key by_ ttl once, op ≠ .IncrOnce key by_ ttl once) (settings : NamespaceSettings)
    (t : Nat) :
    v.applyLive est settings op (v.ns.shard_of (op_key op)) t =
      v.execute settings (op_key op) t (verdict est op ((v.get (op_key op)).map heldOf) t) := by
  rcases h : v.get (op_key op) with _ | e
  · exact applyLive_absent est op h hop
  · exact applyLive_present est hs op h hop

/-! ## What comes of a verdict -/

/-- What comes of a verdict from `v` on: its refusal, what it leaves in its key, or that there
is no room. -/
inductive Comes (lo : Nat) (settings : NamespaceSettings) (key : Key) (t : Nat) (r : Verdict α)
    (v : View) : Answer (Step α) → Prop
  | refused {refusal : Refusal} {message : String} {v' : View} (hr : r = .error (refusal, message))
      (hlapses : Lapses lo v v') : Comes lo settings key t r v (.error ⟨refusal.reason, message⟩, v')
  | done {result : Result α} {v₁ v₂ v' : View} (hr : r = .ok result) (hlapses : Lapses lo v v₁)
      (hsame : v₁.get key = v.get key) (huse : Use settings key t result.left v₁ v₂)
      (hidle : Idle v₂ v') : Comes lo settings key t r v (.ok (.Done result.reply), v')
  | room {refusal : Refusal} {v' : View} (hfull : refusal.Full) (hlapses : Lapses lo v v') :
      Comes lo settings key t r v (.ok (.NeedRoom refusal), v')

theorem Comes.idle {r : Verdict α} {out : Answer (Step α)} (h : Comes lo settings key t r v out)
    (hidle : Idle out.2 v') : Comes lo settings key t r v (out.1, v') := by
  cases h with
  | refused hr hlapses => exact .refused hr (hlapses.trans hidle.lapses)
  | done hr hlapses hsame huse hidle' => exact .done hr hlapses hsame huse (hidle'.trans hidle)
  | room hfull hlapses => exact .room hfull (hlapses.trans hidle.lapses)

theorem Comes.moves {r : Verdict α} {out : Answer (Step α)} (h : Comes lo settings key t r v out)
    (hlo : lo ≤ t) (hlast : t ≤ v.last) (hclock : Monotone v.sh.clock) : Moves lo v out.2 := by
  cases h with
  | refused hr hlapses => exact hlapses.moves
  | done hr hlapses hsame huse hidle =>
    have huse' : Move lo _ _ := .use t hlo (hlast.trans (hlapses.onward.last_le hclock)) huse
    exact (hlapses.moves.trans huse'.moves).trans hidle.moves
  | room hfull hlapses => exact hlapses.moves

theorem reserve_error {bytes : Nat} {refusal : Refusal}
    (h : v.reserve settings bytes = .error refusal) : refusal.Full := by
  unfold reserve at h
  split at h
  · cases h
    exact .inl rfl
  · split at h
    · cases h
      exact .inl rfl
    · split at h
      · cases h
        exact .inr (.inl rfl)
      · cases h

/-- A new key is begun in the room reserved for it, maybe after a purge. -/
theorem insert_comes (hs : Sound others v) (hclock : Monotone v.sh.clock) (hlo : lo ≤ t)
    (hlast : t ≤ v.last) (h : v.get key = none) (w : Wrote) :
    (∃ v₁ v₂, v.insert settings (v.ns.shard_of key) key w.data w.bytes w.ttl t = (.ok (), v₂) ∧
      Lapses lo v v₁ ∧ v₁.get key = none ∧ Use settings key t (some w) v₁ v₂) ∨
    (∃ refusal v₁, v.insert settings (v.ns.shard_of key) key w.data w.bytes w.ttl t =
      (.error refusal, v₁) ∧ refusal.Full ∧ Lapses lo v v₁) := by
  unfold insert
  dsimp only
  by_cases hbrown : v.sh.brownout = true
  · rw [if_pos hbrown]
    exact .inr ⟨.Brownout, v, rfl, .inr (.inr rfl), .refl⟩
  · rw [if_neg hbrown]
    rcases hroom : v.reserve settings (ENTRY_OVERHEAD + key.length + w.bytes) with refusal | v₁
    · dsimp only
      obtain ⟨hlapses, -⟩ := lapses_purge (i := v.ns.shard_of key) hs hlo hlast
      rcases hpurge : v.purge (v.ns.shard_of key) t with ⟨any, v₁⟩
      rw [hpurge] at hlapses
      cases any with
      | false => exact .inr ⟨refusal, v₁, rfl, reserve_error hroom, hlapses⟩
      | true =>
        dsimp only at hlapses ⊢
        rcases hroom' : v₁.reserve settings (ENTRY_OVERHEAD + key.length + w.bytes) with
          refusal | v₂
        · exact .inr ⟨refusal, v₁, rfl, reserve_error hroom', hlapses⟩
        · have hnone := hlapses.get_of_none hclock h
          have hof : v.ns.shard_of = v₂.ns.shard_of := by
            rw [reserve_eq hroom']
            exact hlapses.onward.shard_of.symm
          refine .inl ⟨v₁, v₂.began settings key w t, ?_, hlapses, hnone, .new w hnone hroom'⟩
          rw [hof]
          rfl
    · refine .inl ⟨v, v₁.began settings key w t, ?_, .refl, h, .new w h hroom⟩
      have hof : v.ns.shard_of = v₁.ns.shard_of := by rw [reserve_eq hroom]
      rw [hof]
      rfl

theorem execute_comes (hs : Sound others v) (hclock : Monotone v.sh.clock) (hlo : lo ≤ t)
    (hlast : t ≤ v.last) (hlive : ∀ e, v.get key = some e → e.expired t = false) (r : Verdict α) :
    Comes lo settings key t r v (v.execute settings key t r) := by
  rcases r with ⟨refusal, message⟩ | ⟨reply, left⟩
  · exact .refused rfl (idle_refuse v refusal message).lapses
  · unfold execute
    rcases left with _ | w <;> rcases hget : v.get key with _ | e <;> dsimp only
    · exact .done rfl .refl rfl (.absent hget) (Idle.refl v)
    · exact .done rfl .refl rfl (.drop e (key_of_get hs hget) hget (hlive e hget)) (Idle.refl _)
    · rcases insert_comes hs hclock hlo hlast hget w with
        ⟨v₁, v₂, heq, hlapses, hnone, huse⟩ | ⟨refusal, v₁, heq, hfull, hlapses⟩
      · rw [heq]
        exact .done rfl hlapses (hnone.trans hget.symm) huse (Idle.refl v₂)
      · rw [heq]
        exact .room hfull hlapses
    · exact .done rfl .refl rfl (.write e w (key_of_get hs hget) hget (hlive e hget)) (Idle.refl _)

/-! ## One attempt -/

/-- One attempt, at one reading of the clock: what is found expired at its key goes, and then
comes what its verdict says. -/
def Tries (settings : NamespaceSettings) (key : Key) (r : Option Held → Nat → Verdict α) (v : View)
    (out : Answer (Step α)) : Prop :=
  ∃ v₁, Lapses v.now v v₁ ∧ v₁.sh.reads = v.sh.reads + 1 ∧
    (∀ e, v₁.get key = some e → e.expired v.now = false) ∧
    Comes v.now settings key v.now (r ((v₁.get key).map heldOf) v.now) v₁ out

theorem ticked_expireFound (hs : Sound others v) (key : Key) :
    Lapses v.now v (v.ticked.expireFound (v.ns.shard_of key) key v.now) ∧
      (v.ticked.expireFound (v.ns.shard_of key) key v.now).sh.reads = v.sh.reads + 1 ∧
      ∀ e, (v.ticked.expireFound (v.ns.shard_of key) key v.now).get key = some e →
        e.expired v.now = false := by
  have htick := idle_ticked v
  obtain ⟨hlapses, hlive⟩ := lapses_expireFound (v := v.ticked) (htick.sound hs) (le_refl v.now)
    (le_of_eq (last_ticked v).symm) key
  refine ⟨htick.lapses.trans hlapses, ?_, hlive⟩
  change (v.ticked.expireFound _ key v.now).sh.reads = v.ticked.sh.reads
  unfold expireFound expire
  split
  · split
    · split <;> rfl
    · rfl
  · rfl

theorem tries_of_execute (hs : Sound others v) (hclock : Monotone v.sh.clock) (key : Key)
    (r : Option Held → Nat → Verdict α) (out : Answer (Step α)) {v₁ v' : View}
    (hv : v.ticked.expireFound (v.ns.shard_of key) key v.now = v₁)
    (hout : out = v₁.execute settings key v.now (r ((v₁.get key).map heldOf) v.now))
    (hidle : Idle out.2 v') : Tries settings key r v (out.1, v') := by
  obtain ⟨hlapses, hreads, hlive⟩ := ticked_expireFound hs key
  rw [hv] at hlapses hreads hlive
  have hon := hlapses.onward
  have hlast : v.now ≤ v₁.last := by
    unfold last now
    rw [hreads, hon.clock]
    exact le_refl _
  refine ⟨v₁, hlapses, hreads, hlive, Comes.idle ?_ hidle⟩
  rw [hout]
  exact execute_comes (hlapses.sound hs) (hon.clock ▸ hclock) (le_refl _) hlast hlive _

theorem attempt_tries (hs : Sound others v) (hclock : Monotone v.sh.clock) (op : StateOp)
    (hop : ∀ key by_ ttl once, op ≠ .IncrOnce key by_ ttl once) :
    Tries settings (op_key op) (verdict est op) v (attempt est settings op v) := by
  obtain ⟨hlapses, -, -⟩ := ticked_expireFound hs (op_key op)
  have heq := applyLive_eq est (hlapses.sound hs) op hop settings v.now
  rw [hlapses.onward.shard_of] at heq
  exact tries_of_execute hs hclock (op_key op) (verdict est op) _ rfl heq (idle_note_used _ _)

theorem remember_tries (hs : Sound others v) (hclock : Monotone v.sh.clock) (seen : Key) :
    Tries settings seen (verdictOnce settings) v (remember settings seen v) := by
  obtain ⟨hlapses, -, -⟩ := ticked_expireFound hs seen
  have hs₁ := hlapses.sound hs
  generalize hv : v.ticked.expireFound (v.ns.shard_of seen) seen v.now = v₁ at hlapses hs₁
  have hof : v.ns.shard_of seen = v₁.ns.shard_of seen := by rw [hlapses.onward.shard_of]
  unfold remember
  dsimp only
  rw [hv, hof]
  rcases hget : v₁.get seen with _ | e
  · have hmap : (v₁.shard (v₁.ns.shard_of seen)).map[seen]? = none := hget
    rw [hmap]
    dsimp only
    rcases hins : v₁.insert settings (v₁.ns.shard_of seen) seen (first (int_of v.now)) NUMBER_BYTES
        (some settings.dedupe_window_secs) v.now with ⟨refusal | ⟨⟩, v₂⟩
    · refine tries_of_execute hs hclock seen (verdictOnce settings)
        (.ok (.NeedRoom refusal), v₂) hv ?_ (idle_note_used _ _)
      simp [execute, hget, verdictOnce, hins]
    · refine tries_of_execute hs hclock seen (verdictOnce settings)
        (.ok (.Done true), v₂) hv ?_ (idle_note_used _ _)
      simp [execute, hget, verdictOnce, hins]
  · have hmap : (v₁.shard (v₁.ns.shard_of seen)).map[seen]? = some e := hget
    have hsized := (hs₁.shards _).sized hmap
    have hkey := key_of_get hs₁ hget
    rw [hmap]
    dsimp only
    refine tries_of_execute hs hclock seen (verdictOnce settings)
      (.ok (.Done false), v₁.touch settings (v₁.ns.shard_of seen) e none v.now) hv ?_
      (idle_note_used _ _)
    subst hkey
    rw [touch_eq_keeps hsized]
    simp [execute, hget, verdictOnce, heldOf]

/-- The answer of a call that is done, as an attempt gives it. -/
def finished (out : Answer α) : Answer (Step α) := (out.1.map .Done, out.2)

theorem count_tries (hs : Sound others v) (hclock : Monotone v.sh.clock) (key : Key) :
    Tries settings key (fun held _ => verdictCount est held) v
      (finished (v.count est settings key)) := by
  obtain ⟨hlapses, -, -⟩ := ticked_expireFound hs key
  have hs₁ := hlapses.sound hs
  generalize hv : v.ticked.expireFound (v.ns.shard_of key) key v.now = v₁ at hlapses hs₁
  have hof : v.ns.shard_of key = v₁.ns.shard_of key := by rw [hlapses.onward.shard_of]
  unfold count
  dsimp only
  rw [hv, hof]
  rcases hget : v₁.get key with _ | e
  · have hmap : (v₁.shard (v₁.ns.shard_of key)).map[key]? = none := hget
    rw [hmap]
    refine tries_of_execute hs hclock key (fun held _ => verdictCount est held)
      (.ok (done (some (.Int 0))), v₁) hv ?_ (idle_note_used _ _)
    rw [hget]
    exact (execute_absent hget _).symm
  · have hmap : (v₁.shard (v₁.ns.shard_of key)).map[key]? = some e := hget
    have hsized := (hs₁.shards _).sized hmap
    have hkey := key_of_get hs₁ hget
    rw [hmap]
    dsimp only
    have hother : ∀ d, e.data = d → verdictCount est (some (heldOf e)) = Verdict.wrongType d "sum" →
        Tries settings key (fun held _ => verdictCount est held) v
          (finished (v₁.refusedType d "sum")) := by
      intro d hd hwrong
      refine tries_of_execute hs hclock key (fun held _ => verdictCount est held)
        (v₁.refusedType d "sum") hv ?_ (Idle.refl _)
      rw [hget, Option.map_some, hwrong, execute_wrongType]
    cases hdata : e.data with
    | Sum counts =>
      refine tries_of_execute hs hclock key (fun held _ => verdictCount est held)
        (.ok (done (some (read est (.Sum counts)))),
          v₁.touch settings (v₁.ns.shard_of key) e none v.now) hv ?_ (idle_note_used _ _)
      subst hkey
      simp only [hget, Option.map_some, heldOf, verdictCount, hdata, Verdict.keeps]
      rw [touch_eq_keeps hsized, hdata]
      exact (execute_sets hget _ _ _ _).symm
    | _ =>
      apply hother _ hdata
      simp only [verdictCount, heldOf, hdata]

theorem Tries.moves {r : Option Held → Nat → Verdict α} {out : Answer (Step α)}
    (h : Tries settings key r v out) (hclock : Monotone v.sh.clock) : Moves v.now v out.2 := by
  obtain ⟨v₁, hlapses, hreads, -, hcomes⟩ := h
  have hon := hlapses.onward
  have hlast : v.now ≤ v₁.last := by
    unfold last now
    rw [hreads, hon.clock]
    exact le_refl _
  exact hlapses.moves.trans (hcomes.moves (le_refl _) hlast (hon.clock ▸ hclock))

/-! ## Room -/

theorem refused_full (v : View) (settings : NamespaceSettings) (refusal : Refusal) :
    Idle v (v.refusedFull settings refusal : Answer α).2 ∧
      v.ns.refused refusal < (v.refusedFull settings refusal : Answer α).2.ns.refused refusal := by
  refine ⟨idle_refuse v refusal "", ?_⟩
  simp [refusedFull, full, refuse]

/-- How a call that makes room ends: as its last attempt did, and only expired keys went out
before, or else a key was evicted or refused. -/
def Ends (settings : NamespaceSettings) (key : Key) (r : Option Held → Nat → Verdict α) (v : View)
    (out : Answer α) : Prop :=
  (∃ v₀, Lapses v.now v v₀ ∧ Tries settings key r v₀ (finished out)) ∨
    v.ns.evicted < out.2.ns.evicted ∨
    ∃ refusal : Refusal, refusal.Full ∧ v.ns.refused refusal < out.2.ns.refused refusal

theorem Ends.after {r : Option Held → Nat → Verdict α} {out : Answer α}
    (hlapses : Lapses v.now v v') (hclock : Monotone v.sh.clock) (h : Ends settings key r v' out) :
    Ends settings key r v out := by
  have hon := hlapses.onward
  rcases h with ⟨v₀, hlapses', htries⟩ | hcount | ⟨refusal, hfull, hcount⟩
  · exact .inl ⟨v₀, hlapses.trans (hlapses'.mono (hon.now_le hclock)), htries⟩
  · exact .inr (.inl (hon.evicted_le.trans_lt hcount))
  · exact .inr (.inr ⟨refusal, hfull, (hon.refused_le refusal).trans_lt hcount⟩)

theorem ends_refused {r : Option Held → Nat → Verdict α} {refusal : Refusal}
    (hmoves : Moves v.now v v') (hfull : refusal.Full) :
    Moves v.now v (v'.refusedFull settings refusal : Answer α).2 ∧
      Ends settings key r v (v'.refusedFull settings refusal) := by
  obtain ⟨hidle, hcount⟩ := refused_full (α := α) v' settings refusal
  exact ⟨hmoves.trans hidle.moves,
    .inr (.inr ⟨refusal, hfull, (hmoves.onward.refused_le refusal).trans_lt hcount⟩)⟩

theorem Tries.room {r : Option Held → Nat → Verdict α} {refusal : Refusal}
    (h : Tries settings key r v (.ok (.NeedRoom refusal), v')) :
    refusal.Full ∧ Lapses v.now v v' := by
  obtain ⟨v₁, hlapses, -, -, hcomes⟩ := h
  cases hcomes with
  | room hfull hlapses' => exact ⟨hfull, hlapses.trans hlapses'⟩

variable {r : Option Held → Nat → Verdict α} {attempt : View → Answer (Step α)}

theorem room_loop_ends
    (htries : ∀ v : View, Sound others v → Monotone v.sh.clock → Tries settings key r v (attempt v))
    (fuel evictions : Nat) (hs : Sound others v) (hclock : Monotone v.sh.clock) :
    Moves v.now v (room_loop settings attempt fuel evictions v).2 ∧
      Ends settings key r v (room_loop settings attempt fuel evictions v) := by
  induction fuel generalizing evictions v with
  | zero => exact ends_refused .refl (.inl rfl)
  | succ fuel ih =>
    have htry := htries v hs hclock
    have hmoves := htry.moves hclock
    unfold room_loop
    rcases hout : attempt v with ⟨err | ⟨a | refusal⟩, v₁⟩
    · rw [hout] at htry hmoves
      exact ⟨hmoves, .inl ⟨v, .refl, htry⟩⟩
    · rw [hout] at htry hmoves
      exact ⟨hmoves, .inl ⟨v, .refl, htry⟩⟩
    · rw [hout] at htry
      obtain ⟨hfull, hroom⟩ := htry.room
      have hon := hroom.onward
      have hclock₁ : Monotone v₁.sh.clock := hon.clock ▸ hclock
      have hs₁ := hroom.sound hs
      dsimp only
      by_cases hbrown : refusal = .Brownout
      · rw [if_pos hbrown]
        exact ends_refused hroom.moves hfull
      · rw [if_neg hbrown]
        obtain ⟨hpurged, -⟩ := lapses_purge_all hs₁ hclock₁ (hon.now_le hclock)
        rcases hpurge : v₁.purge_all with ⟨any, v₂⟩
        rw [hpurge] at hpurged
        have hall := hroom.trans hpurged
        have hon₂ := hall.onward
        have hclock₂ : Monotone v₂.sh.clock := hon₂.clock ▸ hclock
        have hs₂ := hall.sound hs
        cases any with
        | true =>
          obtain ⟨hmoves', hends⟩ := ih evictions hs₂ hclock₂
          exact ⟨hall.moves.trans (hmoves'.mono (hon₂.now_le hclock)), hends.after hall hclock⟩
        | false =>
          dsimp only
          split
          · have hevict := evicts_one hs₂ hclock₂ (hon₂.now_le hclock)
            rcases hone : v₂.evict_one with ⟨found, v₃⟩
            rw [hone] at hevict
            have hmoves₃ := hall.moves.trans hevict.moves
            have hon₃ := hmoves₃.onward
            cases found with
            | true =>
              obtain ⟨hmoves', -⟩ := ih (evictions + 1) (hmoves₃.sound hs) (hon₃.clock ▸ hclock)
              refine ⟨hmoves₃.trans (hmoves'.mono (hon₃.now_le hclock)), .inr (.inl ?_)⟩
              calc v.ns.evicted ≤ v₂.ns.evicted := hon₂.evicted_le
                _ < v₃.ns.evicted := hevict.counts rfl
                _ ≤ _ := hmoves'.onward.evicted_le
            | false => exact ends_refused hmoves₃ hfull
          · exact ends_refused hall.moves hfull

theorem room_loop_enough
    (htries : ∀ v : View, Sound others v → Monotone v.sh.clock → Tries settings key r v (attempt v))
    {fuel fuel' evictions : Nat} (hs : Sound others v) (hclock : Monotone v.sh.clock)
    (h : v.mapped + (MAX_EVICTIONS_PER_CALL - evictions) < fuel)
    (h' : v.mapped + (MAX_EVICTIONS_PER_CALL - evictions) < fuel') :
    room_loop settings attempt fuel evictions v = room_loop settings attempt fuel' evictions v := by
  induction fuel generalizing fuel' evictions v with
  | zero => omega
  | succ fuel ih =>
    obtain ⟨fuel', rfl⟩ : ∃ n, fuel' = n + 1 := ⟨fuel' - 1, by omega⟩
    have htry := htries v hs hclock
    unfold room_loop
    rcases hout : attempt v with ⟨err | ⟨a | refusal⟩, v₁⟩
    · rfl
    · rfl
    · rw [hout] at htry
      obtain ⟨-, hroom⟩ := htry.room
      have hon := hroom.onward
      have hclock₁ : Monotone v₁.sh.clock := hon.clock ▸ hclock
      have hs₁ := hroom.sound hs
      have hmapped₁ := hroom.mapped_le
      dsimp only
      by_cases hbrown : refusal = .Brownout
      · rw [if_pos hbrown, if_pos hbrown]
      · rw [if_neg hbrown, if_neg hbrown]
        obtain ⟨hpurged, hlt⟩ := lapses_purge_all hs₁ hclock₁ (le_refl _)
        have hmapped₂ := hpurged.mapped_le
        rcases hpurge : v₁.purge_all with ⟨any, v₂⟩
        rw [hpurge] at hpurged hlt hmapped₂
        dsimp only at hlt hmapped₂
        have hclock₂ : Monotone v₂.sh.clock := hpurged.onward.clock ▸ hclock₁
        cases any with
        | true =>
          have := hlt rfl
          exact ih (hpurged.sound hs₁) hclock₂ (by omega) (by omega)
        | false =>
          dsimp only
          split
          · next hroom =>
            have hevict := evicts_one (hpurged.sound hs₁) hclock₂ (le_refl _)
            have hmapped₃ := hevict.mapped_le
            rcases hone : v₂.evict_one with ⟨found, v₃⟩
            rw [hone] at hevict hmapped₃
            dsimp only at hmapped₃
            cases found with
            | true =>
              have hon₃ := hevict.moves.onward
              exact ih (hevict.moves.sound (hpurged.sound hs₁)) (hon₃.clock ▸ hclock₂)
                (by omega) (by omega)
            | false => rfl
          · rfl

theorem with_room_ends
    (htries : ∀ v : View, Sound others v → Monotone v.sh.clock → Tries settings key r v (attempt v))
    (hs : Sound others v) (hclock : Monotone v.sh.clock) :
    Moves v.now v (v.with_room settings attempt).2 ∧
      Ends settings key r v (v.with_room settings attempt) :=
  room_loop_ends htries _ _ hs hclock

/-! ## Calls -/

theorem room_tries (op : StateOp) (hop : ∀ key by_ ttl once, op ≠ .IncrOnce key by_ ttl once)
    (settings : NamespaceSettings) (hs : Sound others v) (hclock : Monotone v.sh.clock) :
    Moves v.now v (v.with_room settings (View.attempt est settings op)).2 ∧
      Ends settings (op_key op) (verdict est op) v
        (v.with_room settings (View.attempt est settings op)) :=
  with_room_ends (fun _ hs hclock => attempt_tries est hs hclock op hop) hs hclock

theorem room_remembers (seen : Key) (settings : NamespaceSettings) (hs : Sound others v)
    (hclock : Monotone v.sh.clock) :
    Moves v.now v (v.with_room settings (remember settings seen)).2 ∧
      Ends settings seen (verdictOnce settings) v (v.with_room settings (remember settings seen)) :=
  with_room_ends (fun _ hs hclock => remember_tries hs hclock seen) hs hclock

theorem count_moves (settings : NamespaceSettings) (key : Key) (hs : Sound others v)
    (hclock : Monotone v.sh.clock) : Moves v.now v (v.count est settings key).2 :=
  (count_tries est hs hclock key).moves hclock

theorem incr_once_moves (settings : NamespaceSettings) (key : Key) (by_ : Int64)
    (ttl : Option Nat) (once : Key) (hs : Sound others v) (hclock : Monotone v.sh.clock) :
    ∃ v₁, Moves v.now v v₁ ∧ (v₁ = (v.incr_once est settings key by_ ttl once).2 ∨
      ∃ e, e.key = remembered_of once ∧ v₁.get e.key = some e ∧
        Idle (v₁.dropped e) (v.incr_once est settings key by_ ttl once).2) := by
  obtain ⟨hmoves, -⟩ := room_remembers (remembered_of once) settings hs hclock
  unfold incr_once
  dsimp only
  generalize v.with_room settings (remember settings (remembered_of once)) = out at hmoves ⊢
  obtain ⟨err | first, v₁⟩ := out
  · exact ⟨v₁, hmoves, .inl rfl⟩
  · have hon := hmoves.onward
    have hs₁ := hmoves.sound hs
    have hclock₁ : Monotone v₁.sh.clock := hon.clock ▸ hclock
    cases first with
    | false =>
      have hcount := count_moves est settings key hs₁ hclock₁
      exact ⟨_, hmoves.trans (hcount.mono (hon.now_le hclock)), .inl rfl⟩
    | true =>
      obtain ⟨hincr, -⟩ := room_tries est (.Incr key by_ ttl) (fun _ _ _ _ => StateOp.noConfusion)
        settings hs₁ hclock₁
      dsimp only
      generalize v₁.with_room settings (View.attempt est settings (.Incr key by_ ttl)) = out at hincr ⊢
      obtain ⟨err | reply, v₂⟩ := out
      · have hall : Moves v.now v v₂ := hmoves.trans (hincr.mono (hon.now_le hclock))
        rcases hseen : v₂.get (remembered_of once) with _ | e
        · dsimp only
          rw [remove_none hseen]
          exact ⟨_, hall.trans (idle_note_used v₂ _).moves, .inl rfl⟩
        · have hkey := key_of_get (hall.sound hs) hseen
          dsimp only
          rw [remove_some (hall.sound hs) hseen]
          exact ⟨v₂, hall, .inr ⟨e, hkey, hkey ▸ hseen, idle_note_used _ _⟩⟩
      · exact ⟨v₂, hmoves.trans (hincr.mono (hon.now_le hclock)), .inl rfl⟩

theorem call_sound (settings : NamespaceSettings) (op : StateOp) (hs : Sound others v)
    (hclock : Monotone v.sh.clock) :
    Sound others (v.call est settings op).2 ∧ Onward v (v.call est settings op).2 := by
  unfold call
  split
  · next key by_ ttl once =>
    obtain ⟨v₁, hmoves, heq | ⟨e, -, he, hidle⟩⟩ :=
      incr_once_moves est settings key by_ ttl once hs hclock
    · rw [← heq]
      exact ⟨hmoves.sound hs, hmoves.onward⟩
    · exact ⟨hidle.sound (sound_dropped (hmoves.sound hs) he),
        (hmoves.onward.trans (onward_dropped v₁ e)).trans hidle.toOnward⟩
  · next hop =>
    obtain ⟨hmoves, -⟩ := room_tries est op (fun _ _ _ _ => hop _ _ _ _) settings hs hclock
    exact ⟨hmoves.sound hs, hmoves.onward⟩

theorem remembered_of_once {once : Key} (h : once ≠ []) : remembered (remembered_of once) = true := by
  obtain ⟨b, rest, rfl⟩ := List.exists_cons_of_ne_nil h
  simp [remembered, remembered_of, MAX_IDEMPOTENCY_KEY_BYTES]

theorem call_moves (settings : NamespaceSettings) (op : StateOp)
    (honce : ∀ key by_ ttl once, op = .IncrOnce key by_ ttl once → once ≠ [])
    (hs : Sound others v) (hclock : Monotone v.sh.clock) :
    Moves v.now v (v.call est settings op).2 := by
  unfold call
  split
  · next key by_ ttl once =>
    obtain ⟨v₁, hmoves, heq | ⟨e, hkey, he, hidle⟩⟩ :=
      incr_once_moves est settings key by_ ttl once hs hclock
    · rw [← heq]
      exact hmoves
    · have hrem : remembered e.key = true := by
        rw [hkey]
        exact remembered_of_once (honce key by_ ttl once rfl)
      have hmove : Move v.now v₁ (v₁.dropped e) :=
        .evict v.now e he (le_refl _) (fun _ => .inr hrem)
      exact (hmoves.trans hmove.moves).trans hidle.moves
  · next hop => exact (room_tries est op (fun _ _ _ _ => hop _ _ _ _) settings hs hclock).1

end View

end mqttd.rule_state.local_store
