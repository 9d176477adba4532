-- The laws of the order of change: a key that a rule's write changed stays ahead of
-- every link until the link is handed its state, unless it is forgotten. Two writes
-- change a key without a place in the order: one that is refused by a key whose value
-- has expired, and one that adds 0 to a counter in which this node has no count.
import MqttBroker.RuleState.Replica
import MqttBroker.Rules.CrdtInflation

namespace mqttd.rule_state.replica

open mqtt_rules SortedJoin

/-! ## A write that moves nothing -/

/-- The value that the write brings can be kept in a key that holds nothing. -/
def Storable (json : Json) (node : String) : Write → Prop
  | .Set v | .SetOnce v | .Add v => ∃ w, normal json v = .ok w
  | .Extreme v _ => ∃ w, stored_number json v = .ok w
  | .Incr _ => (ByteCodec.stringBytes node).length ≤ MAX_NODE_ID_BYTES
  | .HllAdd _ | .Delete => True

/-- The counter has a count of the node, or no room for one. -/
def CountedBy (node : String) (c : Counts) : Prop :=
  (∃ at_, search row_cmp c.rows ⟨node, 0, 0⟩ = .ok at_) ∨ ∃ e, c.add node 0 = .error e

/-- The write finds no value that has expired, or one that it can be put in the place of; and it
adds 0 to no counter in which this node has no count yet. -/
structure Settles (json : Json) (node : String) (s : KeyState) (now_ms : UInt64) (w : Write) :
    Prop where
  storable : Replica.expired s now_ms = true → Storable json node w
  counted : Replica.expired s now_ms = false → ∀ c, s.data = some (.Sum c) → w = .Incr 0 →
    CountedBy node c

theorem step_zero (row : Row) : Counts.step row 0 = row := by
  unfold Counts.step
  rw [if_pos (by decide)]
  cases row
  rfl

theorem add_at_zero {rows : List Row} {at_ : Nat} {after after' : BigInt} {c : Counts}
    (h : Counts.add_at rows at_ 0 after = .ok (after', c)) : c = ⟨rows⟩ := by
  unfold Counts.add_at at h
  dsimp only at h
  rw [step_zero] at h
  split at h
  · simp only [Except.ok.injEq, Prod.mk.injEq] at h
    rw [← h.2]
    congr 1
    by_cases hat : at_ < rows.length
    · simp [List.getD_eq_getElem?_getD, hat]
    · exact List.set_eq_of_length_le (Nat.not_lt.mp hat)
  · simp at h

theorem add_zero_same {c c' : Counts} {node : String} {after : BigInt} (hc : CountedBy node c)
    (h : c.add node 0 = .ok (after, c')) : c' = c := by
  obtain ⟨at_, hat⟩ : ∃ at_, search row_cmp c.rows ⟨node, 0, 0⟩ = .ok at_ := by
    rcases hc with hat | ⟨e, he⟩
    · exact hat
    · rw [he] at h
      simp at h
  have hany : ∀ {after c'}, c.add_any node 0 = .ok (after, c') → c' = c := by
    intro after c' h
    unfold Counts.add_any at h
    rw [hat] at h
    split at h
    · simp at h
    · exact add_at_zero h
  unfold Counts.add at h
  split at h
  · rename_i row hrows
    split at h
    · split at h
      · simp at h
      · simp only [Except.ok.injEq, Prod.mk.injEq, step_zero] at h
        rw [← h.2, ← hrows]
    · exact hany h
  · exact hany h

theorem raise_same {h : Hll} {index : Nat} {rank : UInt8} (hr : (raise h index rank).1 = false) :
    (raise h index rank).2 = h := by
  unfold raise at hr ⊢
  cases hreg : h.registers with
  | Dense dense =>
    simp only [hreg] at hr ⊢
    by_cases hle : rank ≤ dense_get dense index
    · simp [hle]
    · simp [hle] at hr
  | Sparse list =>
    simp only [hreg] at hr ⊢
    cases hs : search entry_cmp list (index, rank) with
    | ok at_ =>
      simp only [hs] at hr ⊢
      by_cases hle : rank ≤ (list.getD at_ (0, 0)).2
      · rw [if_pos hle]
      · rw [if_neg hle] at hr
        simp at hr
    | error at_ =>
      simp only [hs] at hr
      split at hr <;> simp at hr

theorem insert_same {e e' : Elements} {identity : Bytes} {v : Value}
    (h : e.insert identity v = some (false, e')) : e' = e := by
  unfold Elements.insert at h
  split at h
  · simp only [Option.some.injEq, Prod.mk.injEq, true_and] at h
    exact h.symm
  · split at h
    · simp at h
    · simp at h

theorem expired_iff (s : KeyState) (now_ms : UInt64) :
    Replica.expired s now_ms = true ↔ s.data.isSome = true ∧ (s.live now_ms).isNone = true := by
  cases hd : s.data with
  | none => simp [Replica.expired, hd]
  | some d =>
    simp only [Replica.expired, hd, Option.isSome_some, Bool.true_and, Bool.and_eq_true,
      decide_eq_true_eq, KeyState.live, Option.filter_some, true_and]
    constructor
    · rintro ⟨hne, hle⟩
      have hnot : ¬ (s.expires_ms = 0 ∨ now_ms < s.expires_ms) := by
        rintro (h | h)
        · exact hne h
        · exact absurd (UInt64.lt_of_lt_of_le h hle) (UInt64.lt_irrefl _)
      simp [hnot]
    · intro h
      have hnot : ¬ (s.expires_ms = 0 ∨ now_ms < s.expires_ms) := by
        intro hlive
        simp [hlive] at h
      exact ⟨fun h0 => hnot (.inl h0), UInt64.not_lt.mp (fun hlt => hnot (.inr hlt))⟩

theorem add_first {node : String} (hn : (ByteCodec.stringBytes node).length ≤ MAX_NODE_ID_BYTES)
    (n : Int64) : ∃ after c, (Counts.mk []).add node n = .ok (after, c) := by
  have htotal : Counts.total_i128 ⟨[]⟩ = some 0 := by decide
  have hi64 : i64_of (0 + n.toInt) = some (0 + n.toInt) := by
    have hlow := n.le_toInt
    have hhigh := n.toInt_lt
    have hbounds : (-2 ^ 63 : Int) ≤ 0 + n.toInt ∧ (0 + n.toInt : Int) < 2 ^ 63 := by omega
    unfold i64_of
    exact if_pos hbounds
  have hsearch : search row_cmp [] (⟨node, 0, 0⟩ : Row) = .error 0 := rfl
  have habs := natAbs_i64 n
  unfold Counts.add Counts.add_any
  simp only [htotal, Option.bind_some, hi64, hsearch]
  rw [if_neg (by omega), if_neg (by decide)]
  unfold Counts.add_at Counts.step
  by_cases hpos : 0 ≤ n.toInt
  · refine ⟨0 + n.toInt, ⟨[⟨node, n.toInt.natAbs, 0⟩]⟩, ?_⟩
    simp only [List.insertIdx_zero, List.getD_cons_zero, if_pos hpos, Nat.zero_add]
    rw [if_pos (by omega)]
    rfl
  · refine ⟨0 + n.toInt, ⟨[⟨node, 0, n.toInt.natAbs⟩]⟩, ?_⟩
    simp only [List.insertIdx_zero, List.getD_cons_zero, if_neg hpos, Nat.zero_add]
    rw [if_pos (by omega)]
    rfl

section apply

variable {json : Json} {s s' : KeyState} {w : Write} {ttl default_ttl : Option UInt64} {by_ : Writer}
  {clock : Hlc}

/-- A write that is storable is taken by a key that holds nothing. -/
theorem edit_of_storable (hs : Storable json by_.node w) (hd : s.data = none) :
    ∃ e, edit json w s by_ = .ok e := by
  cases w with
  | Set v =>
    obtain ⟨x, hx⟩ := hs
    simp [edit, hd, hx, Except.mapError, bind, Except.bind, pure, Except.pure]
  | SetOnce v =>
    obtain ⟨x, hx⟩ := hs
    simp [edit, hd, hx, Except.mapError, bind, Except.bind, pure, Except.pure]
  | Extreme v largest =>
    obtain ⟨x, hx⟩ := hs
    simp [edit, hd, hx, bind, Except.bind, pure, Except.pure]
  | Incr n =>
    obtain ⟨after, c, hc⟩ := add_first hs n
    simp [edit, hd, hc, Except.mapError, bind, Except.bind, pure, Except.pure]
  | Add v =>
    obtain ⟨x, hx⟩ := hs
    have hinsert : (Elements.mk []).insert (term_key x) x = some (true, ⟨[(term_key x, x)]⟩) := by
      simp [Elements.insert, Elements.place, MAX_SET_ELEMENTS]
    simp [edit, hd, hx, hinsert, Except.mapError, bind, Except.bind, pure, Except.pure]
  | HllAdd hash => simp [edit, hd]
  | Delete => simp [edit]

theorem edit_none_moves (hd : s.data = none) {d : Data} {m : Bool}
    (h : edit json w s by_ = .ok (.Holds d clock m)) : m = true := by
  cases w with
  | Set v =>
    cases hv : normal json v <;>
      simp [edit, hd, hv, Except.mapError, bind, Except.bind, pure, Except.pure] at h
    exact h.2.2
  | SetOnce v =>
    cases hv : normal json v <;>
      simp [edit, hd, hv, Except.mapError, bind, Except.bind, pure, Except.pure] at h
    exact h.2.2
  | Extreme v largest =>
    cases hv : stored_number json v <;>
      simp [edit, hd, hv, bind, Except.bind, pure, Except.pure] at h
    exact h.2.2
  | Incr n =>
    cases hc : (Counts.mk []).add by_.node n <;>
      simp [edit, hd, hc, Except.mapError, bind, Except.bind, pure, Except.pure] at h
    exact h.2.2
  | Add v =>
    cases hv : normal json v with
    | error e => simp [edit, hd, hv, Except.mapError, bind, Except.bind] at h
    | ok x =>
      cases hi : (Elements.mk []).insert (term_key x) x <;>
        simp [edit, hd, hv, hi, Except.mapError, bind, Except.bind, pure, Except.pure] at h
      exact h.2.2
  | HllAdd hash =>
    simp [edit, hd] at h
    exact h.2.2
  | Delete => simp [edit] at h

/-- An arm that leaves a key as it was says so truly. -/
theorem edit_unmoved (hc : ∀ c, s.data = some (.Sum c) → w = .Incr 0 → CountedBy by_.node c)
    {d : Data} (h : edit json w s by_ = .ok (.Holds d clock false)) : s.data = some d := by
  cases hd : s.data with
  | none => exact absurd (edit_none_moves hd h) (by simp)
  | some held =>
    cases w with
    | Set v =>
      cases held <;> cases hv : normal json v <;>
        simp [edit, hd, hv, Except.mapError, bind, Except.bind, pure, Except.pure] at h
    | SetOnce v =>
      cases held <;> simp [edit, hd] at h
      rw [← h.1]
    | Extreme v largest =>
      cases held <;> cases largest <;> simp [edit, hd] at h
      all_goals
        split at h
        · cases hv : stored_number json v <;>
            simp [hv] at h
        · simp at h
          rw [← h.1]
    | Incr n =>
      cases held <;> simp [edit, hd] at h
      rename_i c
      cases ha : c.add by_.node n with
      | error e => simp [ha, Except.mapError] at h
      | ok x =>
        simp [ha, Except.mapError] at h
        obtain ⟨hd', -, hn⟩ := h
        subst hn
        rw [← hd', add_zero_same (hc c hd rfl) ha]
    | Add v =>
      cases held <;> simp [edit, hd] at h
      rename_i e
      cases hv : normal json v with
      | error err => simp [hv, Except.mapError, bind, Except.bind] at h
      | ok x =>
        cases hi : e.insert (term_key x) x with
        | none => simp [hv, hi, Except.mapError, bind, Except.bind] at h
        | some y =>
          simp [hv, hi, Except.mapError, bind, Except.bind, pure, Except.pure] at h
          obtain ⟨hd', -, hn⟩ := h
          have hsame : y.2 = e := insert_same (hi.trans (by rw [← hn]))
          rw [← hd', hsame]
    | HllAdd hash =>
      cases held <;> simp [edit, hd] at h
      obtain ⟨hd', -, hn⟩ := h
      rw [← hd', show (Hll.add _ hash).2 = _ from raise_same hn]
    | Delete => simp [edit] at h

theorem expire_of_expired (h : Replica.expired s (by_.clock.physical_ms by_.wall_ms) = true) :
    ∃ t clock, s.expire by_ = (t, clock, true) ∧ t.data = none := by
  have hcond := (expired_iff _ _).mp h
  refine ⟨s.delete (by_.clock.now by_.wall_ms).1, (by_.clock.now by_.wall_ms).2, ?_, rfl⟩
  unfold KeyState.expire
  dsimp only
  rw [if_pos hcond]

theorem expire_of_live (h : Replica.expired s (by_.clock.physical_ms by_.wall_ms) = false) :
    s.expire by_ = (s, by_.clock, false) := by
  have hcond : ¬ (s.data.isSome = true ∧
      (s.live (by_.clock.physical_ms by_.wall_ms)).isNone = true) := by
    rw [← expired_iff, h]
    simp
  unfold KeyState.expire
  dsimp only
  rw [if_neg hcond]

theorem apply_same {res : Except WriteError Bool}
    (hset : Settles json by_.node s (by_.clock.physical_ms by_.wall_ms) w)
    (h : s.apply json w ttl default_ttl by_ = (res, s', clock)) (hres : res ≠ .ok true) :
    s' = s := by
  cases hexp : Replica.expired s (by_.clock.physical_ms by_.wall_ms) with
  | true =>
    obtain ⟨t, clock', ht, hdata⟩ := expire_of_expired hexp
    obtain ⟨e, he⟩ := @edit_of_storable json t w { by_ with clock := clock' }
      (hset.storable hexp) hdata
    unfold KeyState.apply at h
    simp only [ht, he] at h
    cases e with
    | Deleted t' c => simp only [Prod.mk.injEq] at h; exact absurd h.1.symm hres
    | Holds d c m =>
      dsimp only at h
      split at h
      · simp only [Prod.mk.injEq, Bool.true_or] at h; exact absurd h.1.symm hres
      · simp only [Prod.mk.injEq, Bool.true_or] at h; exact absurd h.1.symm hres
  | false =>
    unfold KeyState.apply at h
    simp only [expire_of_live hexp] at h
    cases he : edit json w s by_ with
    | error e =>
      simp only [he, Prod.mk.injEq] at h
      exact h.2.1.symm
    | ok e =>
      simp only [he] at h
      cases e with
      | Deleted t' c => simp only [Prod.mk.injEq] at h; exact absurd h.1.symm hres
      | Holds d c m =>
        dsimp only at h
        have hheld : m = false → s.data = some d := by
          rintro rfl
          exact edit_unmoved (hset.counted hexp) he
        split at h
        · simp only [Prod.mk.injEq, Bool.false_or] at h
          have hm : m = false := by
            cases m
            · rfl
            · exact absurd h.1.symm hres
          rw [← h.2.1, ← hheld hm]
        · rename_i expires hexpires
          simp only [Prod.mk.injEq, Bool.false_or] at h
          have hm : (m || decide (expires ≠ s.expires_ms)) = false := by
            cases hb : (m || decide (expires ≠ s.expires_ms))
            · rfl
            · rw [hb] at h
              exact absurd h.1.symm hres
          simp only [Bool.or_eq_false_iff, decide_eq_false_iff_not, not_not] at hm
          rw [← h.2.1, ← hheld hm.1, hm.2]

/-- The first write to a key that holds nothing moves it, or is refused. -/
theorem apply_none_moves (hd : s.data = none) {m : Bool}
    (h : s.apply json w ttl default_ttl by_ = (.ok m, s', clock)) : m = true := by
  have hexp : Replica.expired s (by_.clock.physical_ms by_.wall_ms) = false := by
    simp [Replica.expired, hd]
  unfold KeyState.apply at h
  simp only [expire_of_live hexp] at h
  cases he : edit json w s by_ with
  | error e => simp [he] at h
  | ok e =>
    simp only [he] at h
    cases e with
    | Deleted t' c =>
      simp only [Prod.mk.injEq, Except.ok.injEq] at h
      exact h.1.symm
    | Holds d c m' =>
      obtain rfl := edit_none_moves hd he
      dsimp only at h
      split at h
      · simp only [Prod.mk.injEq, Except.ok.injEq, Bool.false_or] at h
        exact h.1.symm
      · simp only [Prod.mk.injEq, Except.ok.injEq, Bool.false_or, Bool.true_or] at h
        exact h.1.symm

end apply

/-! ## What a link is owed -/

/-- The key was changed since the link was made, and it was neither handed to the link nor
forgotten since. -/
def Owes (l : Nat) (key : Key) : List Event → Prop
  | [] => False
  | .Wrote k before after :: older =>
    (k = key ∧ before ≠ after ∧ .Linked l ∈ older) ∨ Owes l key older
  | .Forgot k :: older => k ≠ key ∧ Owes l key older
  | .Linked _ :: older => Owes l key older
  | .Handed l' k _ :: older => ¬ (l' = l ∧ k = key) ∧ Owes l key older

theorem Owes.linked {l : Nat} {key : Key} {trace : List Event} (h : Owes l key trace) :
    .Linked l ∈ trace := by
  induction trace with
  | nil => exact h.elim
  | cons e older ih =>
    cases e with
    | Wrote k before after =>
      rcases h with ⟨-, -, hin⟩ | hold
      · exact List.mem_cons_of_mem _ hin
      · exact List.mem_cons_of_mem _ (ih hold)
    | Forgot k => exact List.mem_cons_of_mem _ (ih h.2)
    | Linked l' => exact List.mem_cons_of_mem _ (ih h)
    | Handed l' k s => exact List.mem_cons_of_mem _ (ih h.2)

theorem owes_handed {l l' : Nat} {key : Key} {out : List (Key × KeyState)} {older : List Event} :
    Owes l key ((out.map (fun x => .Handed l' x.1 x.2)).reverse ++ older) →
      Owes l key older ∧ (l' = l → ∀ s, (key, s) ∉ out) := by
  induction out generalizing older with
  | nil => exact fun h => ⟨by simpa using h, by simp⟩
  | cons x out ih =>
    intro h
    simp only [List.map_cons, List.reverse_cons, List.append_assoc, List.singleton_append] at h
    obtain ⟨hx, hnot⟩ := ih h
    refine ⟨hx.2, ?_⟩
    intro hl s hs
    rcases List.mem_cons.mp hs with rfl | hs
    · exact hx.1 ⟨hl, rfl⟩
    · exact hnot hl s hs

/-! ## The order of change of one shard -/

/-- The order names each key that has a place, and no other. -/
structure Placed (s : Shard) : Prop where
  named : ∀ key e, s.map key = some e → e.changed ≠ 0 →
    s.changed[e.changed]? = some key ∧ e.changed ≤ s.last
  there : ∀ (n : Nat) key, s.changed[n]? = some key →
    ∃ e, s.map key = some e ∧ e.changed = n ∧ n ≠ 0

namespace Placed

variable {s : Shard} {key : Key}

theorem le_last (h : Placed s) {n : Nat} (hn : s.changed[n]? = some key) : n ≤ s.last := by
  obtain ⟨e, he, rfl, hne⟩ := h.there n key hn
  exact (h.named key e he hne).2

theorem put (h : Placed s) {entry : Entry}
    (hsame : entry.changed = ((s.map key).map Entry.changed).getD 0) :
    Placed (s.put key (some entry)) := by
  refine ⟨?_, ?_⟩
  · intro k e he hne
    by_cases hk : k = key
    · subst hk
      simp only [Shard.put, if_true, Option.some.injEq] at he
      subst he
      cases hm : s.map k with
      | none => simp [hm] at hsame; exact absurd hsame hne
      | some e₀ =>
        simp only [hm, Option.map_some, Option.getD_some] at hsame
        rw [hsame] at hne ⊢
        exact h.named k e₀ hm hne
    · simp only [Shard.put, if_neg hk] at he
      exact h.named k e he hne
  · intro n k hn
    obtain ⟨e, he, hch, hne⟩ := h.there n k hn
    by_cases hk : k = key
    · subst hk
      refine ⟨entry, by simp [Shard.put], ?_, hne⟩
      rw [hsame, he]
      exact hch
    · exact ⟨e, by simp [Shard.put, hk, he], hch, hne⟩

theorem get_without (h : Placed s) {entry : Entry}
    (hsame : entry.changed = ((s.map key).map Entry.changed).getD 0) (n : Nat) :
    (if entry.changed ≠ 0 then s.changed.erase entry.changed else s.changed)[n]? =
      if s.changed[n]? = some key then none else s.changed[n]? := by
  by_cases hz : entry.changed = 0
  · rw [if_neg (by simpa using hz)]
    split
    · rename_i hn
      obtain ⟨e, he, hch, hne⟩ := h.there n key hn
      rw [hz, he] at hsame
      exact absurd (hsame.trans hch).symm hne
    · rfl
  · rw [if_pos hz, BTreeMap.get_erase]
    have hplace : s.changed[entry.changed]? = some key := by
      cases hm : s.map key with
      | none => simp [hm] at hsame; exact absurd hsame hz
      | some e =>
        simp only [hm, Option.map_some, Option.getD_some] at hsame
        rw [hsame] at hz ⊢
        exact (h.named key e hm hz).1
    by_cases hn : entry.changed = n
    · subst hn
      simp [hplace]
    · rw [if_neg hn]
      split
      · rename_i hkey
        obtain ⟨e, he, hch, -⟩ := h.there n key hkey
        rw [he] at hsame
        exact absurd (hsame.trans hch) hn
      · rfl

theorem detach (h : Placed s) (key : Key) : Placed (s.detach key) := by
  cases hm : s.map key with
  | none =>
    have hsame : s.detach key = s := by simp [Shard.detach, hm]
    rw [hsame]
    exact h
  | some entry =>
    have hget := @get_without s key h entry (by rw [hm]; rfl)
    refine ⟨?_, ?_⟩
    · intro k e he hne
      simp only [Shard.detach, hm, Shard.put] at he ⊢
      by_cases hk : k = key
      · simp [hk] at he
      · rw [if_neg hk] at he
        obtain ⟨h1, h2⟩ := h.named k e he hne
        refine ⟨?_, h2⟩
        rw [hget, h1]
        simp [hk]
    · intro n k hn
      simp only [Shard.detach, hm] at hn ⊢
      rw [hget] at hn
      split at hn
      · simp at hn
      · rename_i hnot
        obtain ⟨e, he, hch⟩ := h.there n k hn
        have hk : k ≠ key := by
          rintro rfl
          exact hnot hn
        exact ⟨e, by simp [Shard.put, hk, he], hch⟩

theorem take_place (h : Placed s) {entry : Entry}
    (hsame : entry.changed = ((s.map key).map Entry.changed).getD 0) :
    Placed (s.take_place key entry) := by
  unfold Shard.take_place
  split
  · have hget := h.get_without hsame
    refine ⟨?_, ?_⟩
    · intro k e he hne
      by_cases hk : k = key
      · subst hk
        simp only [Shard.put, if_true, Option.some.injEq] at he
        subst he
        simp
      · simp only [Shard.put, if_neg hk] at he
        obtain ⟨h1, h2⟩ := h.named k e he hne
        refine ⟨?_, Nat.le_succ_of_le h2⟩
        dsimp only
        rw [BTreeMap.get_insert, if_neg (by omega), hget, h1]
        simp [hk]
    · intro n k hn
      simp only at hn
      rw [BTreeMap.get_insert] at hn
      split at hn
      · rename_i hlast
        simp only [Option.some.injEq] at hn
        subst hn
        exact ⟨{ entry with changed := s.last + 1 }, by simp [Shard.put], hlast, by omega⟩
      · rw [hget] at hn
        split at hn
        · simp at hn
        · rename_i hnot
          obtain ⟨e, he, hch⟩ := h.there n k hn
          have hk : k ≠ key := by
            rintro rfl
            exact hnot hn
          exact ⟨e, by simp [Shard.put, hk, he], hch⟩
  · exact h.put hsame

end Placed

theorem take_place_ahead {s : Shard} (hread : s.read_to ≤ s.last) (key : Key) (entry : Entry) :
    ∃ e, (s.take_place key entry).map key = some e ∧ s.read_to < e.changed := by
  unfold Shard.take_place
  split
  · exact ⟨{ entry with changed := s.last + 1 }, by simp [Shard.put], Nat.lt_succ_of_le hread⟩
  · rename_i hnot
    exact ⟨entry, by simp [Shard.put], by omega⟩

theorem take_place_other {s : Shard} {key k : Key} (hk : k ≠ key) (entry : Entry) :
    (s.take_place key entry).map k = s.map k := by
  unfold Shard.take_place
  split <;> simp [Shard.put, hk]

theorem take_place_read_to (s : Shard) (key : Key) (entry : Entry) :
    (s.take_place key entry).read_to = s.read_to ∧ s.last ≤ (s.take_place key entry).last := by
  unfold Shard.take_place
  split
  · exact ⟨rfl, Nat.le_succ _⟩
  · exact ⟨rfl, Nat.le_refl _⟩

/-! ## The keys of one hold -/

namespace Replica

variable (cfg : Config)

theorem take_keys_covers {map : Key → Option Entry} (budget : Nat) {l : List (Nat × Key)}
    (hsorted : l.Pairwise (fun a b => a.1 < b.1)) (hmap : ∀ x ∈ l, ∃ e, map x.2 = some e)
    (bytes held : Nat) :
    (∀ x ∈ l, (∃ st, (x.2, st) ∈ (take_keys cfg map budget l bytes held).out) ∨
      ∃ m, (take_keys cfg map budget l bytes held).stopped = some m ∧ m < x.1) ∧
    ∀ m, (take_keys cfg map budget l bytes held).stopped = some m → ∃ x ∈ l, x.1 = m := by
  induction l generalizing bytes held with
  | nil => simp [take_keys]
  | cons x l ih =>
    obtain ⟨hlt, htail⟩ := List.pairwise_cons.mp hsorted
    obtain ⟨number, key⟩ := x
    obtain ⟨e, he⟩ := hmap (number, key) (by simp)
    have hmap' : ∀ x ∈ l, ∃ e, map x.2 = some e := fun x hx => hmap x (List.mem_cons_of_mem _ hx)
    unfold take_keys
    simp only [he]
    split
    · refine ⟨?_, ?_⟩
      · intro x hx
        rcases List.mem_cons.mp hx with rfl | hx
        · exact .inl ⟨e.state, by simp⟩
        · exact .inr ⟨number, rfl, hlt x hx⟩
      · intro m hm
        exact ⟨(number, key), by simp, Option.some.inj hm⟩
    · obtain ⟨h1, h2⟩ := ih htail hmap' (bytes + key.length + (e.state.encoded cfg.json).length)
        (held + 1)
      refine ⟨?_, ?_⟩
      · intro x hx
        rcases List.mem_cons.mp hx with rfl | hx
        · exact .inl ⟨e.state, by simp⟩
        · rcases h1 x hx with ⟨st, hst⟩ | hstop
          · exact .inl ⟨st, List.mem_cons_of_mem _ hst⟩
          · exact .inr hstop
      · intro m hm
        obtain ⟨x, hx, hxm⟩ := h2 m hm
        exact ⟨x, List.mem_cons_of_mem _ hx, hxm⟩

variable {cursor n : Nat} {key : Key}

theorem mem_after {order : BTreeMap Nat Key} :
    (n, key) ∈ after order cursor ↔ order[n]? = some key ∧ cursor < n := by
  unfold after
  rw [List.mem_filter, BTreeMap.mem_toList]
  simp

theorem after_sorted (order : BTreeMap Nat Key) (cursor : Nat) :
    (after order cursor).Pairwise (fun a b => a.1 < b.1) :=
  (BTreeMap.toList_sorted order).filter _

variable {s : Shard}

theorem after_there (hp : Placed s) (cursor : Nat) :
    ∀ x ∈ after s.changed cursor, ∃ e, s.map x.2 = some e := by
  intro x hx
  obtain ⟨e, he, -⟩ := hp.there x.1 x.2 (mem_after.mp hx).1
  exact ⟨e, he⟩

/-- A hold stops at a place of the order, or at its end. -/
theorem read_le_last (hp : Placed s) (budget cursor bytes : Nat) :
    ((take_keys cfg s.map budget (after s.changed cursor) bytes 0).stopped.getD s.last) ≤ s.last := by
  have hcov := take_keys_covers cfg budget (after_sorted s.changed cursor) (after_there hp cursor)
    bytes 0
  cases hstop : (take_keys cfg s.map budget (after s.changed cursor) bytes 0).stopped with
  | none => exact Nat.le_refl _
  | some m =>
    obtain ⟨x, hx, rfl⟩ := hcov.2 m hstop
    exact hp.le_last (mem_after.mp hx).1

variable {e : Entry}

theorem ahead_or_handed (hp : Placed s) (he : s.map key = some e) (hc : cursor < e.changed)
    (budget bytes : Nat) :
    (∃ st, (key, st) ∈ (take_keys cfg s.map budget (after s.changed cursor) bytes 0).out) ∨
      (take_keys cfg s.map budget (after s.changed cursor) bytes 0).stopped.getD s.last <
        e.changed := by
  have hcov := take_keys_covers cfg budget (after_sorted s.changed cursor) (after_there hp cursor)
    bytes 0
  have hplace := (hp.named key e he (by omega)).1
  rcases hcov.1 (e.changed, key) (mem_after.mpr ⟨hplace, hc⟩) with hout | ⟨m, hm, hlt⟩
  · exact .inl hout
  · right
    rw [hm]
    exact hlt

/-! ## The whole copy -/

/-- No link has read past what is marked as read, and each key that a link is owed is ahead of
the link. -/
structure Sound (r : Replica) : Prop where
  marks : ∀ i, r.marks i = (r.shards i).last
  read_to : ∀ i, (r.shards i).read_to ≤ (r.shards i).last
  placed : ∀ i, Placed (r.shards i)
  cursor : ∀ (l : Nat) link, r.links[l]? = some link → ∀ i, link.cursor i ≤ (r.shards i).read_to
  linked : ∀ l, .Linked l ∈ r.trace → ∃ link, r.links[l]? = some link ∧ link.made = SHARDS
  owed : ∀ l key, Owes l key r.trace → ∃ link e, r.links[l]? = some link ∧
    (r.shardOf cfg key).map key = some e ∧ link.cursor (cfg.shard_of key) < e.changed

variable {cfg} {r : Replica}

theorem sound_new (clock : Hlc) : Sound cfg (new clock) := by
  refine ⟨fun _ => rfl, fun _ => Nat.le_refl _, fun _ => ⟨?_, ?_⟩, ?_, ?_, ?_⟩
  · simp [new]
  · simp [new]
  · simp [new]
  · simp [new]
  · intro l key h
    exact h.elim

theorem Sound.clock (h : Sound cfg r) (clock : Hlc) : Sound cfg { r with clock } :=
  ⟨h.marks, h.read_to, h.placed, h.cursor, h.linked, h.owed⟩

variable {entry : Entry}

theorem Sound.keep (h : Sound cfg r)
    (hsame : entry.changed = (((r.shardOf cfg key).map key).map Entry.changed).getD 0) :
    Sound cfg (r.keep cfg key entry) := by
  have hshard : ∀ i, (r.keep cfg key entry).shards i =
      if i = cfg.shard_of key then (r.shardOf cfg key).put key (some entry) else r.shards i :=
    fun _ => rfl
  have hlast : ∀ i, ((r.keep cfg key entry).shards i).last = (r.shards i).last ∧
      ((r.keep cfg key entry).shards i).read_to = (r.shards i).read_to := by
    intro i
    rw [hshard]
    split
    · rename_i hi
      subst hi
      exact ⟨rfl, rfl⟩
    · exact ⟨rfl, rfl⟩
  refine ⟨?_, ?_, ?_, ?_, h.linked, ?_⟩
  · intro i
    rw [(hlast i).1]
    exact h.marks i
  · intro i
    rw [(hlast i).1, (hlast i).2]
    exact h.read_to i
  · intro i
    rw [hshard]
    split
    · exact (h.placed _).put hsame
    · exact h.placed i
  · intro l link hl i
    rw [(hlast i).2]
    exact h.cursor l link hl i
  · intro l k hk
    obtain ⟨link, e, hl, he, hc⟩ := h.owed l k hk
    by_cases hkk : k = key
    · subst hkk
      refine ⟨link, entry, hl, by simp [shardOf, hshard, Shard.put], ?_⟩
      rw [hsame, he]
      exact hc
    · refine ⟨link, e, hl, ?_, hc⟩
      unfold shardOf
      rw [hshard]
      split
      · rename_i hi
        simp only [Shard.put, if_neg hkk]
        unfold shardOf at he ⊢
        rw [← hi]
        exact he
      · exact he

theorem Sound.move (h : Sound cfg r)
    (hsame : entry.changed = (((r.shardOf cfg key).map key).map Entry.changed).getD 0) :
    Sound cfg (r.move cfg key entry) ∧ ∀ (l : Nat) link, r.links[l]? = some link →
      ∃ e, ((r.move cfg key entry).shardOf cfg key).map key = some e ∧
        link.cursor (cfg.shard_of key) < e.changed := by
  have hshard : ∀ i, (r.move cfg key entry).shards i =
      if i = cfg.shard_of key then (r.shardOf cfg key).take_place key entry else r.shards i :=
    fun _ => rfl
  have hplace := take_place_read_to (r.shardOf cfg key) key entry
  have hread : ∀ i, ((r.move cfg key entry).shards i).read_to = (r.shards i).read_to := by
    intro i
    rw [hshard]
    split
    · rename_i hi
      subst hi
      exact hplace.1
    · rfl
  have hahead : ∀ (l : Nat) link, r.links[l]? = some link →
      ∃ e, ((r.move cfg key entry).shardOf cfg key).map key = some e ∧
        link.cursor (cfg.shard_of key) < e.changed := by
    intro l link hl
    obtain ⟨e, he, hc⟩ := take_place_ahead (h.read_to (cfg.shard_of key)) key entry
    refine ⟨e, ?_, Nat.lt_of_le_of_lt (h.cursor l link hl _) hc⟩
    unfold shardOf
    rw [hshard, if_pos rfl]
    exact he
  refine ⟨⟨?_, ?_, ?_, ?_, h.linked, ?_⟩, hahead⟩
  · intro i
    rw [hshard]
    unfold Replica.move
    dsimp only
    split
    · rfl
    · exact h.marks i
  · intro i
    rw [hread, hshard]
    split
    · rename_i hi
      subst hi
      exact Nat.le_trans (h.read_to _) hplace.2
    · exact h.read_to i
  · intro i
    rw [hshard]
    split
    · exact (h.placed _).take_place hsame
    · exact h.placed i
  · intro l link hl i
    rw [hread]
    exact h.cursor l link hl i
  · intro l k hk
    obtain ⟨link, e, hl, he, hc⟩ := h.owed l k hk
    by_cases hkk : k = key
    · subst hkk
      obtain ⟨e', he', hc'⟩ := hahead l link hl
      exact ⟨link, e', hl, he', hc'⟩
    · refine ⟨link, e, hl, ?_, hc⟩
      unfold shardOf
      rw [hshard]
      split
      · rename_i hi
        rw [take_place_other hkk]
        unfold shardOf at he ⊢
        rw [← hi]
        exact he
      · exact he

variable {before after : Option KeyState}

theorem Sound.wrote (h : Sound cfg r)
    (hahead : before ≠ after → ∀ (l : Nat) link, r.links[l]? = some link →
      ∃ e, (r.shardOf cfg key).map key = some e ∧ link.cursor (cfg.shard_of key) < e.changed)
    (clock : Hlc) : Sound cfg { r with clock, trace := .Wrote key before after :: r.trace } := by
  refine ⟨h.marks, h.read_to, h.placed, h.cursor, ?_, ?_⟩
  · intro l hl
    exact h.linked l (by simpa using hl)
  · intro l k hk
    rcases hk with ⟨rfl, hne, hin⟩ | hold
    · obtain ⟨link, hlink, -⟩ := h.linked l hin
      obtain ⟨e, he, hc⟩ := hahead hne l link hlink
      exact ⟨link, e, hlink, he, hc⟩
    · exact h.owed l k hold

def Settled (cfg : Config) (r : Replica) (key : Key) (w : Write) (wall_ms : UInt64) : Prop :=
  ∀ e, (r.shardOf cfg key).map key = some e →
    Settles cfg.json cfg.node e.state (r.clock.physical_ms wall_ms) w

variable {w : Write} {wall_ms : UInt64}

/-- A write settles with a key that holds nothing, and with a value that has not expired and is
not a counter. -/
theorem settled_of_simple
    (h : ((r.shardOf cfg key).map key).all (fun e =>
      !expired e.state (r.clock.physical_ms wall_ms) &&
        match e.state.data with | some (.Sum _) => false | _ => true) = true) :
    Settled cfg r key w wall_ms := by
  intro e he
  simp only [he, Option.all_some, Bool.and_eq_true, Bool.not_eq_true'] at h
  refine ⟨?_, ?_⟩
  · intro hexp
    rw [h.1] at hexp
    cases hexp
  · intro _ c hc
    simp [hc] at h

theorem sound_write (h : Sound cfg r) {ttl default_ttl : Option UInt64} {room : Bool}
    (hset : Settled cfg r key w wall_ms) :
    Sound cfg (r.write cfg key w ttl default_ttl wall_ms room) := by
  unfold Replica.write
  dsimp only
  split
  · exact h
  · cases hm : (r.shardOf cfg key).map key with
    | none =>
      simp only [Option.getD_none, Option.isNone_none, if_true, Option.map_none]
      have hdata : KeyState.empty.data = none := rfl
      have hsame : ∀ state : KeyState, (Entry.mk state 0).changed =
          (((r.shardOf cfg key).map key).map Entry.changed).getD 0 := by simp [hm]
      split
      · exact h.wrote (fun hne => absurd rfl hne) _
      · rename_i moved state clock happly
        obtain rfl := apply_none_moves hdata happly
        rw [if_pos rfl]
        obtain ⟨hmove, hahead⟩ := h.move (hsame state)
        exact hmove.wrote (fun _ => hahead) _
    | some entry =>
      simp only [Option.getD_some, Option.isNone_some, Option.map_some]
      have hsame : ∀ state : KeyState, (Entry.mk state entry.changed).changed =
          (((r.shardOf cfg key).map key).map Entry.changed).getD 0 := by simp [hm]
      split
      · rename_i err state clock happly
        have hstate := apply_same (hset entry hm) happly (by simp)
        subst hstate
        exact (h.keep (hsame entry.state)).wrote (fun hne => absurd (by simp) hne) _
      · rename_i moved state clock happly
        cases moved with
        | true =>
          obtain ⟨hmove, hahead⟩ := h.move (hsame state)
          exact hmove.wrote (fun _ => hahead) _
        | false =>
          have hstate := apply_same (hset entry hm) happly (by simp)
          subst hstate
          exact (h.keep (hsame entry.state)).wrote (fun hne => absurd rfl hne) _

theorem sound_merge (h : Sound cfg r) (key : Key) (bytes : Bytes) (wall_ms : UInt64)
    (room known : Bool) : Sound cfg (r.merge cfg key bytes wall_ms room known) := by
  unfold Replica.merge
  split
  · exact h
  · split
    · exact h
    · rename_i theirs _
      split
      · exact h
      · rename_i clock _
        have hclock := h.clock clock
        dsimp only
        split
        · rename_i hm
          split
          · exact hclock
          · split
            · refine hclock.keep ?_
              rw [hm]
              rfl
            · exact hclock
        · rename_i entry hm
          split
          · exact hclock
          · refine hclock.keep ?_
            rw [hm]
            rfl

theorem sound_forget (h : Sound cfg r) (key : Key) (wall_ms : UInt64) :
    Sound cfg (r.forget cfg key wall_ms) := by
  unfold Replica.forget
  split
  · exact h
  · rename_i entry hm
    split
    · have hother : ∀ k, k ≠ key → ((r.shardOf cfg key).detach key).map k =
          (r.shardOf cfg key).map k := by
        intro k hk
        simp [Shard.detach, hm, Shard.put, hk]
      have hmarks : ((r.shardOf cfg key).detach key).last = (r.shardOf cfg key).last ∧
          ((r.shardOf cfg key).detach key).read_to = (r.shardOf cfg key).read_to := by
        simp [Shard.detach, hm, Shard.put]
      refine ⟨?_, ?_, ?_, ?_, ?_, ?_⟩
      · intro i
        dsimp only [setShard]
        split
        · rename_i hi
          subst hi
          rw [hmarks.1]
          exact h.marks _
        · exact h.marks i
      · intro i
        dsimp only [setShard]
        split
        · rename_i hi
          subst hi
          rw [hmarks.1, hmarks.2]
          exact h.read_to _
        · exact h.read_to i
      · intro i
        dsimp only [setShard]
        split
        · exact (h.placed _).detach key
        · exact h.placed i
      · intro l link hl i
        dsimp only [setShard]
        split
        · rename_i hi
          subst hi
          rw [hmarks.2]
          exact h.cursor l link hl _
        · exact h.cursor l link hl i
      · intro l hl
        exact h.linked l (by simpa using hl)
      · intro l k hk
        obtain ⟨hkk, hold⟩ := hk
        obtain ⟨link, e, hl, he, hc⟩ := h.owed l k hold
        refine ⟨link, e, hl, ?_, hc⟩
        dsimp only [shardOf, setShard]
        split
        · rename_i hi
          refine (hother k (Ne.symm hkk)).trans ?_
          unfold shardOf at he ⊢
          rw [← hi]
          exact he
        · exact he
    · exact h

variable {l : Nat} {link link' : Link}

theorem getElem?_setLink {l' : Nat} {x : Link}
    (hx : (r.links.set l link')[l']? = some x) : l' = l ∧ x = link' ∨ l' ≠ l ∧
      r.links[l']? = some x := by
  rw [List.getElem?_set] at hx
  split at hx
  · rename_i heq
    split at hx
    · exact .inl ⟨heq.symm, (Option.some.inj hx).symm⟩
    · simp at hx
  · rename_i hne
    exact .inr ⟨Ne.symm hne, hx⟩

theorem setLink_self (hl : r.links[l]? = some link) : (r.links.set l link')[l]? = some link' := by
  have hlt : l < r.links.length := (List.getElem?_eq_some_iff.mp hl).1
  simp [hlt]

/-- A link that was there is there, as it was or as it is set. -/
theorem setLink_of_get (link' : Link) (hl : r.links[l]? = some link) {l' : Nat} {x : Link}
    (hx : r.links[l']? = some x) :
    ∃ y, (r.links.set l link')[l']? = some y ∧ (l' = l ∧ x = link ∧ y = link' ∨ l' ≠ l ∧ y = x) := by
  by_cases heq : l' = l
  · subst heq
    exact ⟨link', setLink_self hl, .inl ⟨rfl, Option.some.inj (hx.symm.trans hl), rfl⟩⟩
  · exact ⟨x, (List.getElem?_set_ne (Ne.symm heq)).trans hx, .inr ⟨heq, rfl⟩⟩

/-- A link reads on in one shard: the mark of what is read follows it, and what it is still owed
there is further on. -/
theorem Sound.read_on (h : Sound cfg r) {at_ m : Nat} {trace : List Event}
    (hl : r.links[l]? = some link) (hnm : n ≤ m) (hm : m ≤ (r.shards at_).last)
    (hread : (r.shards at_).read_to ≤ m)
    (hcursor : link'.cursor = fun i => if i = at_ then n else link.cursor i)
    (hmade : link.made = SHARDS → link'.made = SHARDS)
    (hlinked : ∀ x, .Linked x ∈ trace → .Linked x ∈ r.trace ∨ x = l ∧ link'.made = SHARDS)
    (howed : ∀ x key, Owes x key trace → Owes x key r.trace ∧ (x = l → cfg.shard_of key = at_ →
      ∀ e, (r.shardOf cfg key).map key = some e → link.cursor at_ < e.changed → n < e.changed)) :
    Sound cfg { (r.setShard at_ { r.shards at_ with read_to := m }).setLink l link' with trace } := by
  have hshard : ∀ i, ((r.setShard at_ { r.shards at_ with read_to := m }).setLink l link').shards i =
      { r.shards i with read_to := if i = at_ then m else (r.shards i).read_to } := by
    intro i
    dsimp only [setShard, setLink]
    split
    · rename_i hi
      subst hi
      rfl
    · rfl
  refine ⟨?_, ?_, ?_, ?_, ?_, ?_⟩
  · intro i
    dsimp only
    rw [hshard]
    exact h.marks i
  · intro i
    dsimp only
    rw [hshard]
    dsimp only
    split
    · rename_i hi
      exact hi ▸ hm
    · exact h.read_to i
  · intro i
    dsimp only
    rw [hshard]
    exact ⟨(h.placed i).named, (h.placed i).there⟩
  · intro l' x hx i
    dsimp only
    rw [hshard]
    dsimp only
    rcases getElem?_setLink hx with ⟨-, rfl⟩ | ⟨-, hold⟩
    · rw [hcursor]
      dsimp only
      split
      · exact hnm
      · exact h.cursor l link hl i
    · have hle := h.cursor l' x hold i
      split
      · rename_i hi
        subst hi
        exact Nat.le_trans hle hread
      · exact hle
  · intro x hx
    rcases hlinked x hx with hold | ⟨rfl, hdone⟩
    · obtain ⟨y, hy, hymade⟩ := h.linked x hold
      obtain ⟨y', hy', ⟨-, rfl, rfl⟩ | ⟨-, rfl⟩⟩ := setLink_of_get link' hl hy
      · exact ⟨_, hy', hmade hymade⟩
      · exact ⟨_, hy', hymade⟩
    · exact ⟨link', setLink_self hl, hdone⟩
  · intro x key hx
    obtain ⟨hold, hfurther⟩ := howed x key hx
    obtain ⟨y, e, hy, he, hc⟩ := h.owed x key hold
    have hmap : (({ (r.setShard at_ { r.shards at_ with read_to := m }).setLink l link' with
        trace } : Replica).shardOf cfg key).map key = some e := by
      unfold shardOf
      dsimp only
      rw [hshard]
      exact he
    obtain ⟨y', hy', ⟨hxl, rfl, rfl⟩ | ⟨-, rfl⟩⟩ := setLink_of_get link' hl hy
    · refine ⟨_, e, hy', hmap, ?_⟩
      rw [hcursor]
      dsimp only
      split
      · rename_i hi
        exact hfurther hxl hi e he (hi ▸ hc)
      · exact hc
    · exact ⟨_, e, hy', hmap, hc⟩

theorem Sound.relink (h : Sound cfg r) (hl : r.links[l]? = some link)
    (hcursor : link'.cursor = link.cursor) (hmade : link'.made = link.made) :
    Sound cfg (r.setLink l link') := by
  refine ⟨h.marks, h.read_to, h.placed, ?_, ?_, ?_⟩
  · intro l' x hx i
    rcases getElem?_setLink hx with ⟨-, rfl⟩ | ⟨-, hold⟩
    · rw [hcursor]
      exact h.cursor l link hl i
    · exact h.cursor l' x hold i
  · intro x hx
    obtain ⟨y, hy, hymade⟩ := h.linked x hx
    obtain ⟨y', hy', ⟨-, rfl, rfl⟩ | ⟨-, rfl⟩⟩ := setLink_of_get link' hl hy
    · exact ⟨_, hy', hmade.trans hymade⟩
    · exact ⟨_, hy', hymade⟩
  · intro x key hx
    obtain ⟨y, e, hy, he, hc⟩ := h.owed x key hx
    obtain ⟨y', hy', ⟨-, rfl, rfl⟩ | ⟨-, rfl⟩⟩ := setLink_of_get link' hl hy
    · exact ⟨_, e, hy', he, by rw [hcursor]; exact hc⟩
    · exact ⟨_, e, hy', he, hc⟩

theorem next_turn_cursor (link : Link) (call : Call) :
    (next_turn link call).cursor = link.cursor ∧ (next_turn link call).made = link.made := by
  unfold next_turn
  split
  · exact ⟨rfl, rfl⟩
  · split
    · exact ⟨rfl, rfl⟩
    · exact ⟨rfl, rfl⟩

theorem sound_open (h : Sound cfg r) : Sound cfg { r with links := r.links ++ [({} : Link)] } := by
  have hold : ∀ {l : Nat} {x : Link}, r.links[l]? = some x →
      (r.links ++ [({} : Link)])[l]? = some x := by
    intro l x hx
    rw [List.getElem?_append_left (List.getElem?_eq_some_iff.mp hx).1]
    exact hx
  refine ⟨h.marks, h.read_to, h.placed, ?_, ?_, ?_⟩
  · intro l x hx i
    rw [List.getElem?_append] at hx
    split at hx
    · exact h.cursor l x hx i
    · have hnew : x = ({} : Link) := by
        cases hk : l - r.links.length with
        | zero => simpa [hk] using hx.symm
        | succ k => simp [hk] at hx
      rw [hnew]
      exact Nat.zero_le _
  · intro l hl
    obtain ⟨x, hx, hmade⟩ := h.linked l hl
    exact ⟨x, hold hx, hmade⟩
  · intro l key hk
    obtain ⟨x, e, hx, he, hc⟩ := h.owed l key hk
    exact ⟨x, e, hold hx, he, hc⟩

theorem sound_place (h : Sound cfg r) (l : Nat) : Sound cfg (r.place l) := by
  unfold Replica.place
  split
  · exact h
  · rename_i link hl
    split
    · rename_i hlt
      -- The link is not made yet, so that nothing is owed to it.
      have hnone : ∀ x key, Owes x key r.trace → x ≠ l := by
        rintro x key hx rfl
        obtain ⟨y, hy, hmade⟩ := h.linked x hx.linked
        rw [hl] at hy
        cases hy
        omega
      have hstep : ∀ trace, (∀ x, .Linked x ∈ trace → .Linked x ∈ r.trace ∨ x = l ∧
            link.made + 1 = SHARDS) → (∀ x key, Owes x key trace → Owes x key r.trace) →
          Sound cfg { (r.setShard link.made { r.shards link.made with
              read_to := (r.shards link.made).last }).setLink l { link with
                cursor := fun i => if i = link.made then (r.shards link.made).last
                  else link.cursor i
                made := link.made + 1 } with trace } := by
        intro trace hlinked howed
        refine h.read_on hl (Nat.le_refl _) (Nat.le_refl _) (h.read_to _) rfl ?_ hlinked ?_
        · intro hmade
          omega
        · intro x key hx
          exact ⟨howed x key hx, fun hxl => absurd hxl (hnone x key (howed x key hx))⟩
      dsimp only
      split
      · rename_i hdone
        refine hstep _ ?_ (fun x key hx => hx)
        intro x hx
        rcases List.mem_cons.mp hx with heq | hold
        · cases heq
          exact .inr ⟨rfl, hdone⟩
        · exact .inl hold
      · exact hstep r.trace (fun x hx => .inl hx) (fun x key hx => hx)
    · exact h

theorem sound_begin (h : Sound cfg r) (l budget : Nat) : Sound cfg (r.begin_take l budget) := by
  unfold Replica.begin_take
  split
  · rename_i link hl
    split
    · exact h.relink hl rfl rfl
    · exact h
  · exact h

theorem sound_turn (h : Sound cfg r) (l : Nat) : Sound cfg (r.turn cfg l) := by
  unfold Replica.turn
  split
  · exact h
  · rename_i link hl
    split
    · exact h
    · rename_i call hcall
      dsimp only
      generalize (link.from_ + call.step) % SHARDS = at_
      split
      · exact h.relink hl (next_turn_cursor link call).1 (next_turn_cursor link call).2
      · generalize ht : take_keys cfg (r.shards at_).map call.budget
          (after (r.shards at_).changed (link.cursor at_)) call.bytes 0 = t
        have hlast := read_le_last cfg (h.placed at_) call.budget (link.cursor at_) call.bytes
        rw [ht] at hlast
        refine h.read_on hl (Nat.le_max_right _ _) (Nat.max_le.mpr ⟨h.read_to at_, hlast⟩)
          (Nat.le_max_left _ _) ?_ ?_ ?_ ?_
        · split
          · rfl
          · exact (next_turn_cursor _ _).1
        · intro hmade
          split
          · exact hmade
          · exact (next_turn_cursor _ _).2.trans hmade
        · intro x hx
          left
          rcases List.mem_append.mp hx with hout | hold
          · simp at hout
          · exact hold
        · intro x key hx
          obtain ⟨hold, hnot⟩ := owes_handed hx
          refine ⟨hold, ?_⟩
          rintro rfl hat e he hc
          subst hat
          rcases ahead_or_handed cfg (h.placed _) he hc call.budget call.bytes with ⟨st, hst⟩ | hlt
          · rw [ht] at hst
            exact absurd hst (hnot rfl st)
          · rw [ht] at hlt
            exact hlt

/-! ## A run -/

variable (cfg) in
def Fine (r : Replica) : Step → Prop
  | .Write key w _ _ wall_ms _ => Settled cfg r key w wall_ms
  | _ => True

variable (cfg) in
def RunFine (r : Replica) : List Step → Prop
  | [] => True
  | s :: rest => Fine cfg r s ∧ RunFine (r.step cfg s) rest

theorem sound_step (h : Sound cfg r) {s : Step} (hs : Fine cfg r s) : Sound cfg (r.step cfg s) := by
  cases s with
  | Write key w ttl default_ttl wall_ms room => exact sound_write h hs
  | Merge key bytes wall_ms room known => exact sound_merge h key bytes wall_ms room known
  | Forget key wall_ms => exact sound_forget h key wall_ms
  | Open => exact sound_open h
  | Place l => exact sound_place h l
  | Take l budget => exact sound_begin h l budget
  | Turn l => exact sound_turn h l

theorem sound_run (h : Sound cfg r) {steps : List Step} (hs : RunFine cfg r steps) :
    Sound cfg (r.run cfg steps) := by
  induction steps generalizing r with
  | nil => exact h
  | cons s rest ih => exact ih (sound_step h hs.1) hs.2

theorem owes_since {post pre : List Event} (hlinked : .Linked l ∈ pre) (hne : before ≠ after)
    (hforgot : .Forgot key ∉ post) (hhanded : ∀ s, .Handed l key s ∉ post) :
    Owes l key (post ++ .Wrote key before after :: pre) := by
  induction post with
  | nil => exact .inl ⟨rfl, hne, hlinked⟩
  | cons e post ih =>
    have hrest := ih (fun h => hforgot (List.mem_cons_of_mem _ h))
      (fun s h => hhanded s (List.mem_cons_of_mem _ h))
    cases e with
    | Wrote k before after => exact .inr hrest
    | Forgot k =>
      refine ⟨?_, hrest⟩
      rintro rfl
      exact hforgot List.mem_cons_self
    | Linked l' => exact hrest
    | Handed l' k s =>
      refine ⟨?_, hrest⟩
      rintro ⟨rfl, rfl⟩
      exact hhanded s List.mem_cons_self

theorem Sound.has_changes (h : Sound cfg r) (he : (r.shardOf cfg key).map key = some e)
    (hc : link.cursor (cfg.shard_of key) < e.changed) : r.has_changes link = true := by
  have hlast := ((h.placed _).named key e he (by omega)).2
  have hmark := h.marks (cfg.shard_of key)
  unfold Replica.has_changes
  rw [List.any_eq_true]
  refine ⟨cfg.shard_of key, List.mem_range.mpr (cfg.shard_lt key), ?_⟩
  rw [decide_eq_true_iff, hmark]
  exact Nat.lt_of_lt_of_le hc hlast

variable (cfg) in
/-- Of each change by a write since a link was made: the key was forgotten since, the link was
handed the key's state since, or the key's place is ahead of the link, which sees changes. -/
def NoChangeLost (r : Replica) : Prop :=
  ∀ l key before after post pre, r.trace = post ++ .Wrote key before after :: pre →
    .Linked l ∈ pre → before ≠ after →
    .Forgot key ∈ post ∨ (∃ s, .Handed l key s ∈ post) ∨
      ∃ link e, r.links[l]? = some link ∧ (r.shardOf cfg key).map key = some e ∧
        link.cursor (cfg.shard_of key) < e.changed ∧ r.has_changes link = true

/-- No change by a rule is lost to a link, whatever order the writes, the merges, the forgetting
and the links' reading come in, when each write settles with what its key holds. -/
theorem no_change_is_lost_to_a_link (cfg : Config) (clock : Hlc) (steps : List Step)
    (hfine : RunFine cfg (new clock) steps) : NoChangeLost cfg ((new clock).run cfg steps) := by
  have hsound := sound_run (sound_new clock) hfine
  intro l key before after post pre htrace hlinked hne
  by_cases hforgot : .Forgot key ∈ post
  · exact .inl hforgot
  by_cases hhanded : ∃ s, .Handed l key s ∈ post
  · exact .inr (.inl hhanded)
  have howes := owes_since hlinked hne hforgot (fun s hs => hhanded ⟨s, hs⟩)
  rw [← htrace] at howes
  obtain ⟨link, e, hlink, he, hc⟩ := hsound.owed l key howes
  exact .inr (.inr ⟨link, e, hlink, he, hc, hsound.has_changes he hc⟩)

def key_cfg : Config where
  json := decimals
  node := "a"
  shard_of key := key.length % SHARDS
  shard_lt key := Nat.mod_lt _ (by decide)
  window_ms := 600000

def first_link : List Step := .Open :: List.replicate SHARDS (.Place 0)

/-- A counter of another node, and a write that adds 0 to it here. -/
def counted_elsewhere : KeyState := ⟨Stamp.ZERO, some (.Sum ⟨[⟨"b", 5, 0⟩]⟩), 0⟩

def add_nothing : List Step :=
  .Merge [107] (counted_elsewhere.encoded decimals) 1000 true false ::
    first_link ++ [.Write [107] (.Incr 0) none none 1000 true]

set_option maxRecDepth 20000 in
theorem adding_nothing_is_lost :
    ¬ NoChangeLost key_cfg ((new ⟨0, 7⟩).run key_cfg add_nothing) := by
  intro h
  have htrace : ((new ⟨0, 7⟩).run key_cfg add_nothing).trace =
      [.Wrote [107] (some counted_elsewhere)
        (some { counted_elsewhere with data := some (.Sum ⟨[⟨"a", 0, 0⟩, ⟨"b", 5, 0⟩]⟩) }),
        .Linked 0] := by
    rfl
  have hplace : ((((new ⟨0, 7⟩).run key_cfg add_nothing).shardOf key_cfg [107]).map [107]).map
      Entry.changed = some 0 := by
    decide +kernel
  rcases h 0 [107] _ _ [] _ htrace (by simp) (by simp [counted_elsewhere]) with h | ⟨s, h⟩ | h
  · simp at h
  · simp at h
  · obtain ⟨link, e, -, he, hc, -⟩ := h
    rw [he] at hplace
    simp only [Option.map_some, Option.some.injEq] at hplace
    omega

/-- A key changed, handed to the link, and changed again. -/
def changed_twice : List Step :=
  first_link ++ [.Write [107] (.Set (.Int 1)) none none 1000 true, .Take 0 4096] ++
    List.replicate SHARDS (.Turn 0) ++ [.Write [107] (.Set (.Int 2)) none none 2000 true]

set_option maxRecDepth 20000 in
theorem changed_twice_is_not_lost : RunFine key_cfg (new ⟨0, 7⟩) changed_twice ∧
    NoChangeLost key_cfg ((new ⟨0, 7⟩).run key_cfg changed_twice) := by
  have hfine : RunFine key_cfg (new ⟨0, 7⟩) changed_twice := by
    simp only [changed_twice, first_link, SHARDS, List.replicate, List.cons_append,
      List.nil_append, RunFine, Fine, true_and, and_true]
    exact ⟨settled_of_simple (by decide +kernel), settled_of_simple (by decide +kernel)⟩
  exact ⟨hfine, no_change_is_lost_to_a_link key_cfg _ _ hfine⟩

end Replica

end mqttd.rule_state.replica
