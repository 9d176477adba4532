-- What a visit of the keys that are due leaves of the states of a shard: a key is gone only if
-- nothing is lost by it, and the others are as they were.
import MqttBroker.Lib.MapBag
import MqttBroker.RuleState.CopyCalls

namespace mqttd.rule_state.copy

open mqtt_rules
open mqttd.rule_state.local_store (Key)
open mqttd.rule_state.replica.Replica (expired forgettable)

namespace Shard

variable {s s' : Shard} {key k : Key} {e e' : Entry} {at_ : Nat ×ₗ Nat} {w : Waiting} {slot : Nat}

theorem get_put (k : Key) : (s.put key e).map[k]? = if key = k then some e else s.map[k]? := by
  simp [put, BTreeMap.get_insert]

@[simp] theorem map_set_due : (s.set_due key e slot).map = s.map.insert key { e with due := slot } := by
  unfold set_due
  split
  · rename_i h
    subst h
    rfl
  · rfl

theorem detach_eq (he : s.map[key]? = some e) : s.detach key = some (e, { s with
    map := s.map.erase key
    changed := if e.changed ≠ 0 then s.changed.erase e.changed else s.changed
    due := if e.due ≠ 0 then s.due.erase (toLex (e.due, key)) else s.due }) := by
  unfold detach
  rw [he]

/-- The note at a place, whoever raises its event. -/
def note (s : Shard) (at_ : Nat ×ₗ Nat) : Option Waiting := s.held[at_]?.or s.standby[at_]?

theorem note_of_held (h : s.held[at_]? = some w) : s.note at_ = some w := by
  simp [note, h]

@[simp] theorem map_wait : (s.wait w).2.map = s.map := by
  unfold wait
  dsimp only
  split <;> rfl

/-- The tables after a note took a body. -/
structure Bodied (s s' : Shard) (at_ : Nat ×ₗ Nat) (w : Waiting) (body : KeyState × Nat) : Prop where
  had : s.note at_ = some w
  held : s'.held = s.held.insert at_ { w with body := some body } ∧ s.held[at_]? = some w ∧
      s'.standby = s.standby ∨
    s'.standby = s.standby.insert at_ { w with body := some body } ∧ s.held[at_]? = none ∧
      s.standby[at_]? = some w ∧ s'.held = s.held
  map : s'.map = s.map
  changed : s'.changed = s.changed
  due : s'.due = s.due
  last : s'.last = s.last
  waits : s'.waits = s.waits
  made : s'.made = s.made

theorem set_body_some {x : UInt64} {p : Nat} {body : KeyState × Nat}
    (h : s.set_body x p body = some s') : ∃ w, Bodied s s' (note_at x p) w body := by
  unfold set_body at h
  rcases hh : s.held[note_at x p]? with _ | w
  · rcases hs : s.standby[note_at x p]? with _ | w
    · simp [hh, hs] at h
    · simp only [hh, hs, Option.some.injEq] at h
      subst h
      exact ⟨w, by simp [note, hh, hs], .inr ⟨rfl, hh, hs, rfl⟩, rfl, rfl, rfl, rfl, rfl, rfl⟩
  · simp only [hh, Option.some.injEq] at h
    subst h
    exact ⟨w, note_of_held hh, .inl ⟨rfl, hh, rfl⟩, rfl, rfl, rfl, rfl, rfl, rfl⟩

end Shard

namespace Hold

open Shard

variable {h : Hold} {key : Key} {e : Entry} {w now : UInt64} {set : Setting} {bounds : Bounds}

/-! ## What a visit leaves of the states -/

/-- Nothing has another state: a key is gone only if nothing is lost by it. -/
structure Fades (w now : UInt64) (s s' : Shard) : Prop where
  absent : ∀ k : Key, s.map[k]? = none → s'.map[k]? = none
  held : ∀ (k : Key) e, s.map[k]? = some e →
    (s'.map[k]? = none ∧ forgettable e.state now w = true) ∨
      ∃ e', s'.map[k]? = some e' ∧ e'.state = e.state ∧ e'.hash = e.hash

theorem Fades.of_map (w now : UInt64) {s s' : Shard} (h : s'.map = s.map) : Fades w now s s' :=
  ⟨fun _ hk => h ▸ hk, fun _ e hk => .inr ⟨e, h ▸ hk, rfl, rfl⟩⟩

theorem Fades.refl (w now : UInt64) (s : Shard) : Fades w now s s := .of_map w now rfl

theorem Fades.trans {s s' s'' : Shard} (h : Fades w now s s') (h' : Fades w now s' s'') :
    Fades w now s s'' := by
  refine ⟨fun k hk => h'.absent k (h.absent k hk), fun k e hk => ?_⟩
  obtain ⟨hgone, hf⟩ | ⟨e', hk', hstate, hhash⟩ := h.held k e hk
  · exact .inl ⟨h'.absent k hgone, hf⟩
  · obtain ⟨hgone, hf⟩ | ⟨e'', hk'', hstate', hhash'⟩ := h'.held k e' hk'
    · exact .inl ⟨hgone, hstate ▸ hf⟩
    · exact .inr ⟨e'', hk'', hstate'.trans hstate, hhash'.trans hhash⟩

/-- One key is gone, if nothing is lost by it, or has the state that it had. -/
def LeavesKey (w now : UInt64) (key : Key) (e : Entry) (m m' : BTreeMap Key Entry) : Prop :=
  (∀ k : Key, k ≠ key → m'[k]? = m[k]?) ∧ (m'[key]? = none ∧ forgettable e.state now w = true ∨
    ∃ e', m'[key]? = some e' ∧ e'.state = e.state ∧ e'.hash = e.hash)

variable {m : BTreeMap Key Entry} {e' : Entry}

theorem leavesKey_erase (hlost : forgettable e.state now w = true) :
    LeavesKey w now key e m ((m.insert key e').erase key) := by
  refine ⟨fun k hk => ?_, .inl ⟨by simp, hlost⟩⟩
  rw [BTreeMap.get_erase, if_neg (Ne.symm hk), BTreeMap.get_insert, if_neg (Ne.symm hk)]

theorem leavesKey_insert {e'' : Entry} (hstate : e''.state = e.state) (hhash : e''.hash = e.hash) :
    LeavesKey w now key e m ((m.insert key e').insert key e'') := by
  refine ⟨fun k hk => ?_, .inr ⟨e'', by simp, hstate, hhash⟩⟩
  rw [BTreeMap.get_insert, if_neg (Ne.symm hk), BTreeMap.get_insert, if_neg (Ne.symm hk)]

theorem visit_key_states : LeavesKey set.window_ms now key e h.shard.map
    (h.visit_key set key e now).2.shard.map := by
  unfold Hold.visit_key
  dsimp only
  generalize (expired e.state now && decide (e.evented ≠ e.state.expires_ms)) = owed
  generalize he1 : (if owed = true then { e with evented := e.state.expires_ms } else e) = e1
  have hstate : e1.state = e.state := by rw [← he1]; split <;> rfl
  have hhash : e1.hash = e.hash := by rw [← he1]; split <;> rfl
  have he1' : (h.shard.put key e1).map[key]? = some e1 := by simp [get_put]
  have hdet := detach_eq he1'
  split
  · split
    · rename_i hlost
      rw [hdet]
      dsimp only
      rw [map_wait]
      exact leavesKey_erase hlost
    · rw [map_set_due, map_wait]
      exact leavesKey_insert hstate hhash
  · generalize hh : (if owed = true then (⟨h.shard.put key e1, h.books.count_expired⟩ : Hold)
        else ⟨h.shard.put key e1, h.books⟩) = h1
    have hshard : h1.shard = h.shard.put key e1 := by
      rw [← hh]
      split <;> rfl
    rcases h1 with ⟨s1, b1⟩
    dsimp only at hshard
    subst hshard
    split
    · rename_i hlost
      split
      · rw [hdet]
        dsimp only
        split
        · rename_i s' hset
          obtain ⟨v, hbod⟩ := set_body_some hset
          rw [hbod.map]
          exact leavesKey_erase hlost
        · exact leavesKey_erase hlost
      · unfold Hold.remove
        rw [hdet]
        exact leavesKey_erase hlost
    · rw [map_set_due]
      exact leavesKey_insert hstate hhash

theorem fades_visit_loop (n : Nat) (visited : Visited) :
    Fades set.window_ms now h.shard (Hold.visit_loop set now n visited h).2.shard := by
  induction n generalizing visited h with
  | zero => exact .refl _ _ _
  | succ n ih =>
    unfold Hold.visit_loop
    split
    · exact .refl _ _ _
    · rename_i first more hlist
      dsimp only
      split
      · have hnext : ∀ visited, Fades set.window_ms now h.shard (Hold.visit_loop set now n visited
            ⟨{ h.shard with due := h.shard.due.erase first }, h.books⟩).2.shard := by
          intro visited
          have hrest := ih (h := ⟨{ h.shard with due := h.shard.due.erase first }, h.books⟩) visited
          refine Fades.trans (.of_map _ _ ?_) hrest
          rfl
        split
        · exact hnext _
        · rename_i e he
          split
          · exact hnext _
          · refine Fades.trans ?_ (ih _)
            obtain ⟨hother, hkey⟩ := @visit_key_states
              ⟨{ h.shard with due := h.shard.due.erase first }, h.books⟩ (ofLex first).2
              { e with due := 0 } now set
            have hne : ∀ k : Key, h.shard.map[k]? = none → k ≠ (ofLex first).2 := by
              rintro k hk rfl
              rw [he] at hk
              cases hk
            refine ⟨fun k hk => by rw [hother k (hne k hk)]; exact hk, fun k x hk => ?_⟩
            by_cases hkk : k = (ofLex first).2
            · subst hkk
              obtain rfl := Option.some.inj (he.symm.trans hk)
              exact hkey
            · exact .inr ⟨x, by rw [hother k hkk]; exact hk, rfl, rfl⟩
      · exact .refl _ _ _

theorem fades_purge : Fades set.window_ms now h.shard (h.purge set now).2.shard :=
  @fades_visit_loop h _ set local_store.PURGE_BATCH {}

/-! ## Room for a new key -/

theorem fades_make_room (bytes : Nat) :
    Fades set.window_ms now h.shard (h.make_room set now bounds bytes).2.shard := by
  unfold Hold.make_room
  rcases hr : h.books.reserve_within bounds bytes with refusal | books
  · dsimp only
    have hp := @fades_purge h now set
    rcases hpurge : h.purge set now with ⟨any, h1⟩
    rw [hpurge] at hp
    cases any with
    | false => exact hp
    | true =>
      dsimp only
      rcases hr' : h1.books.reserve_within bounds bytes with refusal' | books'
      · exact hp
      · exact hp
  · exact .refl _ _ _

end Hold

end mqttd.rule_state.copy
