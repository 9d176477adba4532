-- Copies of one key that spread by merges (`crdt.rs`): however the states that were heard
-- were ordered, grouped and repeated on the way, two copies that go back to the same ones
-- are one state.
import MqttBroker.Lib.JoinTree
import MqttBroker.Rules.CrdtJoin

namespace mqtt_rules

open SortedJoin

variable {json : Json} {heard : List KeyState} {a b : KeyState}

/-- A state that merges of what was heard can give: an `lww` write that it holds was heard. -/
structure Gathered (json : Json) (heard : List KeyState) (s : KeyState) : Prop where
  ok : StateOk json s
  lww : ∀ stamp v, s.data = some (.Lww stamp v) →
    ∃ x ∈ heard, x.data = some (.Lww stamp v) ∧ x.expires_ms = s.expires_ms

theorem gathered_heard (hok : StateOk json a) (h : a ∈ heard) : Gathered json heard a :=
  ⟨hok, fun _ _ hdata => ⟨a, h, hdata, rfl⟩⟩

theorem lww_of_merge {stamp : Stamp} {v : Value} (h : (a.merge json b).data = some (.Lww stamp v)) :
    ∃ x ∈ [a, b], x.data = some (.Lww stamp v) ∧ x.expires_ms = (a.merge json b).expires_ms := by
  have hheld : held (a.merge json b) = some (.Lww stamp v, (a.merge json b).expires_ms) := by
    rw [held, h]
    rfl
  rw [held_merge] at hheld
  rcases hp : alive a (max a.deleted b.deleted) with _ | p
  · rw [hp, none_either] at hheld
    exact ⟨b, by simp, (alive_eq_some.mp hheld).1⟩
  have hmine : p = (.Lww stamp v, (a.merge json b).expires_ms) →
      ∃ x ∈ [a, b], x.data = some (.Lww stamp v) ∧ x.expires_ms = (a.merge json b).expires_ms := by
    rintro rfl
    exact ⟨a, by simp, (alive_eq_some.mp hp).1⟩
  rcases hq : alive b (max a.deleted b.deleted) with _ | q
  · rw [hp, hq, either_none] at hheld
    exact hmine (Option.some.inj hheld)
  rw [hp, hq] at hheld
  have hjoined : joined json p q = (.Lww stamp v, (a.merge json b).expires_ms) :=
    Option.some.inj hheld
  have hor : joined json p q = p ∨ joined json p q = q := by
    by_cases hpl : IsLww p.1
    · by_cases hql : IsLww q.1
      · obtain ⟨⟨pd, pe⟩, ⟨qd, qe⟩⟩ := p, q
        obtain ⟨s, w, rfl⟩ := hpl
        obtain ⟨t, u, rfl⟩ := hql
        exact (joined_lww s t w u pe qe).imp And.left And.left
      · exact .inl (joined_lww_left hpl hql)
    · by_cases hql : IsLww q.1
      · exact .inr (joined_lww_right hpl hql)
      · have hlww : IsLww (joined json p q).1 := ⟨stamp, v, by rw [hjoined]⟩
        exact absurd hlww (joined_other hpl hql)
  rcases hor with h | h
  · exact hmine (h.symm.trans hjoined)
  · obtain rfl := h.symm.trans hjoined
    exact ⟨b, by simp, (alive_eq_some.mp hq).1⟩

theorem laws_gathered (hclash : ∀ x ∈ heard, ∀ y ∈ heard, ¬ Clash x y) :
    JoinTree.Laws (KeyState.merge json) (Gathered json heard) where
  closed {a b} ha hb := by
    refine ⟨merge_ok ha.ok hb.ok, ?_⟩
    intro stamp v hdata
    obtain ⟨x, hx, hwrite, hexpires⟩ := lww_of_merge hdata
    rw [← hexpires]
    rcases List.mem_pair.mp hx with rfl | rfl
    · exact ha.lww stamp v hwrite
    · exact hb.lww stamp v hwrite
  assoc ha hb hc :=
    merge_assoc (stateOk_iff.mp ha.ok) (stateOk_iff.mp hb.ok) (stateOk_iff.mp hc.ok)
  comm ha hb := by
    apply merge_comm ha.ok hb.ok
    rintro ⟨stamp, v, hdata, hdata', hend⟩
    obtain ⟨x, hx, hwrite, hexpires⟩ := ha.lww stamp v hdata
    obtain ⟨y, hy, hwrite', hexpires'⟩ := hb.lww stamp v hdata'
    rw [← hexpires, ← hexpires'] at hend
    exact hclash x hx y hy ⟨stamp, v, hwrite, hwrite', hend⟩
  idem ha := merge_self (stateOk_iff.mp ha.ok)

/-- Two copies that were merged from the same accepted states are the same bytes, in whatever
order, grouping and number the states were merged, if no two of the states clash. -/
theorem copies_of_the_same_states_agree (json : Json) (mine theirs : JoinTree KeyState)
    (hread : ∀ s ∈ mine.leaves, ∃ bytes, KeyState.decode json bytes = .ok s)
    (hclash : ∀ x ∈ mine.leaves, ∀ y ∈ mine.leaves, ¬ Clash x y)
    (hsame : ∀ s, s ∈ mine.leaves ↔ s ∈ theirs.leaves) :
    (mine.join (KeyState.merge json)).encoded json =
      (theirs.join (KeyState.merge json)).encoded json := by
  have hgathered : ∀ s ∈ mine.leaves, Gathered json mine.leaves s := by
    intro s hs
    obtain ⟨bytes, hbytes⟩ := hread s hs
    exact gathered_heard (decode_ok hbytes) hs
  rw [JoinTree.join_eq (laws_gathered hclash) hgathered hsame]

/-- A write, a delete with a write since, and the first write once more. -/
def repeated : JoinTree KeyState :=
  .Node (.Node (.Leaf (copy_until 0)) (.Leaf since_delete)) (.Leaf (copy_until 0))

theorem a_repeated_state_changes_nothing :
    (((copy_until 0).merge constants since_delete).merge constants (copy_until 0)).encoded constants =
      (since_delete.merge constants (copy_until 0)).encoded constants := by
  have hleaves : repeated.leaves = [copy_until 0, since_delete, copy_until 0] := rfl
  apply copies_of_the_same_states_agree constants repeated
    (.Node (.Leaf since_delete) (.Leaf (copy_until 0)))
  · rw [hleaves]
    rintro s (_ | ⟨_, _ | ⟨_, _ | ⟨_, ⟨⟩⟩⟩⟩)
    · exact ⟨_, decode_encoded (copy_until_ok 0)⟩
    · exact ⟨_, decode_encoded since_delete_ok⟩
    · exact ⟨_, decode_encoded (copy_until_ok 0)⟩
  · have hsoon : ∀ s ∈ repeated.leaves, s.expires_ms ≠ 18446744073709551615 := by decide
    rintro x hx y hy ⟨-, -, -, -, ⟨-, h⟩ | ⟨h, -⟩⟩
    · exact hsoon y hy h
    · exact hsoon x hx h
  · intro s
    simp [hleaves, JoinTree.leaves]
    tauto

end mqtt_rules
