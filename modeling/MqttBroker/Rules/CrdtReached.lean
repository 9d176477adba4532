-- What a node holds of a replicated key (`crdt.rs`): writes within the bounds of the rule
-- functions, and states of other nodes whose stamps its clock has accepted, leave states
-- that encode within the bound and that decode to themselves.
import MqttBroker.Rules.CrdtInflation

namespace mqtt_rules

open ByteCodec SortedJoin Wire

/-! ## What a node holds decodes -/

theorem accepted_mono {c c' : Hlc} {s : KeyState} (h : Accepted c s) (hle : c.last ≤ c'.last) :
    Accepted c' s := UInt64.le_trans h hle

theorem joined_stamped {json : Json} {p q : Held} {stamp : Stamp} {v : Value}
    (h : (joined json p q).1 = .Lww stamp v ∨ (joined json p q).1 = .First stamp v) :
    (joined json p q).1 = p.1 ∨ (joined json p q).1 = q.1 := by
  unfold joined at h ⊢
  rw [join_eq, layered] at h ⊢
  split
  · exact .inr rfl
  · split
    · exact .inl rfl
    · rename_i hlt hgt
      rw [if_neg hlt, if_neg hgt] at h
      have hsame : SameType p.1 q.1 := sameType_of_precedence (by omega)
      by_cases hlww : IsLww p.1
      · rw [same_lww hsame hlww]
        rcases least_cases p q with hl | hl
        · exact .inl (by rw [hl])
        · exact .inr (by rw [hl])
      · rw [same_other hsame hlww] at h ⊢
        dsimp only at h ⊢
        obtain ⟨d, e⟩ := p
        obtain ⟨d', e'⟩ := q
        cases hsame with
        | lww => exact absurd ⟨_, _, rfl⟩ hlww
        | @first s v t w =>
          dsimp only
          rw [join_first_eq (.first (s := s) (v := v)) .first]
          exact least_cases _ _
        | _ => simp [join_same] at h

theorem accepted_merge {json : Json} {c : Hlc} {s t : KeyState} (hs : Accepted c s)
    (ht : Accepted c t) : Accepted c (s.merge json t) := by
  have hdeleted : (max s.deleted t.deleted).time ≤ c.last := by
    rcases max_choice s.deleted t.deleted with h | h
    · rw [h]
      exact accepted_deleted hs
    · rw [h]
      exact accepted_deleted ht
  -- What the merge holds with a stamp, one of the two held.
  have hstamp : ∀ stamp v, (s.merge json t).data = some (.Lww stamp v) ∨
      (s.merge json t).data = some (.First stamp v) → stamp.time ≤ c.last := by
    intro stamp v hdata
    have hside {u : KeyState} {d : Data} {e : UInt64} {deleted : Stamp} (hu : Accepted c u)
        (halive : alive u deleted = some (d, e)) (hd : d = .Lww stamp v ∨ d = .First stamp v) :
        stamp.time ≤ c.last := by
      obtain ⟨⟨hheld, -⟩, -⟩ := alive_eq_some.mp halive
      apply accepted_stamp (v := v) hu
      rcases hd with rfl | rfl
      · exact .inl hheld
      · exact .inr hheld
    obtain ⟨d, hd, hcase⟩ : ∃ d, (s.merge json t).data = some d ∧
        (d = .Lww stamp v ∨ d = .First stamp v) := by
      rcases hdata with h | h
      · exact ⟨_, h, .inl rfl⟩
      · exact ⟨_, h, .inr rfl⟩
    have hheld : held (s.merge json t) = some (d, (s.merge json t).expires_ms) :=
      held_eq_some.mpr ⟨hd, rfl⟩
    rw [held_merge] at hheld
    rcases hx : alive s (max s.deleted t.deleted) with _ | p
    · rw [hx, none_either] at hheld
      exact hside ht hheld hcase
    · rcases hy : alive t (max s.deleted t.deleted) with _ | q
      · rw [hx, hy, either_none] at hheld
        rw [Option.some.inj hheld] at hx
        exact hside hs hx hcase
      · rw [hx, hy] at hheld
        have hjoined : joined json p q = (d, (s.merge json t).expires_ms) := Option.some.inj hheld
        have hone : (joined json p q).1 = d := by rw [hjoined]
        rcases joined_stamped (by rw [hone]; exact hcase) with h | h
        · exact hside hs (d := p.1) (e := p.2) hx (by rw [← h, hone]; exact hcase)
        · exact hside ht (d := q.1) (e := q.2) hy (by rw [← h, hone]; exact hcase)
  unfold Accepted KeyState.latest
  rw [deleted_merge]
  split
  · rename_i stamp v hdata
    rcases max_choice (max s.deleted t.deleted) stamp with h | h
    · rw [h]
      exact hdeleted
    · rw [h]
      exact hstamp stamp v (.inl hdata)
  · rename_i stamp v hdata
    rcases max_choice (max s.deleted t.deleted) stamp with h | h
    · rw [h]
      exact hdeleted
    · rw [h]
      exact hstamp stamp v (.inr hdata)
  · exact hdeleted

/-- The bound that the rule functions hold a value to before they write it. -/
def Fits (json : Json) : Write → Prop
  | .Set v | .SetOnce v | .Extreme v _ => (written json v).2.length ≤ MAX_VALUE_BYTES
  | .Add v => (written json v).2.length ≤ MAX_ELEMENT_BYTES
  | _ => True

theorem fits_writeIn {json : Json} (hjson : json.Sound) {write : Write} (h : Fits json write) :
    WriteIn json (Storable json) write := by
  cases write with
  | Set v | SetOnce v | Extreme v largest =>
    intro w hw
    exact normal_storable hjson (le_refl _) h hw
  | Add v =>
    intro w hw
    exact normal_storable hjson (by decide) h hw
  | _ => trivial

/-- What a node holds of a key, and its clock: writes within the bounds, states of other
nodes once the clock has accepted their stamps, and the stamps of its other keys. -/
inductive Reached (json : Json) : KeyState → Hlc → Prop
  | empty (c : Hlc) : Reached json KeyState.empty c
  | write {s new : KeyState} {write : Write} {ttl_secs default_ttl_secs : Option UInt64}
      {by_ : Writer} {r : Except WriteError Bool} {c : Hlc} : Reached json s by_.clock →
      Fits json write → by_.clock.Room 2 →
      s.apply json write ttl_secs default_ttl_secs by_ = (r, new, c) → Reached json new c
  | receive {s t : KeyState} {bytes : Bytes} {wall_ms : UInt64} {c c' : Hlc} :
      Reached json s c → KeyState.decode json bytes = .ok t → c.observe t.latest wall_ms = .ok c' →
      Reached json (s.merge json t) c'
  | tick {s : KeyState} {c c' : Hlc} : Reached json s c → c.last ≤ c'.last → Reached json s c'

theorem observe_accepts {c c' : Hlc} {t : KeyState} {wall_ms : UInt64}
    (h : c.observe t.latest wall_ms = .ok c') : c.last ≤ c'.last ∧ Accepted c' t := by
  unfold Hlc.observe at h
  dsimp only at h
  split at h
  · cases h
  · cases h
    unfold Accepted
    constructor <;> rw [UInt64.le_iff_toNat_le, toNat_max] <;> omega

theorem reached_ok {json : Json} (hjson : json.Sound) {s : KeyState} {c : Hlc}
    (h : Reached json s c) : StateIn (Storable json) s ∧ Accepted c s := by
  induction h with
  | empty c => exact ⟨⟨fun _ => rfl, nofun⟩, UInt64.zero_le⟩
  | write _ hfits hroom happly ih =>
    have hwrote := apply_wrote hjson ih.1 ih.2 hroom (fits_writeIn hjson hfits) happly
    exact ⟨hwrote.state, hwrote.accepted⟩
  | receive _ hdecode hobserve ih =>
    obtain ⟨hle, haccepted⟩ := observe_accepts hobserve
    exact ⟨merge_in ih.1 (stateOk_iff.mp (decode_ok hdecode)),
      accepted_merge (accepted_mono ih.2 hle) haccepted⟩
  | tick _ hle ih => exact ⟨ih.1, accepted_mono ih.2 hle⟩

/-- What is accepted is the encoding of the state that it gives. What a node holds, by writes
within the bounds and by states whose stamps its clock accepted before, is encoded within the
bound and read back, so two nodes hold the same exactly when their bytes are the same. -/
theorem replicated_form_is_canonical (json : Json) (hjson : json.Sound) :
    (∀ bytes s, KeyState.decode json bytes = .ok s → s.encoded json = bytes) ∧
      (∀ s c, Reached json s c → (s.encoded json).length ≤ MAX_ENCODED_BYTES ∧
        KeyState.decode json (s.encoded json) = .ok s) ∧
      ∀ s c t c', Reached json s c → Reached json t c' →
        (s = t ↔ s.encoded json = t.encoded json) := by
  have hreached {s : KeyState} {c : Hlc} (h : Reached json s c) : StateOk json s :=
    stateOk_iff.mpr (reached_ok hjson h).1
  refine ⟨fun bytes s h => encoded_decode h, ?_, ?_⟩
  · intro s c h
    exact ⟨length_encoded (hreached h), decode_encoded (hreached h)⟩
  · intro s c t c' hs ht
    constructor
    · rintro rfl
      rfl
    · intro hbytes
      have hread := decode_encoded (hreached hs)
      rw [hbytes, decode_encoded (hreached ht)] at hread
      exact (Except.ok.inj hread).symm

/-- A key with a value of its own, and then with a delete of another node. -/
def own_value : KeyState :=
  (KeyState.empty.apply decimals (.Set (.Int (-12))) (some 600) none (writer_at 0)).2.1

def deleted_elsewhere : KeyState := ⟨⟨131072000, 3⟩, none, 0⟩

theorem own_value_then_delete_decodes :
    KeyState.decode decimals ((own_value.merge decimals deleted_elsewhere).encoded decimals) =
      .ok (own_value.merge decimals deleted_elsewhere) := by
  have hfits : Fits decimals (.Set (.Int (-12))) := by
    unfold Fits
    decide +kernel
  have hroom : (writer_at 0).clock.Room 2 := by
    unfold Hlc.Room
    decide
  have happly : KeyState.empty.apply decimals (.Set (.Int (-12))) (some 600) none (writer_at 0) =
      (.ok true, own_value, ⟨65536000, 7⟩) := rfl
  have hown := Reached.write (Reached.empty _) hfits hroom happly
  have hother : StateOk decimals deleted_elsewhere := ⟨fun _ => rfl, nofun⟩
  have hobserve : Hlc.observe ⟨65536000, 7⟩ deleted_elsewhere.latest 2000 =
      .ok ⟨131072000, 7⟩ := rfl
  have hreached := Reached.receive hown (decode_encoded hother) hobserve
  exact ((replicated_form_is_canonical decimals decimals_sound).2.1 _ _ hreached).2

/-- The states that the writes and the merges lead to, whatever is written and whichever
stamps the clock has. -/
inductive Reachable (json : Json) : KeyState → Prop
  | empty : Reachable json KeyState.empty
  | apply {s new : KeyState} {write : Write} {ttl_secs default_ttl_secs : Option UInt64}
      {by_ : Writer} {changed : Bool} {c : Hlc} : Reachable json s →
      s.apply json write ttl_secs default_ttl_secs by_ = (.ok changed, new, c) → Reachable json new
  | merge {s t : KeyState} {bytes : Bytes} : Reachable json s →
      KeyState.decode json bytes = .ok t → Reachable json (s.merge json t)

def text (n : Nat) : Value := .Str (String.ofList (List.replicate n 'a'))

def text_value (n : Nat) : KeyState := ⟨Stamp.ZERO, some (.Lww ⟨65536000, 7⟩ (text n)), 0⟩

/-- A write by a clock that has not seen the delete before it. -/
def unseen_delete : KeyState := ⟨⟨131072000, 3⟩, some (.Lww ⟨65536000, 7⟩ .Null), 0⟩

/-- A delete and a write, both with the last stamp that there is. -/
def last_stamps : KeyState := ⟨⟨U64_MAX, 7⟩, some (.Lww ⟨U64_MAX, 7⟩ .Null), 0⟩

theorem length_text (n : Nat) : (written decimals (text n)).2.length = n := by
  have hsize : 'a'.utf8Size = 1 := rfl
  have hbytes : (String.ofList (List.replicate n 'a')).toByteArray =
      (List.replicate n 'a').utf8Encode := rfl
  show (stringBytes _).length = n
  unfold stringBytes
  rw [hbytes, List.utf8Encode, Array.length_toList]
  show ByteArray.size _ = n
  rw [List.size_toByteArray]
  simp [List.length_flatMap, hsize]

theorem long_value_rejected {n : Nat} (hn : MAX_VALUE_BYTES < n) :
    KeyState.decode decimals ((text_value n).encoded decimals) ≠ .ok (text_value n) := by
  intro h
  have hbound := ((decode_ok h).data _ rfl).2.bound
  rw [length_text] at hbound
  omega

/-- Past the bounds, behind the stamps of the state and at the end of the clock, a write
leaves a state that does not decode. -/
theorem states_that_do_not_decode :
    (Reachable decimals (text_value 4097) ∧
      KeyState.decode decimals ((text_value 4097).encoded decimals) ≠ .ok (text_value 4097)) ∧
    (Reachable decimals unseen_delete ∧
      KeyState.decode decimals (unseen_delete.encoded decimals) ≠ .ok unseen_delete) ∧
    (Reachable decimals last_stamps ∧
      KeyState.decode decimals (last_stamps.encoded decimals) ≠ .ok last_stamps) := by
  have hset (write : Write) (last : UInt64) {s new : KeyState} {c : Hlc}
      (h : Reachable decimals s)
      (happly : s.apply decimals write none none (writer_at last) = (.ok true, new, c)) :
      Reachable decimals new := Reachable.apply h happly
  have hrejects {s : KeyState}
      (h : (KeyState.decode decimals (s.encoded decimals)).toOption.isNone = true) :
      KeyState.decode decimals (s.encoded decimals) ≠ .ok s := by
    intro heq
    rw [heq] at h
    cases h
  have hdelete : Reachable decimals ⟨⟨U64_MAX, 7⟩, none, 0⟩ :=
    hset .Delete U64_MAX Reachable.empty rfl
  have hother : StateOk decimals deleted_elsewhere := ⟨fun _ => rfl, nofun⟩
  have hmerged : Reachable decimals (KeyState.empty.merge decimals deleted_elsewhere) :=
    Reachable.merge Reachable.empty (decode_encoded hother)
  refine ⟨?_, ?_, ?_⟩
  · exact ⟨hset (.Set (text 4097)) 0 Reachable.empty rfl, long_value_rejected (by decide)⟩
  · exact ⟨hset (.Set .Null) 0 hmerged rfl, hrejects (by decide +kernel)⟩
  · exact ⟨hset (.Set .Null) U64_MAX hdelete rfl, hrejects (by decide +kernel)⟩

end mqtt_rules
