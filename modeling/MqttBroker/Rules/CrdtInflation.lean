-- Local writes against the merge (`crdt.rs`): a write leaves a state that has taken
-- in the old one, but for an expiry that it moved sooner, and so a peer that is sent its
-- last state holds what the writer holds.
import MqttBroker.Rules.CrdtWrites

namespace mqtt_rules

open ByteCodec SortedJoin Wire

/-! ## Values as they are kept -/

/-- Kept as it is, without a look at its text. -/
def is_constant : Value → Bool
  | .Null | .Bool _ | .Int _ => true
  | _ => false

def by_text : Value → Bool
  | .Big _ | .Float _ | .Array _ | .Map _ => true
  | _ => false

/-- What is relied on of the text of a value: `null`, a boolean and an integer of 64 bits
are read back as they are, and a larger integer or a float as a number equal to it. -/
structure Json.Sound (json : Json) : Prop where
  constant : ∀ v, is_constant v = true →
    ∃ text, json.to_json v = some text ∧ json.json_decode (stringBytes text) = some v
  number : ∀ v, is_number v = true → by_text v = true → (written json v).2.length < 2 ^ 64 ∧
    ∀ w, json.json_decode (written json v).2 = some w → is_number w = true ∧ term_order v w = .eq

section values

variable {json : Json} {v w : Value}

theorem normal_of_text (hv : by_text v = true) (h : normal json v = .ok w) :
    ∃ rest, Gives (read.value json MAX_VALUE_BYTES) (put_value json v) w rest := by
  cases v with
  | Big _ | Float _ | Array _ | Map _ =>
    simp only [normal] at h
    split at h
    · rename_i u rest hread
      cases h
      exact ⟨rest, hread⟩
    · cases h
  | _ => cases hv

theorem normal_text (hv : by_text v = true) (hshort : (written json v).2.length < 2 ^ 128)
    (h : normal json v = .ok w) :
    json.json_decode (written json v).2 = some w ∧ written json w = written json v ∧
      Storable json MAX_VALUE_BYTES w := by
  have hmax : MAX_VALUE_BYTES < 2 ^ 128 := by decide
  obtain ⟨rest, hread⟩ := normal_of_text hv h
  have hstorable := (oneForm_value hmax).front hread
  have htag : (written json v).1 = false := by
    cases v with
    | Big _ | Float _ | Array _ | Map _ => rfl
    | _ => cases hv
  obtain ⟨tag, left, hbyte, h1⟩ := gives_bind.mp hread
  obtain ⟨n, left2, hlen, h2⟩ := gives_bind.mp h1
  obtain ⟨data, left3, htake, h3⟩ := gives_bind.mp h2
  unfold put_value at hbyte
  rw [gives_byte, List.cons_append] at hbyte
  obtain ⟨rfl, rfl⟩ := List.cons.inj hbyte
  -- The length is read as it was written, so what is taken is the text.
  have hn : n = (written json v).2.length ∧ left2 = (written json v).2 := by
    obtain ⟨m, left', hm, h4⟩ := gives_bind.mp hlen
    obtain ⟨u, left'', hcheck, h5⟩ := gives_bind.mp h4
    obtain ⟨-, rfl⟩ := gives_check.mp hcheck
    obtain ⟨rfl, rfl⟩ := gives_pure.mp h5
    have hback := oneForm_varint.back hshort (written json v).2
    have heq := hm.symm.trans hback
    cases heq
    exact ⟨rfl, rfl⟩
  obtain ⟨rfl, rfl⟩ := hn
  obtain ⟨hdata, hlength⟩ := gives_take.mp htake
  have hwhole : data = (written json v).2 ∧ left3 = [] := by
    have hleft : left3.length = 0 := by
      have := congrArg List.length hdata
      rw [List.length_append] at this
      omega
    rw [List.length_eq_zero_iff.mp hleft, List.append_nil] at hdata
    exact ⟨hdata.symm, List.length_eq_zero_iff.mp hleft⟩
  obtain ⟨rfl, rfl⟩ := hwhole
  rcases gives_ite.mp h3 with ⟨hb, -⟩ | ⟨-, h4⟩
  · rw [htag] at hb
    exact absurd hb (by decide)
  rcases gives_ite.mp h4 with ⟨-, h5⟩ | ⟨-, h5⟩
  · obtain ⟨x, left4, hx, h6⟩ := gives_bind.mp h5
    obtain ⟨hdecode, -⟩ := gives_orThrow.mp hx
    obtain ⟨u, left5, hcheck, h7⟩ := gives_bind.mp h6
    obtain ⟨⟨hbinary, -, htext⟩, -⟩ := gives_check.mp hcheck
    obtain ⟨rfl, -⟩ := gives_pure.mp h7
    refine ⟨hdecode, ?_, hstorable⟩
    obtain ⟨text, hjson, heq⟩ := Option.map_eq_some_iff.mp htext
    apply Prod.ext
    · rw [htag, written, if_neg (by simp [hbinary])]
    · rw [← heq, written, if_neg (by simp [hbinary]), hjson, Option.getD_some]
  · exact absurd h5 gives_throw

/-- A value within a bound is kept as one that reads back. -/
theorem normal_storable (hjson : json.Sound) {max : Nat} (hmax : max ≤ MAX_VALUE_BYTES)
    (hfits : (written json v).2.length ≤ max) (h : normal json v = .ok w) :
    Storable json max w := by
  have hconstant (hv : is_constant v = true) : Storable json max v := by
    obtain ⟨text, htext, hback⟩ := hjson.constant v hv
    refine ⟨hfits, ?_, fun _ => ⟨?_, text, htext, hback⟩⟩
    · intro hbinary
      cases v <;> cases hv <;> cases hbinary
    · cases v <;> cases hv <;> rfl
  have htext (hv : by_text v = true) : Storable json max w := by
    have hsmall : MAX_VALUE_BYTES < 2 ^ 128 := by decide
    obtain ⟨-, hwritten, hstorable⟩ := normal_text hv (by omega) h
    exact ⟨by rw [hwritten]; exact hfits, hstorable.binary, hstorable.text⟩
  cases v with
  | Undefined => cases h
  | Null | Bool _ | Int _ =>
    cases h
    exact hconstant rfl
  | Str s =>
    cases h
    exact storable_str hfits
  | Bin bytes =>
    cases h
    obtain ⟨hbinary, hbytes⟩ := bytes_of_from_bytes bytes
    refine ⟨?_, fun _ => by rw [hbytes], ?_⟩
    · rw [written, if_pos hbinary, hbytes]
      exact hfits
    · rw [hbinary]
      rintro ⟨⟩
  | Big _ | Float _ | Array _ | Map _ => exact htext rfl

theorem stored_number_eq (hjson : json.Sound) (h : stored_number json v = .ok w) :
    normal json v = .ok w ∧ is_number w = true ∧ term_order v w = .eq := by
  unfold stored_number at h
  split at h
  · rename_i hnumber
    rcases hnormal : normal json v with e | u
    · rw [hnormal] at h
      cases h
    rw [hnormal] at h
    cases h
    refine ⟨rfl, ?_⟩
    cases v with
    | Int n =>
      cases hnormal
      exact ⟨rfl, Std.ReflCmp.compare_self⟩
    | Big _ | Float _ =>
      obtain ⟨hshort, hread⟩ := hjson.number _ hnumber rfl
      exact hread w (normal_text rfl (by omega) hnormal).1
    | _ => cases hnumber
  · cases h

end values

/-! ## One arm of a write -/

section writes

variable {json : Json} {P : Nat → Value → Prop} {s : KeyState} {by_ : Writer}

/-- The values that a write stores are ones that `P` allows. -/
def WriteIn (json : Json) (P : Nat → Value → Prop) : Write → Prop
  | .Set v | .SetOnce v | .Extreme v _ => ∀ w, normal json v = .ok w → P MAX_VALUE_BYTES w
  | .Add v => ∀ w, normal json v = .ok w → P MAX_ELEMENT_BYTES w
  | _ => True

/-- The clock has accepted every stamp that the state holds. -/
def Accepted (c : Hlc) (s : KeyState) : Prop := s.latest.time ≤ c.last

variable {c : Hlc}

theorem accepted_deleted (h : Accepted c s) : s.deleted.time ≤ c.last := by
  have hle : s.deleted ≤ s.latest := by
    unfold KeyState.latest
    split
    · exact le_max_left _ _
    · exact le_max_left _ _
    · exact le_refl _
  exact UInt64.le_trans (time_le hle) h

variable {stamp : Stamp} {v : Value}

theorem accepted_stamp (h : Accepted c s)
    (hdata : s.data = some (.Lww stamp v) ∨ s.data = some (.First stamp v)) :
    stamp.time ≤ c.last := by
  have hle : stamp ≤ s.latest := by
    unfold KeyState.latest
    rcases hdata with hdata | hdata <;> rw [hdata] <;> exact le_max_right _ _
  exact UInt64.le_trans (time_le hle) h

/-- What a write leaves where it holds something: the state may hold it, the clock has its
stamp, and it has taken in what was held. -/
structure Took (json : Json) (P : Nat → Value → Prop) (s : KeyState) (c : Hlc) (d : Data)
    (c' : Hlc) : Prop where
  data : DataIn P s.deleted d
  last : c.last ≤ c'.last
  stamp : ∀ stamp v, d = .Lww stamp v ∨ d = .First stamp v → stamp.time ≤ c'.last
  held : ∀ held ∈ s.data, (∃ old new v w, held = .Lww old v ∧ d = .Lww new w ∧ old < new) ∨
    (¬ IsLww held ∧ SameType held d ∧ join_same json held d = d)

variable {α ε ε' : Type} {x : Except ε α} {f : ε → ε'}

theorem mapError_ok {a : α} (h : x.mapError f = .ok a) : x = .ok a := by
  cases x with
  | ok b =>
    cases h
    rfl
  | error e => cases h

theorem bind_mapError {β : Type} {g : α → Except ε' β} {b : β} (h : (x.mapError f >>= g) = .ok b) :
    ∃ a, x = .ok a ∧ g a = .ok b := by
  obtain ⟨a, hx, hg⟩ := bind_ok h
  exact ⟨a, mapError_ok hx, hg⟩

variable {d : Data}

theorem took_stamped (hc : Accepted by_.clock s) (hroom : by_.clock.Room 1)
    (hv : P MAX_VALUE_BYTES v)
    (hd : d = .Lww (by_.clock.now by_.wall_ms).1 v ∨ d = .First (by_.clock.now by_.wall_ms).1 v)
    (hheld : ∀ held ∈ s.data, IsLww held ∧ IsLww d) :
    Took json P s by_.clock d (by_.clock.now by_.wall_ms).2 := by
  obtain ⟨hafter, hlast, -⟩ := now_after (n := 0) by_.wall_ms hroom (by omega)
  have hdeleted : s.deleted < (by_.clock.now by_.wall_ms).1 :=
    stamp_lt (UInt64.lt_of_le_of_lt (accepted_deleted hc) hafter)
  generalize by_.clock.now by_.wall_ms = given at *
  constructor
  · rcases hd with rfl | rfl <;> exact ⟨hdeleted, hv⟩
  · rw [hlast]
    exact UInt64.le_of_lt hafter
  · rintro stamp w hstamp
    rw [hlast]
    rcases hd with rfl | rfl <;> rcases hstamp with hstamp | hstamp <;> cases hstamp <;> exact UInt64.le_refl _
  · intro held hmem
    obtain ⟨⟨old, u, rfl⟩, ⟨new, x, hnew⟩⟩ := hheld held hmem
    rcases hd with rfl | rfl
    · have hold := accepted_stamp hc (.inl hmem)
      exact .inl ⟨old, _, u, v, rfl, rfl, stamp_lt (UInt64.lt_of_le_of_lt hold hafter)⟩
    · cases hnew

theorem took_plain (hdata : DataIn P s.deleted d)
    (hstamp : ∀ stamp v, d = .Lww stamp v ∨ d = .First stamp v → stamp.time ≤ by_.clock.last)
    (hheld : ∀ held ∈ s.data, ¬ IsLww held ∧ SameType held d ∧ join_same json held d = d) :
    Took json P s by_.clock d by_.clock :=
  ⟨hdata, UInt64.le_refl _, hstamp, fun held hmem => .inr (hheld held hmem)⟩

theorem took_new (hnone : s.data = none) (hdata : DataIn P s.deleted d)
    (hstamp : ∀ stamp v, d = .Lww stamp v ∨ d = .First stamp v → stamp.time ≤ by_.clock.last)
    (hclock : c = by_.clock) : Took json P s by_.clock d c := by
  subst hclock
  apply took_plain hdata hstamp
  rw [hnone]
  exact nofun

theorem extreme_join {held w : Value} (hv : term_order v w = .eq) :
    (term_order v held = .gt → join_same json (.Max held) (.Max w) = .Max w) ∧
      (term_order v held = .lt → join_same json (.Min held) (.Min w) = .Min w) := by
  constructor
  · intro hgt
    have hlt : term_order held w = .lt :=
      Std.TransCmp.lt_of_lt_of_eq (Std.OrientedCmp.lt_of_gt hgt) hv
    simp [join_same, hlt]
  · intro hlt
    have hgt : term_order held w = .gt :=
      Std.OrientedCmp.gt_of_lt (Std.TransCmp.lt_of_eq_of_lt (Std.OrientedCmp.eq_symm hv) hlt)
    simp [join_same, exact_order, hgt]

variable {write : Write}

theorem edit_took (hjson : json.Sound) (hs : StateIn P s) (hc : Accepted by_.clock s)
    (hroom : by_.clock.Room 1) (hw : WriteIn json P write) {changed : Bool}
    (h : edit json write s by_ = .ok (.Holds d c changed)) : Took json P s by_.clock d c := by
  unfold edit at h
  split at h
  · cases h
  · -- `kv_set` of a new key
    rename_i v hdata
    obtain ⟨w, hnormal, h⟩ := bind_mapError h
    cases h
    apply took_stamped hc hroom (hw w hnormal) (.inl rfl)
    rw [hdata]
    rintro _ ⟨⟩
  · rename_i v stamp held hdata
    obtain ⟨w, hnormal, h⟩ := bind_mapError h
    cases h
    apply took_stamped hc hroom (hw w hnormal) (.inl rfl)
    rw [hdata]
    rintro _ ⟨⟩
    exact ⟨⟨stamp, held, rfl⟩, ⟨_, w, rfl⟩⟩
  · rename_i v hdata
    obtain ⟨w, hnormal, h⟩ := bind_mapError h
    cases h
    apply took_stamped hc hroom (hw w hnormal) (.inr rfl)
    rw [hdata]
    rintro _ ⟨⟩
  · -- a second `kv_set_once`
    rename_i v stamp held hdata
    cases h
    apply took_plain (hs.data _ hdata)
    · rintro stamp' v' (hd | hd)
      · cases hd
      · cases hd
        exact accepted_stamp hc (.inr hdata)
    · rw [hdata]
      rintro _ ⟨⟩
      exact ⟨by simp [IsLww], .first, join_same_self (hs.data _ hdata)⟩
  · rename_i v largest hdata
    obtain ⟨w, hnumber, h⟩ := bind_ok h
    cases h
    obtain ⟨hnormal, hw', -⟩ := stored_number_eq hjson hnumber
    cases largest with
    | true => exact took_new hdata ⟨hw', hw w hnormal⟩ (by simp) rfl
    | false => exact took_new hdata ⟨hw', hw w hnormal⟩ (by simp) rfl
  · rename_i v held hdata
    split at h
    · rename_i hgt
      obtain ⟨w, hnumber, h⟩ := bind_ok h
      cases h
      obtain ⟨hnormal, hw', heq⟩ := stored_number_eq hjson hnumber
      apply took_plain (d := .Max w) ⟨hw', hw w hnormal⟩ (by simp)
      rw [hdata]
      rintro _ ⟨⟩
      exact ⟨by simp [IsLww], .max, (extreme_join heq).1 hgt⟩
    · cases h
      apply took_plain (hs.data _ hdata) (by simp)
      rw [hdata]
      rintro _ ⟨⟩
      exact ⟨by simp [IsLww], .max, join_same_self (hs.data _ hdata)⟩
  · rename_i v held hdata
    split at h
    · rename_i hlt
      obtain ⟨w, hnumber, h⟩ := bind_ok h
      cases h
      obtain ⟨hnormal, hw', heq⟩ := stored_number_eq hjson hnumber
      apply took_plain (d := .Min w) ⟨hw', hw w hnormal⟩ (by simp)
      rw [hdata]
      rintro _ ⟨⟩
      exact ⟨by simp [IsLww], .min, (extreme_join heq).2 hlt⟩
    · cases h
      apply took_plain (hs.data _ hdata) (by simp)
      rw [hdata]
      rintro _ ⟨⟩
      exact ⟨by simp [IsLww], .min, join_same_self (hs.data _ hdata)⟩
  · rename_i n hdata
    obtain ⟨⟨after, counts⟩, hadd, h⟩ := bind_mapError h
    cases h
    have hempty : CountsOk ⟨[]⟩ := ⟨List.Pairwise.nil, by simp, by simp⟩
    exact took_new hdata (add_joins hempty hadd).1 (by simp) rfl
  · rename_i n counts hdata
    obtain ⟨⟨after, counts'⟩, hadd, h⟩ := bind_mapError h
    cases h
    obtain ⟨hok, hmerge⟩ := add_joins (hs.data _ hdata) hadd
    apply took_plain (d := .Sum counts') hok (by simp)
    rw [hdata]
    rintro _ ⟨⟩
    exact ⟨by simp [IsLww], .sum, congrArg Data.Sum hmerge⟩
  · rename_i v hdata
    obtain ⟨w, hnormal, h⟩ := bind_mapError h
    split at h
    · cases h
    · rename_i new elements hinsert
      cases h
      have hempty : ElementsIn P ⟨[]⟩ := ⟨List.Pairwise.nil, by simp, by simp⟩
      have hjoins : ElementsIn P elements ∧ (Elements.mk []).merge json elements = elements :=
        insert_joins hempty (hw w hnormal) hinsert
      exact took_new hdata hjoins.1 (by simp) rfl
  · rename_i v elements hdata
    obtain ⟨w, hnormal, h⟩ := bind_mapError h
    split at h
    · cases h
    · rename_i new elements' hinsert
      cases h
      obtain ⟨hok, hmerge⟩ : ElementsIn P elements' ∧ elements.merge json elements' = elements' :=
        insert_joins (hs.data _ hdata) (hw w hnormal) hinsert
      apply took_plain (d := .Union elements') hok (by simp)
      rw [hdata]
      rintro _ ⟨⟩
      exact ⟨by simp [IsLww], .union, congrArg Data.Union hmerge⟩
  · rename_i hash hdata
    cases h
    have hempty : Canonical (.Sparse []) := .sparse List.Pairwise.nil (by simp) (by simp)
    exact took_new hdata (sketch_add_joins (h := ⟨.Sparse []⟩) hempty hash).1 (by simp) rfl
  · rename_i hash sketch hdata
    cases h
    obtain ⟨hok, hmerge⟩ := sketch_add_joins (hs.data _ hdata) hash
    apply took_plain (d := .Hll (sketch.add hash).2) hok (by simp)
    rw [hdata]
    rintro _ ⟨⟩
    exact ⟨by simp [IsLww], .hll, congrArg Data.Hll hmerge⟩
  · cases h

variable {s' : KeyState} {c' : Hlc}

theorem bind_holds {x : Except WriteError α} {d : α → Data} {c : α → Hlc} {changed : α → Bool} :
    (do let a ← x; return Edited.Holds (d a) (c a) (changed a)) ≠ .ok (.Deleted s' c') := by
  intro h
  obtain ⟨a, -, h⟩ := bind_ok h
  cases h

theorem edit_deleted (h : edit json write s by_ = .ok (.Deleted s' c)) :
    s' = s.delete (by_.clock.now by_.wall_ms).1 ∧ c = (by_.clock.now by_.wall_ms).2 := by
  unfold edit at h
  split at h
  · simp only [Except.ok.injEq, Edited.Deleted.injEq] at h
    exact ⟨h.1.symm, h.2.symm⟩
  · exact absurd h bind_holds
  · exact absurd h bind_holds
  · exact absurd h bind_holds
  · cases h
  · exact absurd h bind_holds
  · split at h
    · exact absurd h bind_holds
    · cases h
  · split at h
    · exact absurd h bind_holds
    · cases h
  · exact absurd h bind_holds
  · exact absurd h bind_holds
  · obtain ⟨w, -, h⟩ := bind_ok h
    split at h <;> cases h
  · obtain ⟨w, -, h⟩ := bind_ok h
    split at h <;> cases h
  · cases h
  · cases h
  · cases h

/-! ## A state that has taken in another -/

variable {new : KeyState}

theorem merge_covered (hnew : StateIn P new) (hs : StateIn P s)
    (hdeleted : s.deleted ≤ new.deleted) (halive : alive s new.deleted = none) :
    s.merge json new = new := by
  apply state_ext (merge_in hs hnew) hnew
  · rw [deleted_merge, max_eq_right hdeleted]
  · rw [held_merge, max_eq_right hdeleted, halive, none_either]
    rcases hheld : held new with _ | p
    · unfold alive
      rw [hheld]
      rfl
    · have hp := held_eq_some.mp hheld
      exact alive_eq_some.mpr ⟨hp, outlives_own (hnew.data p.1 hp.1)⟩

theorem delete_covers {deleted : Stamp} (hc : Accepted c s) (hstamp : c.last < stamp.time)
    (hdeleted : stamp ≤ deleted) : s.deleted < deleted ∧ alive s deleted = none := by
  have hlater : s.deleted < deleted :=
    lt_of_lt_of_le (stamp_lt (UInt64.lt_of_le_of_lt (accepted_deleted hc) hstamp)) hdeleted
  refine ⟨hlater, ?_⟩
  rcases halive : alive s deleted with _ | ⟨d, e⟩
  · rfl
  · obtain ⟨⟨hdata, -⟩, hlives⟩ := alive_eq_some.mp halive
    by_cases hlww : IsLww d
    · obtain ⟨old, v, rfl⟩ := hlww
      have hold := stamp_lt (UInt64.lt_of_le_of_lt (accepted_stamp hc (.inl hdata)) hstamp)
      have hlives : deleted < old := of_decide_eq_true hlives
      exact absurd (hlives.trans hold) (not_lt.mpr hdeleted)
    · rw [outlives_other hlww] at hlives
      exact absurd (of_decide_eq_true hlives) hlater.ne

/-- An expiry moved sooner than it was. -/
def sooner (old new : UInt64) : Prop := new ≠ 0 ∧ (old = 0 ∨ new < old)

variable {old : UInt64}

theorem later_of_sooner {new : UInt64} (h : sooner old new) : later old new = old := by
  obtain ⟨hnew, rfl | hlt⟩ := h
  · simp [later]
  · have hne : old ≠ 0 := by
      rintro rfl
      exact absurd hlt (UInt64.not_lt.mpr (UInt64.zero_le))
    rw [later, if_neg (by simp [hne, hnew]), if_neg (UInt64.not_le.mpr hlt)]

theorem later_of_not_sooner {new : UInt64} (h : ¬ sooner old new) : later old new = new := by
  by_cases hnew : new = 0
  · simp [later, hnew]
  · have hold : old ≠ 0 := fun hzero => h ⟨hnew, .inl hzero⟩
    have hle : old ≤ new := UInt64.not_lt.mp fun hlt => h ⟨hnew, .inr hlt⟩
    rw [later, if_neg (by simp [hold, hnew]), if_pos hle]

variable {e : UInt64}

/-- What has taken in what was held is what the two join to, with the later expiry unless
the key is `lww`. -/
theorem merge_took {e' : UInt64} (hs : StateIn P s) (htook : Took json P s c d c')
    (hother : (∃ old, s.data = some old ∧ ¬ IsLww old) → e' = later s.expires_ms e)
    (hlww : (∀ old, s.data = some old → IsLww old) → e' = e) :
    s.merge json ⟨s.deleted, some d, e⟩ = ⟨s.deleted, some d, e'⟩ := by
  have hin (e : UInt64) : StateIn P ⟨s.deleted, some d, e⟩ := by
    refine ⟨nofun, ?_⟩
    rintro _ ⟨⟩
    exact htook.data
  have hnew : alive (⟨s.deleted, some d, e⟩ : KeyState) s.deleted = some (d, e) :=
    alive_eq_some.mpr ⟨⟨rfl, rfl⟩, outlives_own htook.data⟩
  apply state_ext (merge_in hs (hin e)) (hin _)
  · rw [deleted_merge, max_self]
  · rw [held_merge, max_self, hnew]
    rcases hdata : s.data with _ | old
    · have hnone : alive s s.deleted = none := by
        unfold alive held
        rw [hdata]
        rfl
      rw [hnone, hlww (by simp [hdata])]
      rfl
    · have hold : alive s s.deleted = some (old, s.expires_ms) :=
        alive_eq_some.mpr ⟨⟨hdata, rfl⟩, outlives_own (hs.data old hdata)⟩
      rw [hold]
      apply congrArg some
      rcases htook.held old hdata with ⟨before, after, v, w, rfl, rfl, hlt⟩ | ⟨hne, hsame, hjoin⟩
      · rw [hlww (by simp [hdata, IsLww])]
        rcases joined_lww before after v w s.expires_ms e with ⟨-, hle⟩ | ⟨hj, -⟩
        · exact absurd hlt (not_lt.mpr hle)
        · exact hj
      · rw [hother ⟨old, hdata, hne⟩]
        show joined json (old, s.expires_ms) (d, e) = _
        unfold joined
        have hrank : precedence (old, s.expires_ms) = precedence (d, e) :=
          precedence_of_sameType hsame
        rw [join_eq, layered_same hrank, same_other hsame hne, hjoin]

/-! ## A whole write -/

theorem expire_cases (s : KeyState) (by_ : Writer) :
    (s.expire by_ = (s, by_.clock, false) ∧
      s.live (by_.clock.physical_ms by_.wall_ms) = s.data) ∨
    (s.live (by_.clock.physical_ms by_.wall_ms) = none ∧
      s.expire by_ = (s.delete (by_.clock.now by_.wall_ms).1, (by_.clock.now by_.wall_ms).2, true)) := by
  unfold KeyState.expire
  dsimp only
  split
  · rename_i h
    exact .inr ⟨Option.isNone_iff_eq_none.mp h.2, rfl⟩
  · rename_i h
    refine .inl ⟨rfl, ?_⟩
    rcases hdata : s.data with _ | d
    · simp [KeyState.live, hdata]
    · rcases hlive : s.live (by_.clock.physical_ms by_.wall_ms) with _ | d'
      · exact absurd ⟨by simp [hdata], by simp [hlive]⟩ h
      · obtain ⟨hd, -⟩ := Option.filter_eq_some_iff.mp hlive
        rw [← hd, hdata]

theorem delete_in (s : KeyState) (stamp : Stamp) : StateIn P (s.delete stamp) :=
  ⟨fun _ => rfl, nofun⟩

theorem accepted_delete (wall_ms : UInt64) (h : Accepted c s) (hroom : c.Room 1) :
    Accepted (c.now wall_ms).2 (s.delete (c.now wall_ms).1) := by
  obtain ⟨hafter, hlast, -⟩ := now_after (n := 0) wall_ms hroom (by omega)
  have hlt := stamp_lt (UInt64.lt_of_le_of_lt (accepted_deleted h) hafter)
  show (max s.deleted (c.now wall_ms).1).time ≤ _
  rw [max_eq_right hlt.le, hlast]
  exact UInt64.le_refl _

theorem accepted_took (hc : Accepted c s) (htook : Took json P s c d c') :
    Accepted c' ⟨s.deleted, some d, e⟩ := by
  have hdeleted : s.deleted.time ≤ c'.last := UInt64.le_trans (accepted_deleted hc) htook.last
  unfold Accepted KeyState.latest
  dsimp only
  split
  · rename_i stamp v hd
    rcases max_choice s.deleted stamp with h | h
    · rw [h]
      exact hdeleted
    · rw [h]
      exact htook.stamp stamp v (.inl (Option.some.inj hd))
  · rename_i stamp v hd
    rcases max_choice s.deleted stamp with h | h
    · rw [h]
      exact hdeleted
    · rw [h]
      exact htook.stamp stamp v (.inr (Option.some.inj hd))
  · exact hdeleted

/-- A live key that is not `lww` was kept, and its expiry moved sooner. -/
def Sooner (s : KeyState) (by_ : Writer) (new : KeyState) : Prop :=
  (∃ d, s.live (by_.clock.physical_ms by_.wall_ms) = some d ∧ ¬ IsLww d) ∧
    sooner s.expires_ms new.expires_ms

/-- What a write leaves: a state that has taken in the old one, with the old expiry where
that was moved sooner, and whose stamps the clock has. -/
structure Wrote (json : Json) (P : Nat → Value → Prop) (s : KeyState) (by_ : Writer)
    (new : KeyState) (c : Hlc) : Prop where
  state : StateIn P new
  accepted : Accepted c new
  last : by_.clock.last ≤ c.last
  kept : ¬ Sooner s by_ new → s.merge json new = new
  back : Sooner s by_ new → s.merge json new = { new with expires_ms := s.expires_ms }

theorem wrote_covering (hs : StateIn P s) (hnew : StateIn P new) (hc : Accepted c new)
    (hlast : by_.clock.last ≤ c.last)
    (hcovers : s.deleted < new.deleted ∧ alive s new.deleted = none)
    (hsooner : ¬ Sooner s by_ new) : Wrote json P s by_ new c :=
  ⟨hnew, hc, hlast, fun _ => merge_covered hnew hs hcovers.1.le hcovers.2,
    fun h => absurd h hsooner⟩

theorem wrote_took (hs : StateIn P s) (hc : Accepted by_.clock s)
    (hlive : s.live (by_.clock.physical_ms by_.wall_ms) = s.data)
    (htook : Took json P s by_.clock d c) : Wrote json P s by_ ⟨s.deleted, some d, e⟩ c := by
  refine ⟨⟨nofun, ?_⟩, accepted_took hc htook, htook.last, ?_, ?_⟩
  · rintro _ ⟨⟩
    exact htook.data
  · intro hsooner
    apply merge_took hs htook
    · rintro ⟨old, hdata, hne⟩
      rw [later_of_not_sooner]
      intro hmoved
      exact hsooner ⟨⟨old, by rw [hlive, hdata], hne⟩, hmoved⟩
    · intro _
      rfl
  · rintro ⟨⟨old, hold, hne⟩, hmoved⟩
    apply merge_took hs htook
    · intro _
      rw [later_of_sooner hmoved]
    · intro hlww
      exact absurd (hlww old (by rw [← hlive, hold])) hne

theorem apply_wrote (hjson : json.Sound) (hs : StateIn P s) (hc : Accepted by_.clock s)
    (hroom : by_.clock.Room 2) (hw : WriteIn json P write)
    {ttl_secs default_ttl_secs : Option UInt64} {r : Except WriteError Bool}
    (h : s.apply json write ttl_secs default_ttl_secs by_ = (r, new, c)) :
    Wrote json P s by_ new c := by
  have hroom' : by_.clock.Room 1 := by
    unfold Hlc.Room at hroom ⊢
    omega
  obtain ⟨hafter, hlast, hleft⟩ := now_after (n := 1) by_.wall_ms hroom (by omega)
  have hle : by_.clock.last ≤ (by_.clock.now by_.wall_ms).2.last := by
    rw [hlast]
    exact UInt64.le_of_lt hafter
  unfold KeyState.apply at h
  dsimp only at h
  rcases expire_cases s by_ with ⟨hexpire, hlive⟩ | ⟨hlive, hexpire⟩
  · rw [hexpire] at h
    dsimp only at h
    split at h
    · cases h
      refine ⟨hs, hc, UInt64.le_refl _, fun _ => merge_self hs, ?_⟩
      rintro ⟨-, hne, hzero | hlt⟩
      · exact absurd hzero hne
      · exact absurd hlt (UInt64.lt_irrefl _)
    · rename_i s' c' hedit
      cases h
      obtain ⟨rfl, rfl⟩ := edit_deleted hedit
      apply wrote_covering hs (delete_in s _) (accepted_delete _ hc hroom') hle
        (delete_covers hc hafter (le_max_right _ _))
      rintro ⟨-, hne, -⟩
      exact hne rfl
    · rename_i d c' changed hedit
      have htook := edit_took hjson hs hc hroom' hw hedit
      split at h
      · cases h
        exact wrote_took hs hc hlive htook
      · cases h
        exact wrote_took hs hc hlive htook
  · -- The key had expired: the write starts from the tombstone.
    have hsooner (t : KeyState) : ¬ Sooner s by_ t := by
      rintro ⟨⟨d, hd, -⟩, -⟩
      rw [hlive] at hd
      cases hd
    have hcovers {t : KeyState} (ht : (s.delete (by_.clock.now by_.wall_ms).1).deleted ≤ t.deleted) :
        s.deleted < t.deleted ∧ alive s t.deleted = none :=
      delete_covers hc hafter (le_trans (le_max_right _ _) ht)
    have hin : StateIn P (s.delete (by_.clock.now by_.wall_ms).1) := delete_in s _
    have hacc := accepted_delete by_.wall_ms hc hroom'
    rw [hexpire] at h
    dsimp only at h
    generalize s.delete (by_.clock.now by_.wall_ms).1 = tomb at *
    generalize hclock : (by_.clock.now by_.wall_ms).2 = clock at *
    split at h
    · cases h
      exact wrote_covering hs hin hacc hle (hcovers (le_refl _)) (hsooner _)
    · rename_i s' c' hedit
      cases h
      obtain ⟨rfl, rfl⟩ := edit_deleted hedit
      obtain ⟨hafter', hlast', -⟩ := now_after (n := 0) by_.wall_ms hleft (by omega)
      refine wrote_covering hs (delete_in tomb _) (accepted_delete _ hacc hleft) ?_
        (hcovers (le_max_left _ _)) (hsooner _)
      apply UInt64.le_trans hle
      show clock.last ≤ (clock.now by_.wall_ms).2.last
      rw [hlast']
      exact UInt64.le_of_lt hafter'
    · rename_i d c' changed hedit
      have htook : Took json P tomb clock d c' := edit_took hjson hin hacc hleft hw hedit
      have hnew (e : UInt64) : StateIn P ⟨tomb.deleted, some d, e⟩ := by
        refine ⟨nofun, ?_⟩
        rintro _ ⟨⟩
        exact htook.data
      have hlater := UInt64.le_trans hle htook.last
      split at h
      · cases h
        exact wrote_covering hs (hnew _) (accepted_took hacc htook) hlater (hcovers (le_refl _))
          (hsooner _)
      · cases h
        exact wrote_covering hs (hnew _) (accepted_took hacc htook) hlater (hcovers (le_refl _))
          (hsooner _)

end writes

/-! ## Writes travel -/

/-- What every state is that the writes, the merges and the reader build. -/
def Shaped (s : KeyState) : Prop := StateIn (fun _ _ => True) s

theorem any_write (json : Json) (write : Write) : WriteIn json (fun _ _ => True) write := by
  cases write <;> simp [WriteIn]

/-- A write of a node whose clock has the stamps of the state, and that moves no expiry
sooner. -/
def Writes (json : Json) (s new : KeyState) : Prop :=
  ∃ write ttl_secs default_ttl_secs by_ changed c,
    s.apply json write ttl_secs default_ttl_secs by_ = (.ok changed, new, c) ∧
      Accepted by_.clock s ∧ by_.clock.Room 2 ∧ ¬ Sooner s by_ new

theorem writes_shaped {json : Json} (hjson : json.Sound) {s new : KeyState} (hs : Shaped s)
    (h : Writes json s new) : Shaped new ∧ s.merge json new = new := by
  obtain ⟨write, ttl, dttl, by_, changed, c, happly, hc, hroom, hsooner⟩ := h
  have hwrote := apply_wrote hjson hs hc hroom (any_write json write) happly
  exact ⟨hwrote.state, hwrote.kept hsooner⟩

theorem chain_taken {json : Json} (hjson : json.Sound) {s : KeyState} {more : List KeyState}
    (hs : Shaped s) (hchain : List.IsChain (Writes json) (s :: more)) :
    ∀ t ∈ s :: more, Shaped t ∧
      t.merge json ((s :: more).getLast (by simp)) = (s :: more).getLast (by simp) := by
  induction more generalizing s with
  | nil =>
    intro t ht
    obtain rfl : t = s := by simpa using ht
    exact ⟨hs, merge_self hs⟩
  | cons new more ih =>
    obtain ⟨hwrite, hrest⟩ := List.isChain_cons_cons.mp hchain
    obtain ⟨hnew, hmerge⟩ := writes_shaped hjson hs hwrite
    have hall := ih hnew hrest
    rw [List.getLast_cons (by simp)]
    intro t ht
    rcases List.mem_cons.mp ht with rfl | ht
    · obtain ⟨-, htaken⟩ := hall new (by simp)
      have hlast := (hall _ (List.getLast_mem (by simp))).1
      refine ⟨hs, ?_⟩
      calc t.merge json ((new :: more).getLast (by simp))
          = t.merge json (new.merge json ((new :: more).getLast (by simp))) := by rw [htaken]
        _ = (t.merge json new).merge json ((new :: more).getLast (by simp)) :=
            (merge_assoc hs hnew hlast).symm
        _ = (new :: more).getLast (by simp) := by rw [hmerge, htaken]
    · exact hall t ht

theorem shaped_empty : Shaped KeyState.empty := ⟨fun _ => rfl, nofun⟩

theorem merge_empty (json : Json) {s : KeyState} (hs : Shaped s) :
    KeyState.empty.merge json s = s := by
  apply merge_covered hs shaped_empty
  · show Stamp.key _ ≤ Stamp.key _
    apply Prod.Lex.toLex_le_toLex.mpr
    rcases Nat.eq_zero_or_pos s.deleted.time.toNat with hzero | hpos
    · exact .inr ⟨hzero.symm, Nat.zero_le _⟩
    · exact .inl hpos
  · rfl

/-- A peer that was sent any of the states of a writer, and its last one at the end, holds
what the writer holds. -/
theorem peer_catches_up {json : Json} (hjson : json.Sound) {s : KeyState} {more : List KeyState}
    (hs : Shaped s) (hchain : List.IsChain (Writes json) (s :: more)) {received : List KeyState}
    (hreceived : ∀ t ∈ received, t ∈ s :: more) :
    (received ++ [(s :: more).getLast (by simp)]).foldl (KeyState.merge json) KeyState.empty =
      (s :: more).getLast (by simp) := by
  have hall := chain_taken hjson hs hchain
  have hlast := (hall _ (List.getLast_mem (by simp))).1
  -- What the peer holds is taken in by the last state at each step.
  have hpeer : ∀ p, Shaped p →
      p.merge json ((s :: more).getLast (by simp)) = (s :: more).getLast (by simp) →
      (received.foldl (KeyState.merge json) p).merge json ((s :: more).getLast (by simp)) =
        (s :: more).getLast (by simp) := by
    induction received with
    | nil =>
      intro p _ hp
      exact hp
    | cons t received ih =>
      intro p hshaped hp
      obtain ⟨ht, htaken⟩ := hall t (hreceived t (by simp))
      apply ih (fun u hu => hreceived u (List.mem_cons_of_mem _ hu)) _ (merge_in hshaped ht)
      rw [merge_assoc hshaped ht hlast, htaken, hp]
  rw [List.foldl_append]
  exact hpeer _ shaped_empty (merge_empty json hlast)

/-- A write by a clock that has the stamps of the state, and two left to give, leaves a state
that has taken in the old one, but for the expiry of a live key that is not `lww` and was
moved sooner: that one the merge moves back. So a peer that was sent any of the states of a
writer that moved none sooner, and its last one at the end, holds what the writer holds. -/
theorem writes_merge_into_the_old_state (json : Json) (hjson : json.Sound) (s : KeyState)
    (hs : Shaped s) :
    (∀ write ttl_secs default_ttl_secs by_ changed new c, Accepted by_.clock s →
      by_.clock.Room 2 →
      s.apply json write ttl_secs default_ttl_secs by_ = (.ok changed, new, c) →
      (¬ Sooner s by_ new → (s.merge json new).encoded json = new.encoded json) ∧
        (Sooner s by_ new → (s.merge json new).encoded json =
          { new with expires_ms := s.expires_ms }.encoded json)) ∧
    ∀ more received, List.IsChain (Writes json) (s :: more) → (∀ t ∈ received, t ∈ s :: more) →
      ((received ++ [(s :: more).getLast (by simp)]).foldl (KeyState.merge json)
        KeyState.empty).encoded json = ((s :: more).getLast (by simp)).encoded json := by
  constructor
  · intro write ttl dttl by_ changed new c hc hroom happly
    have hwrote := apply_wrote hjson hs hc hroom (any_write json write) happly
    constructor
    · intro h
      rw [hwrote.kept h]
    · intro h
      rw [hwrote.back h]
  · intro more received hchain hreceived
    rw [peer_catches_up hjson hs hchain hreceived]

def int_text (n : Int) : List Char :=
  if n < 0 then '-' :: Nat.toDigits 10 n.natAbs else Nat.toDigits 10 n.natAbs

def digits_of (text : List Char) : Option Nat :=
  if text.all Char.isDigit ∧ text ≠ [] then some (Nat.ofDigitChars 10 text 0) else none

def int_of (text : List Char) : Option Int :=
  match text with
  | '-' :: digits => (digits_of digits).map fun n : Nat => -(n : Int)
  | digits => (digits_of digits).map fun n : Nat => (n : Int)

def decimals : Json where
  to_json
    | .Int n => some (String.ofList (int_text n.toInt))
    | v => constants.to_json v
  json_decode bytes :=
    match (String.fromUTF8? ⟨bytes.toArray⟩).bind fun s => int_of s.toList with
    | some n => some (.Int (Int64.ofInt n))
    | none => constants.json_decode bytes

theorem digits_of_toDigits (n : Nat) : digits_of (Nat.toDigits 10 n) = some n := by
  have hall : (Nat.toDigits 10 n).all Char.isDigit = true := by
    rw [List.all_eq_true]
    intro c hc
    exact Nat.isDigit_of_mem_toDigits (by omega) (by omega) hc
  rw [digits_of, if_pos ⟨hall, Nat.toDigits_ne_nil⟩, Nat.ofDigitChars_toDigits (by omega) (by omega)]

theorem int_of_text (n : Int) : int_of (int_text n) = some n := by
  unfold int_text
  split
  · rename_i hneg
    simp only [int_of, digits_of_toDigits, Option.map_some]
    congr 1
    show -(n.natAbs : Int) = n
    omega
  · rename_i hpos
    unfold int_of
    split
    · rename_i digits hdigits
      have hminus : '-' ∈ Nat.toDigits 10 n.natAbs := by simp [hdigits]
      have hdigit := Nat.isDigit_of_mem_toDigits (by omega) (by omega) hminus
      exact absurd hdigit (by decide)
    · rw [digits_of_toDigits, Option.map_some]
      congr 1
      show (n.natAbs : Int) = n
      omega

theorem decimals_sound : decimals.Sound := by
  constructor
  · intro v hv
    have hconst {text : String} (htext : int_of text.toList = none) :
        decimals.json_decode (stringBytes text) = constants.json_decode (stringBytes text) := by
      simp [decimals, fromUTF8_stringBytes, htext]
    cases v with
    | Null =>
      refine ⟨"null", rfl, ?_⟩
      rw [hconst (by decide)]
      simp [constants]
    | Bool b =>
      cases b with
      | true =>
        refine ⟨"true", rfl, ?_⟩
        rw [hconst (by decide)]
        have hne : stringBytes "true" ≠ stringBytes "null" := by decide
        simp [constants, hne]
      | false =>
        refine ⟨"false", rfl, ?_⟩
        rw [hconst (by decide)]
        have hne : stringBytes "false" ≠ stringBytes "null" := by decide
        have hne' : stringBytes "false" ≠ stringBytes "true" := by decide
        simp [constants, hne, hne']
    | Int n =>
      refine ⟨_, rfl, ?_⟩
      simp [decimals, fromUTF8_stringBytes, int_of_text]
    | _ => cases hv
  · intro v hv htext
    have hnone : decimals.json_decode (stringBytes "") = none := by decide
    have hempty (h : decimals.to_json v = none) (hb : is_binary v = false) :
        (written decimals v).2 = stringBytes "" := by simp [written, h, hb]
    cases v with
    | Big _ | Float _ =>
      rw [hempty rfl rfl, hnone]
      exact ⟨by decide, by rintro _ ⟨⟩⟩
    | Array _ | Map _ => cases hv
    | _ => cases htext

/-- A writer of node `a` at one second, with the stamps up to `last`. -/
def writer_at (last : UInt64) : Writer := ⟨"a", ⟨last, 7⟩, 1000⟩

/-- A counter that was counted once, and then again with a later expiry. -/
def counted : KeyState :=
  (KeyState.empty.apply decimals (.Incr 3) (some 600) none (writer_at 0)).2.1

def counted_on (ttl_secs : UInt64) : Except WriteError Bool × KeyState × Hlc :=
  counted.apply decimals (.Incr 2) (some ttl_secs) none (writer_at 0)

theorem counted_shaped : Shaped counted := by
  have haccepted : Accepted (writer_at 0).clock KeyState.empty := by
    unfold Accepted
    decide
  have hroom : (writer_at 0).clock.Room 2 := by
    unfold Hlc.Room
    decide
  have happly : KeyState.empty.apply decimals (.Incr 3) (some 600) none (writer_at 0) = (_, counted, _) :=
    rfl
  exact (apply_wrote decimals_sound shaped_empty haccepted hroom (any_write decimals _) happly).state

theorem counted_on_ok (ttl_secs : UInt64) (h : (counted_on ttl_secs).1.toOption = some true) :
    counted_on ttl_secs = (.ok true, (counted_on ttl_secs).2.1, (counted_on ttl_secs).2.2) := by
  rcases hr : counted_on ttl_secs with ⟨e | b, rest⟩
  · rw [hr] at h
    cases h
  · rw [hr] at h
    cases h
    rfl

theorem counter_counted_on_travels :
    (counted.merge decimals (counted_on 700).2.1).encoded decimals =
        (counted_on 700).2.1.encoded decimals ∧
      (([counted, (counted_on 700).2.1, counted] ++ [(counted_on 700).2.1]).foldl
        (KeyState.merge decimals) KeyState.empty).encoded decimals =
        (counted_on 700).2.1.encoded decimals := by
  have haccepted : Accepted (writer_at 0).clock counted := by
    unfold Accepted
    decide +kernel
  have hroom : (writer_at 0).clock.Room 2 := by
    unfold Hlc.Room
    decide
  have happly := counted_on_ok 700 (by decide +kernel)
  have hexpires : counted.expires_ms = 601000 ∧ (counted_on 700).2.1.expires_ms = 701000 := by
    decide +kernel
  have hsooner : ¬ Sooner counted (writer_at 0) (counted_on 700).2.1 := by
    rintro ⟨-, -, hzero | hlt⟩
    · rw [hexpires.1] at hzero
      exact absurd hzero (by decide)
    · rw [hexpires.1, hexpires.2] at hlt
      exact absurd hlt (by decide)
  have hall := writes_merge_into_the_old_state decimals decimals_sound counted counted_shaped
  refine ⟨(hall.1 _ _ _ _ _ _ _ haccepted hroom happly).1 hsooner, ?_⟩
  apply hall.2 [(counted_on 700).2.1]
  · exact List.isChain_cons_cons.mpr
      ⟨⟨_, _, _, _, _, _, happly, haccepted, hroom, hsooner⟩, List.IsChain.singleton _⟩
  · simp

/-- An expiry moved sooner is moved back by a copy that has the later one, and two nodes
whose clocks are at their end give one time to two writes. -/
theorem sooner_expiry_is_moved_back :
    ¬ (∀ (json : Json) (s new : KeyState) write ttl_secs default_ttl_secs by_ changed c,
      json.Sound → Shaped s → Accepted by_.clock s → by_.clock.Room 2 →
      s.apply json write ttl_secs default_ttl_secs by_ = (.ok changed, new, c) →
      (s.merge json new).encoded json = new.encoded json) ∧
    ¬ (∀ (json : Json) (s new : KeyState) write ttl_secs default_ttl_secs by_ changed c,
      json.Sound → Shaped s → Accepted by_.clock s → ¬ Sooner s by_ new →
      s.apply json write ttl_secs default_ttl_secs by_ = (.ok changed, new, c) →
      (s.merge json new).encoded json = new.encoded json) := by
  constructor
  · intro h
    have haccepted : Accepted (writer_at 0).clock counted := by
      unfold Accepted
      decide +kernel
    have hroom : (writer_at 0).clock.Room 2 := by
      unfold Hlc.Room
      decide
    have hmerged := h decimals counted _ _ _ _ _ _ _ decimals_sound counted_shaped haccepted hroom
      (counted_on_ok 10 (by decide +kernel))
    exact absurd hmerged (by decide +kernel)
  · intro h
    -- A value that node 9 wrote at the last time there is, and one that node 7 writes then.
    have hshaped : Shaped ⟨Stamp.ZERO, some (.Lww ⟨U64_MAX, 9⟩ .Null), 0⟩ := by
      refine ⟨nofun, ?_⟩
      rintro _ ⟨⟩
      exact ⟨by decide, trivial⟩
    have haccepted : Accepted (writer_at U64_MAX).clock
        ⟨Stamp.ZERO, some (.Lww ⟨U64_MAX, 9⟩ .Null), 0⟩ := by
      unfold Accepted
      decide
    have hmerged := h decimals _ _ (.Set (.Bool true)) none none (writer_at U64_MAX) true _
      decimals_sound hshaped haccepted (by
        rintro ⟨⟨d, hd, hlww⟩, -⟩
        obtain ⟨hdata, -⟩ := Option.filter_eq_some_iff.mp hd
        exact hlww ⟨_, _, (Option.some.inj hdata).symm⟩) rfl
    exact absurd hmerged (by decide +kernel)

end mqtt_rules
