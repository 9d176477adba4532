-- Topic aliases of one connection (`aliases.rs`): the server gives the topics that it
-- writes numbers until the client's maximum is reached, and the client resolves them.
-- The two tables agree as long as the next number does not wrap: with the greatest
-- maximum, the topic after the last number is given the number 0.
import Mathlib.Data.Finset.Card
import Mathlib.Logic.Function.Basic
import MqttBroker.Codec.Packet

namespace mqtt_codec

def Properties.topic_alias (properties : Properties) : Option UInt16 :=
  properties.findSome? (fun
    | .TopicAlias v => some v
    | _ => none)

end mqtt_codec

namespace mqttd.aliases

open mqtt_codec

/-! ## The tables -/

/-- A violation of the protocol: the connection is closed. -/
inductive AliasError
  | Invalid
  deriving DecidableEq

/-- The table of the receiver. -/
structure InboundAliases where
  max : UInt16
  map : UInt16 → Option String

namespace InboundAliases

def new (max : UInt16) : InboundAliases := ⟨max, fun _ => none⟩

/-- The topic of a PUBLISH, and the table with the mapping that the PUBLISH sets up. -/
def resolve (t : InboundAliases) (topic : String) :
    Option UInt16 → InboundAliases × Except AliasError String
  | none => (t, .ok topic)
  | some a =>
    if a = 0 ∨ a > t.max then (t, .error .Invalid)
    else if topic.isEmpty then
      (t, match t.map a with
        | some known => .ok known
        | none => .error .Invalid)
    else ({ t with map := Function.update t.map a (some topic) }, .ok topic)

end InboundAliases

/-- The table of the sender. `next` is the next number to give. -/
structure OutboundAliases where
  max : UInt16
  map : String → Option UInt16
  next : UInt16

def set_alias (publish : Publish) (a : UInt16) : Publish :=
  { publish with properties := publish.properties ++ [.TopicAlias a] }

namespace OutboundAliases

def new (max : UInt16) : OutboundAliases := ⟨max, fun _ => none, 1⟩

/-- Rewrite a PUBLISH to use an alias, and say which mapping it sets up. The number after the
last one wraps, as in a release build. -/
def apply (t : OutboundAliases) (publish : Publish) :
    OutboundAliases × Publish × Option UInt16 :=
  if t.max = 0 ∨ publish.topic.isEmpty then (t, publish, none)
  else match t.map publish.topic with
    | some a => (t, set_alias { publish with topic := "" } a, none)
    | none =>
      if t.next ≤ t.max then
        ({ t with next := t.next + 1, map := Function.update t.map publish.topic (some t.next) },
          set_alias publish t.next, some t.next)
      else (t, publish, none)

/-- Take back the mapping that the last PUBLISH set up: it was not written. -/
def undo_new (t : OutboundAliases) (a : UInt16) : OutboundAliases :=
  if a + 1 = t.next then
    { t with map := fun topic => (t.map topic).filter (· ≠ a), next := a }
  else t

end OutboundAliases

/-! ## A connection -/

/-- The packets that are written: each PUBLISH is rewritten, and then written or dropped. -/
def written (t : OutboundAliases) : List (Publish × Bool) → List Publish
  | [] => []
  | (publish, true) :: rest =>
    let (t, publish, _) := t.apply publish
    publish :: written t rest
  | (publish, false) :: rest =>
    let (t, _, new_alias) := t.apply publish
    written (match new_alias with
      | some a => t.undo_new a
      | none => t) rest

/-- What the client makes of the packets. -/
def resolved (t : InboundAliases) : List Publish → List (Except AliasError String)
  | [] => []
  | publish :: rest =>
    let (t, topic) := t.resolve publish.topic publish.properties.topic_alias
    topic :: resolved t rest

def topics (publishes : List (Publish × Bool)) : List String :=
  (publishes.filter (·.2)).map (·.1.topic)

/-- A publish as the hub hands it to a connection: a topic, and no alias. -/
def FromHub (publish : Publish) : Prop :=
  publish.topic ≠ "" ∧ publish.properties.topic_alias = none

instance (publish : Publish) : Decidable (FromHub publish) :=
  inferInstanceAs (Decidable (_ ∧ _))

/-! ## The tables agree -/

/-- The tables of both sides hold the same topics, the first with the number 1. -/
structure Agree (max : UInt16) (s : OutboundAliases) (c : InboundAliases) (known : List String) :
    Prop where
  sender : s.max = max
  client : c.max = max
  fits : known.length ≤ max.toNat
  distinct : known.Nodup
  next : s.next = UInt16.ofNat (known.length + 1)
  gives : ∀ (i : Nat) topic, known[i]? = some topic → s.map topic = some (UInt16.ofNat (i + 1))
  fresh : ∀ topic, topic ∉ known → s.map topic = none
  knows : ∀ (i : Nat) topic, known[i]? = some topic → c.map (UInt16.ofNat (i + 1)) = some topic

theorem agree_new (max : UInt16) :
    Agree max (OutboundAliases.new max) (InboundAliases.new max) [] := by
  refine ⟨rfl, rfl, by simp, by simp, rfl, by simp, ?_, by simp⟩
  intro topic _
  rfl

theorem topic_alias_set {publish : Publish} (h : publish.properties.topic_alias = none)
    (a : UInt16) : (set_alias publish a).properties.topic_alias = some a := by
  unfold Properties.topic_alias at h ⊢
  simp [set_alias, List.findSome?_append, h]

theorem toNat_number {n : Nat} (h : n < 65536) : (UInt16.ofNat n).toNat = n := by
  rw [UInt16.toNat_ofNat']
  exact Nat.mod_eq_of_lt h

theorem number_inj {m n : Nat} (hm : m < 65536) (hn : n < 65536)
    (h : UInt16.ofNat m = UInt16.ofNat n) : m = n := by
  rw [← toNat_number hm, ← toNat_number hn, h]

section agree

variable {max : UInt16} {s : OutboundAliases} {c : InboundAliases} {known : List String}
variable {publish : Publish}

theorem Agree.small (h : Agree max s c known) : known.length < 65536 :=
  Nat.lt_of_le_of_lt h.fits max.toNat_lt

/-- What is written for a topic: a number that the client knows, the topic with a new number, the
topic alone when the table is full, or the topic with a number that has wrapped. -/
theorem apply_cases (h : Agree max s c known) (hp : FromHub publish) :
    (∃ i : Nat, known[i]? = some publish.topic ∧
      s.apply publish = (s, set_alias { publish with topic := "" } (UInt16.ofNat (i + 1)), none)) ∨
    (publish.topic ∉ known ∧
      ((known.length = max.toNat ∧ max ≠ 65535 ∧ s.apply publish = (s, publish, none)) ∨
        ((known.length < max.toNat ∨ known.length = 65535 ∧ max = 65535) ∧
          s.apply publish = ({ s with
            next := s.next + 1
            map := Function.update s.map publish.topic (some s.next) },
            set_alias publish s.next, some s.next)))) := by
  have htopic : ¬ publish.topic.isEmpty := by simpa using hp.1
  unfold OutboundAliases.apply
  by_cases hzero : max = 0
  · subst hzero
    refine .inr ⟨?_, .inl ⟨?_, by decide, ?_⟩⟩
    · have hnil : known = [] := List.eq_nil_of_length_eq_zero (Nat.le_zero.mp h.fits)
      simp [hnil]
    · exact Nat.le_antisymm h.fits (Nat.zero_le _)
    · rw [if_pos (.inl h.sender)]
  · rw [if_neg (by rw [h.sender]; exact not_or.mpr ⟨hzero, htopic⟩)]
    by_cases hmem : publish.topic ∈ known
    · obtain ⟨i, hi⟩ := List.getElem?_of_mem hmem
      exact .inl ⟨i, hi, by rw [h.gives i _ hi]⟩
    · refine .inr ⟨hmem, ?_⟩
      rw [h.fresh _ hmem]
      dsimp only
      have hmax : max.toNat ≤ 65535 := Nat.le_of_lt_succ max.toNat_lt
      have heq : max = 65535 ↔ max.toNat = 65535 := by
        rw [← UInt16.toNat_inj]
        rfl
      by_cases hlt : known.length < max.toNat
      · refine .inr ⟨.inl hlt, if_pos ?_⟩
        rw [h.sender, h.next, UInt16.le_iff_toNat_le, toNat_number (by omega)]
        exact hlt
      · have hfull : known.length = max.toNat := Nat.le_antisymm h.fits (Nat.le_of_not_lt hlt)
        by_cases hlast : max = 65535
        · refine .inr ⟨.inr ⟨hfull.trans (heq.mp hlast), hlast⟩, if_pos ?_⟩
          rw [h.sender, h.next, hfull, hlast]
          decide
        · refine .inl ⟨hfull, hlast, if_neg ?_⟩
          have hne : max.toNat ≠ 65535 := fun hh => hlast (heq.mpr hh)
          rw [h.sender, h.next, UInt16.le_iff_toNat_le, toNat_number (by omega)]
          omega

theorem resolve_known (h : Agree max s c known) {i : Nat}
    (hi : known[i]? = some publish.topic) (hp : FromHub publish) :
    c.resolve (set_alias { publish with topic := "" } (UInt16.ofNat (i + 1))).topic
      (set_alias { publish with topic := "" } (UInt16.ofNat (i + 1))).properties.topic_alias =
        (c, .ok publish.topic) := by
  have hlt := (List.getElem?_eq_some_iff.mp hi).1
  have hfits := h.fits
  have hmax := max.toNat_lt
  have hnat : (UInt16.ofNat (i + 1)).toNat = i + 1 := toNat_number (by omega)
  have hblank : Properties.topic_alias { publish with topic := "" }.properties = none := hp.2
  rw [topic_alias_set hblank, InboundAliases.resolve, if_neg ?_, if_pos (by rfl), h.knows i _ hi]
  rw [h.client, gt_iff_lt, UInt16.lt_iff_toNat_lt, ← UInt16.toNat_inj, hnat, not_or]
  exact ⟨by simp, by omega⟩

theorem resolve_new (h : Agree max s c known) (hlt : known.length < max.toNat)
    (hp : FromHub publish) :
    c.resolve (set_alias publish s.next).topic (set_alias publish s.next).properties.topic_alias =
      ({ c with map := Function.update c.map s.next (some publish.topic) },
        .ok publish.topic) := by
  have hmax := max.toNat_lt
  have hnat : s.next.toNat = known.length + 1 := by
    rw [h.next]
    exact toNat_number (by omega)
  have htopic : ¬ (set_alias publish s.next).topic.isEmpty := by simpa [set_alias] using hp.1
  rw [topic_alias_set hp.2, InboundAliases.resolve, if_neg ?_, if_neg htopic]
  · rfl
  · rw [h.client, gt_iff_lt, UInt16.lt_iff_toNat_lt, ← UInt16.toNat_inj, hnat, not_or]
    exact ⟨by simp, by omega⟩

/-- A mapping that is taken back leaves the table as it was. -/
theorem undo_apply (h : Agree max s c known) (htopic : publish.topic ∉ known) :
    ({ s with
      next := s.next + 1
      map := Function.update s.map publish.topic (some s.next) } : OutboundAliases).undo_new
        s.next = s := by
  have hkept : ∀ topic, (Function.update s.map publish.topic (some s.next) topic).filter
      (· ≠ s.next) = s.map topic := by
    intro topic
    by_cases ht : topic = publish.topic
    · subst ht
      rw [Function.update_self, h.fresh _ htopic]
      simp
    · rw [Function.update_of_ne ht]
      by_cases hmem : topic ∈ known
      · obtain ⟨i, hi⟩ := List.getElem?_of_mem hmem
        have hlt := (List.getElem?_eq_some_iff.mp hi).1
        have hne : UInt16.ofNat (i + 1) ≠ s.next := by
          rw [h.next]
          intro heq
          -- the number after 65535 is 0, and no topic has that one
          have hsmall := h.small
          have hnat := congrArg UInt16.toNat heq
          rw [UInt16.toNat_ofNat', UInt16.toNat_ofNat'] at hnat
          omega
        rw [h.gives i topic hi, Option.filter_some, if_pos (by simpa only [decide_eq_true_eq])]
      · rw [h.fresh topic hmem]
        simp
  unfold OutboundAliases.undo_new
  rw [if_pos rfl]
  obtain ⟨smax, smap, snext⟩ := s
  simp only [OutboundAliases.mk.injEq, true_and, and_true]
  funext topic
  exact hkept topic

/-- The client learns a new mapping. -/
theorem agree_snoc (h : Agree max s c known) (hlt : known.length < max.toNat) {topic : String}
    (htopic : topic ∉ known) :
    Agree max { s with next := s.next + 1, map := Function.update s.map topic (some s.next) }
      { c with map := Function.update c.map s.next (some topic) } (known ++ [topic]) := by
  have hmax := max.toNat_lt
  have hget : ∀ (i : Nat) t, (known ++ [topic])[i]? = some t →
      (known[i]? = some t ∧ i < known.length) ∨ (i = known.length ∧ t = topic) := by
    intro i t hi
    by_cases hlen : i < known.length
    · rw [List.getElem?_append_left hlen] at hi
      exact .inl ⟨hi, hlen⟩
    · rw [List.getElem?_append_right (Nat.le_of_not_lt hlen)] at hi
      obtain ⟨hone, rfl⟩ := List.getElem?_eq_some_iff.mp hi
      simp only [List.length_singleton] at hone
      exact .inr ⟨by omega, by simp⟩
  refine ⟨h.sender, h.client, ?_, ?_, ?_, ?_, ?_, ?_⟩
  · rw [List.length_append, List.length_singleton]
    exact hlt
  · rw [← List.concat_eq_append]
    exact List.Nodup.concat htopic h.distinct
  · rw [h.next, List.length_append, List.length_singleton, ← UInt16.toNat_inj, UInt16.toNat_add]
    simp only [UInt16.toNat_ofNat']
    rw [show UInt16.toNat 1 = 1 from rfl]
    omega
  · intro i t hi
    dsimp only
    rcases hget i t hi with ⟨hold, -⟩ | ⟨rfl, rfl⟩
    · have hne : t ≠ topic := by
        rintro rfl
        exact htopic (List.mem_of_getElem? hold)
      rw [Function.update_of_ne hne]
      exact h.gives i t hold
    · rw [Function.update_self, h.next]
  · intro t ht
    rw [List.mem_append, List.mem_singleton, not_or] at ht
    dsimp only
    rw [Function.update_of_ne ht.2]
    exact h.fresh t ht.1
  · intro i t hi
    dsimp only
    rcases hget i t hi with ⟨hold, hlen⟩ | ⟨rfl, rfl⟩
    · have hne : UInt16.ofNat (i + 1) ≠ s.next := by
        rw [h.next]
        intro heq
        have := number_inj (by omega) (by omega) heq
        omega
      rw [Function.update_of_ne hne]
      exact h.knows i t hold
    · rw [h.next, Function.update_self]

end agree

/-- The number of topics among some that the client knows and those that are written. -/
def distinctTopics (known : List String) (publishes : List (Publish × Bool)) : Nat :=
  (known ++ topics publishes).toFinset.card

/-- The client recovers every topic. -/
def Transparent (s : OutboundAliases) (c : InboundAliases) (publishes : List (Publish × Bool)) :
    Prop :=
  resolved c (written s publishes) = (topics publishes).map .ok

theorem distinctTopics_known {known : List String} {publish : Publish}
    {rest : List (Publish × Bool)} (h : publish.topic ∈ known) :
    distinctTopics known ((publish, true) :: rest) = distinctTopics known rest := by
  unfold distinctTopics
  congr 1
  ext topic
  simp only [topics, List.mem_toFinset, List.mem_append]
  refine ⟨?_, ?_⟩
  · rintro (hk | hk)
    · exact .inl hk
    · simp only [List.filter_cons_of_pos, List.map_cons, List.mem_cons] at hk
      rcases hk with rfl | hk
      · exact .inl h
      · exact .inr hk
  · rintro (hk | hk)
    · exact .inl hk
    · simp only [List.filter_cons_of_pos, List.map_cons, List.mem_cons]
      exact .inr (.inr hk)

theorem distinctTopics_new {known : List String} {publish : Publish}
    {rest : List (Publish × Bool)} :
    distinctTopics known ((publish, true) :: rest) =
      distinctTopics (known ++ [publish.topic]) rest := by
  simp [distinctTopics, topics]

theorem length_le_distinctTopics {known : List String} (h : known.Nodup)
    (publishes : List (Publish × Bool)) : known.length ≤ distinctTopics known publishes := by
  rw [← List.toFinset_card_of_nodup h]
  refine Finset.card_le_card ?_
  intro topic htopic
  simp only [List.mem_toFinset, List.mem_append] at htopic ⊢
  exact .inl htopic

section runs

variable {max : UInt16} {s : OutboundAliases} {c : InboundAliases} {known : List String}

theorem transparent_written {publish : Publish} {rest : List (Publish × Bool)} :
    Transparent s c ((publish, true) :: rest) ↔
      (c.resolve (s.apply publish).2.1.topic (s.apply publish).2.1.properties.topic_alias).2 =
        .ok publish.topic ∧
      Transparent (s.apply publish).1
        (c.resolve (s.apply publish).2.1.topic
          (s.apply publish).2.1.properties.topic_alias).1 rest := by
  simp [Transparent, written, resolved, topics]

/-- The client recovers every topic exactly when the numbers do not wrap while a topic is written
that it does not know. -/
theorem transparent_iff (h : Agree max s c known) (publishes : List (Publish × Bool))
    (hhub : ∀ x ∈ publishes, FromHub x.1) :
    Transparent s c publishes ↔ max ≠ 65535 ∨ distinctTopics known publishes ≤ 65535 := by
  induction publishes generalizing s c known with
  | nil =>
    have hsmall := h.small
    have hcard := List.toFinset_card_le known
    simp only [Transparent, written, resolved, topics, List.filter_nil, List.map_nil, true_iff,
      distinctTopics, List.append_nil]
    exact .inr (by omega)
  | cons x rest ih =>
    have hrest : ∀ x ∈ rest, FromHub x.1 := fun x hx => hhub x (List.mem_cons_of_mem _ hx)
    obtain ⟨publish, sent⟩ := x
    have hp : FromHub publish := hhub (publish, sent) (by simp)
    cases sent with
    | false =>
      have hsame : Transparent s c ((publish, false) :: rest) ↔ Transparent s c rest := by
        have hwritten : written s ((publish, false) :: rest) = written s rest := by
          rcases apply_cases h hp with ⟨i, -, happly⟩ | ⟨htopic, ⟨-, -, happly⟩ | ⟨-, happly⟩⟩
          · simp [written, happly]
          · simp [written, happly]
          · simp only [written, happly]
            rw [undo_apply h htopic]
        simp [Transparent, hwritten, topics]
      rw [hsame, ih h hrest]
      simp [distinctTopics, topics]
    | true =>
      rw [transparent_written]
      rcases apply_cases h hp with
        ⟨i, hi, happly⟩ | ⟨htopic, ⟨hfull, hmax, happly⟩ | ⟨hlt | ⟨hlen, hmax⟩, happly⟩⟩
      · have hresolve := resolve_known h hi hp
        rw [happly, hresolve, ih h hrest, distinctTopics_known (List.mem_of_getElem? hi)]
        simp
      · rw [happly]
        simp only [hp.2, InboundAliases.resolve, true_and]
        rw [ih h hrest]
        simp [hmax]
      · rw [happly, resolve_new h hlt hp, ih (agree_snoc h hlt htopic) hrest, distinctTopics_new]
        simp
      · -- the number wrapped, and one topic more than there are numbers is written
        have hzero : s.next = 0 := by
          rw [h.next, hlen]
          rfl
        have hmore : (known ++ [publish.topic]).Nodup := by
          rw [← List.concat_eq_append]
          exact List.Nodup.concat htopic h.distinct
        have hcard := length_le_distinctTopics hmore rest
        rw [List.length_append, List.length_singleton, hlen] at hcard
        rw [happly, hzero, topic_alias_set hp.2, distinctTopics_new]
        simp only [InboundAliases.resolve, true_or, if_true, reduceCtorEq, false_and, hmax,
          ne_eq, not_true_eq_false, false_or, false_iff]
        omega

end runs

/-- A client that resolves what is written recovers the topic of every publish, for every maximum
but the greatest one; with that, exactly when at most 65535 topics are written. -/
theorem aliases_are_transparent_iff (max : UInt16) (publishes : List (Publish × Bool))
    (hhub : ∀ x ∈ publishes, FromHub x.1) :
    Transparent (OutboundAliases.new max) (InboundAliases.new max) publishes ↔
      max ≠ 65535 ∨ (topics publishes).toFinset.card ≤ 65535 := by
  have h := transparent_iff (agree_new max) publishes hhub
  simpa [distinctTopics] using h

def publishTo (topic : String) : Publish := ⟨false, .AtMostOnce, false, topic, none, [], []⟩

/-- A new mapping that is dropped, the same topic written twice, and a topic without room. -/
theorem a_dropped_mapping_is_set_up_again :
    FromHub (publishTo "big/t") ∧ FromHub (publishTo "a") ∧
      Transparent (OutboundAliases.new 1) (InboundAliases.new 1)
        [(publishTo "big/t", false), (publishTo "big/t", true), (publishTo "big/t", true),
          (publishTo "a", true)] := by
  have hbig : FromHub (publishTo "big/t") := by decide
  have ha : FromHub (publishTo "a") := by decide
  refine ⟨hbig, ha, (aliases_are_transparent_iff 1 _ ?_).mpr (.inl (by decide))⟩
  simp [hbig, ha]

def numbered (n : Nat) : String :=
  String.ofList [Char.ofNat (0x4E00 + n / 256), Char.ofNat (0x4E00 + n % 256)]

theorem char_inj {m n : Nat} (hm : m < 0xD800) (hn : n < 0xD800)
    (h : Char.ofNat m = Char.ofNat n) : m = n := by
  have hnat : ∀ k, k < 0xD800 → (Char.ofNat k).toNat = k := by
    intro k hk
    rw [Char.ofNat, dif_pos (show k.isValidChar from .inl hk)]
    rfl
  rw [← hnat m hm, ← hnat n hn, h]

theorem numbered_inj {m n : Nat} (hm : m < 65536) (hn : n < 65536)
    (h : numbered m = numbered n) : m = n := by
  have hlist := String.ofList_injective h
  simp only [List.cons.injEq, and_true] at hlist
  have hhigh := char_inj (by omega) (by omega) hlist.1
  have hlow := char_inj (by omega) (by omega) hlist.2
  omega

/-- Publishes to 65536 topics, all of them written. -/
def oneTooMany : List (Publish × Bool) :=
  (List.range 65536).map (fun n => (publishTo (numbered n), true))

theorem fromHub_oneTooMany : ∀ x ∈ oneTooMany, FromHub x.1 := by
  intro x hx
  obtain ⟨n, -, rfl⟩ := List.mem_map.mp hx
  refine ⟨?_, rfl⟩
  intro hempty
  have hlist := String.ofList_injective (hempty : numbered n = String.ofList [])
  cases hlist

theorem topics_oneTooMany : (topics oneTooMany).toFinset.card = 65536 := by
  have htopics : topics oneTooMany = (List.range 65536).map numbered := by
    unfold topics oneTooMany
    have hall : ∀ x ∈ (List.range 65536).map (fun n => (publishTo (numbered n), true)),
        x.2 = true := by
      intro x hx
      obtain ⟨n, -, rfl⟩ := List.mem_map.mp hx
      rfl
    rw [List.filter_eq_self.mpr hall, List.map_map]
    rfl
  have hnodup : ((List.range 65536).map numbered).Nodup := by
    refine List.Nodup.map_on ?_ List.nodup_range
    intro m hm n hn h
    exact numbered_inj (List.mem_range.mp hm) (List.mem_range.mp hn) h
  rw [htopics, List.toFinset_card_of_nodup hnodup, List.length_map, List.length_range]

/-- With the greatest maximum, the last of 65536 topics is given the number 0, which the client
refuses. -/
theorem the_topic_after_the_last_number_is_refused : ¬ ∀ (max : UInt16)
    (publishes : List (Publish × Bool)), (∀ x ∈ publishes, FromHub x.1) →
      Transparent (OutboundAliases.new max) (InboundAliases.new max) publishes := by
  intro h
  have hall := h 65535 oneTooMany fromHub_oneTooMany
  have hiff := transparent_iff (agree_new 65535) oneTooMany fromHub_oneTooMany
  have hfew := (hiff.mp hall).resolve_left (by decide)
  simp only [distinctTopics, List.nil_append, topics_oneTooMany] at hfew
  omega

end mqttd.aliases
