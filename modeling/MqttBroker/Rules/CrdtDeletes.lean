-- What a delete of replicated rule state covers (`crdt.rs`), told by the history of
-- a state: the deletes and the writes that went into it, each write with the deletes
-- that its state had seen. Survival is decided merge by merge, and comes to one rule
-- about the whole history.
import MqttBroker.Rules.CrdtReached

namespace mqtt_rules

open ByteCodec SortedJoin Wire

/-! ## Histories -/

/-- A delete at a stamp, or a write that left its state with a payload, with the deletes that the
state had seen. -/
inductive Event
  | Deleted (stamp : Stamp)
  | Wrote (payload : Data) (seen : List Stamp)

def deletes (h : List Event) : List Stamp :=
  h.filterMap fun e =>
    match e with
    | .Deleted stamp => some stamp
    | .Wrote _ _ => none

/-- The latest delete of a history, and `ZERO` for none. -/
def latest_delete (h : List Event) : Stamp := (deletes h).foldr max Stamp.ZERO

/-- What a write adds to the history of its state. A key found expired is deleted first, and a
write that is refused adds nothing but that. -/
def record (json : Json) (s : KeyState) (write : Write) (by_ : Writer) (h : List Event) :
    List Event :=
  let (s, clock, expired) := s.expire by_
  let h := if expired then h ++ [.Deleted (by_.clock.now by_.wall_ms).1] else h
  match edit json write s { by_ with clock := clock } with
  | .error _ => h
  | .ok (.Deleted _ _) => h ++ [.Deleted (clock.now by_.wall_ms).1]
  | .ok (.Holds payload _ _) => h ++ [.Wrote payload (deletes h)]

/-- What a node holds of a key, its clock, and the history of what it holds: writes, and copies of
other nodes once the clock has accepted their stamps. -/
inductive Produced (json : Json) : KeyState → Hlc → List Event → Prop
  | empty (c : Hlc) : Produced json KeyState.empty c []
  | write {s new : KeyState} {write : Write} {ttl_secs default_ttl_secs : Option UInt64}
      {by_ : Writer} {r : Except WriteError Bool} {c : Hlc} {h : List Event} :
      Produced json s by_.clock h → by_.clock.Room 2 →
      s.apply json write ttl_secs default_ttl_secs by_ = (r, new, c) →
      Produced json new c (record json s write by_ h)
  | receive {s t : KeyState} {wall_ms : UInt64} {c ct c' : Hlc} {h ht : List Event} :
      Produced json s c h → Produced json t ct ht → c.observe t.latest wall_ms = .ok c' →
      Produced json (s.merge json t) c' (h ++ ht)
  | tick {s : KeyState} {c c' : Hlc} {h : List Event} : Produced json s c h → c.last ≤ c'.last →
      Produced json s c' h

/-- States merged in any order, in any groups and any number of times. -/
inductive Merged (json : Json) : KeyState → List Event → Prop
  | one {s : KeyState} {c : Hlc} {h : List Event} : Produced json s c h → Merged json s h
  | merge {s t : KeyState} {h ht : List Event} : Merged json s h → Merged json t ht →
      Merged json (s.merge json t) (h ++ ht)

/-! ## What survives -/

/-- A write outlives a delete: one of `lww` by its stamp, any other by what its state had seen. -/
def Survives (deleted : Stamp) (payload : Data) (seen : List Stamp) : Prop :=
  match payload with
  | .Lww stamp _ => deleted < stamp
  | _ => deleted = Stamp.ZERO ∨ deleted ∈ seen

/-- A payload of a history that outlives a delete. -/
def Surviving (deleted : Stamp) (h : List Event) (payload : Data) : Prop :=
  ∃ seen, Event.Wrote payload seen ∈ h ∧ Survives deleted payload seen

/-- The rank of a type on a key of two: `lww` first, then the type with the higher tag. -/
def type_rank (d : Data) : Nat := precedence (d, 0)

/-- A payload as the join of others, in some order and grouping. -/
inductive JoinOf (json : Json) : List Data → Data → Prop
  | one (d : Data) : JoinOf json [d] d
  | join {ds es : List Data} {d e : Data} : JoinOf json ds d → JoinOf json es e →
      JoinOf json (ds ++ es) (join_same json d e)

theorem JoinOf.ne_nil {json : Json} {ds : List Data} {d : Data} (h : JoinOf json ds d) : ds ≠ [] := by
  induction h with
  | one d => simp
  | join _ _ ih _ => simp [ih]

/-- What is held stands for what survives of a history: of the type with the first rank, the latest
`lww` write or the join of all the others. -/
structure StandsFor (json : Json) (deleted : Stamp) (h : List Event) (x : Data) : Prop where
  first : ∀ d, Surviving deleted h d → type_rank d ≤ type_rank x
  lww : ∀ stamp v, x = .Lww stamp v → Surviving deleted h x ∧
    ∀ stamp' v', Surviving deleted h (.Lww stamp' v') → stamp' ≤ stamp
  other : ¬ IsLww x → ∃ ds, JoinOf json ds x ∧
    ∀ d, d ∈ ds ↔ Surviving deleted h d ∧ type_rank d = type_rank x

/-- The same of what may be held. -/
def Stands (json : Json) (deleted : Stamp) (h : List Event) : Option Held → Prop
  | none => ∀ d, ¬ Surviving deleted h d
  | some p => StandsFor json deleted h p.1

/-- A state tells its history: its delete is the latest one, and it holds what survives it. -/
structure Tells (json : Json) (s : KeyState) (h : List Event) : Prop where
  shaped : Shaped s
  deleted : s.deleted = latest_delete h
  stands : Stands json s.deleted h (held s)
  seen : ∀ d seen, Event.Wrote d seen ∈ h → ∀ stamp ∈ seen, stamp ≤ s.deleted

section

variable {json : Json} {h ht : List Event} {s t : KeyState} {deleted : Stamp}

theorem zero_le (stamp : Stamp) : Stamp.ZERO ≤ stamp := by
  show Stamp.ZERO.key ≤ stamp.key
  rw [Prod.Lex.le_iff]
  show (0 < stamp.time.toNat) ∨ (0 = stamp.time.toNat ∧ 0 ≤ stamp.node.toNat)
  omega

theorem deletes_append (h ht : List Event) : deletes (h ++ ht) = deletes h ++ deletes ht := by
  simp [deletes]

theorem latest_append (h ht : List Event) :
    latest_delete (h ++ ht) = max (latest_delete h) (latest_delete ht) := by
  unfold latest_delete
  rw [deletes_append]
  induction deletes h with
  | nil => simp [zero_le]
  | cons stamp rest ih => rw [List.cons_append, List.foldr_cons, List.foldr_cons, ih, max_assoc]

theorem latest_mem (h : List Event) :
    latest_delete h = Stamp.ZERO ∨ latest_delete h ∈ deletes h := by
  unfold latest_delete
  induction deletes h with
  | nil => simp
  | cons stamp rest ih =>
    rw [List.foldr_cons]
    rcases max_choice stamp (rest.foldr max Stamp.ZERO) with hmax | hmax
    · simp [hmax]
    · rw [hmax]
      rcases ih with hzero | hmem
      · exact Or.inl hzero
      · exact Or.inr (List.mem_cons_of_mem _ hmem)

theorem le_latest {stamp : Stamp} (hs : stamp ∈ deletes h) : stamp ≤ latest_delete h := by
  unfold latest_delete
  generalize deletes h = ds at hs
  induction ds with
  | nil => cases hs
  | cons first rest ih =>
    rw [List.foldr_cons]
    rcases List.mem_cons.mp hs with rfl | hs
    · exact le_max_left _ _
    · exact le_trans (ih hs) (le_max_right _ _)

theorem surviving_append (d : Data) :
    Surviving deleted (h ++ ht) d ↔ Surviving deleted h d ∨ Surviving deleted ht d := by
  unfold Surviving
  simp only [List.mem_append, or_and_right, exists_or]

theorem survives_other {d : Data} (hd : ¬ IsLww d) (seen : List Stamp) :
    Survives deleted d seen ↔ deleted = Stamp.ZERO ∨ deleted ∈ seen := by
  cases d with
  | Lww stamp v => exact absurd ⟨stamp, v, rfl⟩ hd
  | _ => exact Iff.rfl

theorem rank_lww {d : Data} (hd : IsLww d) : type_rank d = 8 := by
  obtain ⟨stamp, v, rfl⟩ := hd
  simp [type_rank, precedence]

theorem rank_other {d : Data} (hd : ¬ IsLww d) : type_rank d < 8 := by
  cases d with
  | Lww stamp v => exact absurd ⟨stamp, v, rfl⟩ hd
  | _ => simp [type_rank, precedence, tag]

theorem rank_le_lww {x : Data} (hx : IsLww x) (d : Data) : type_rank d ≤ type_rank x := by
  rw [rank_lww hx]
  by_cases hd : IsLww d
  · exact (rank_lww hd).le
  · exact (rank_other hd).le

theorem standsFor_lww {stamp : Stamp} {v : Value} (hmem : Surviving deleted h (.Lww stamp v))
    (hmax : ∀ stamp' v', Surviving deleted h (.Lww stamp' v') → stamp' ≤ stamp) :
    StandsFor json deleted h (.Lww stamp v) := by
  refine ⟨fun d _ => rank_le_lww ⟨stamp, v, rfl⟩ d, ?_, fun hx => absurd ⟨stamp, v, rfl⟩ hx⟩
  rintro _ _ ⟨⟩
  exact ⟨hmem, hmax⟩

theorem isLww_of_rank {d x : Data} (hx : IsLww x) (h : type_rank x ≤ type_rank d) : IsLww d := by
  by_contra hd
  have hlt := rank_other hd
  rw [rank_lww hx] at h
  omega

/-! ## A later delete -/

theorem not_survives_later {d : Data} {seen : List Stamp} {own : Stamp} (hd : ¬ IsLww d)
    (hseen : ∀ stamp ∈ seen, stamp ≤ own) (hlater : own < deleted) :
    ¬ Survives deleted d seen := by
  rw [survives_other hd]
  rintro (rfl | hmem)
  · exact absurd hlater (not_lt.mpr (zero_le own))
  · exact absurd hlater (not_lt.mpr (hseen deleted hmem))

theorem Tells.surviving_later (hs : Tells json s h) (hlater : s.deleted < deleted) {d : Data}
    (hd : Surviving deleted h d) :
    ∃ stamp v, d = .Lww stamp v ∧ deleted < stamp ∧ Surviving s.deleted h d := by
  obtain ⟨seen, hmem, hsurvives⟩ := hd
  by_cases hlww : IsLww d
  · obtain ⟨stamp, v, rfl⟩ := hlww
    exact ⟨stamp, v, rfl, hsurvives, seen, hmem, hlater.trans hsurvives⟩
  · exact absurd hsurvives (not_survives_later hlww (hs.seen d seen hmem) hlater)

/-- What a later delete leaves of what a state holds stands for what it leaves of its history. -/
theorem Tells.alive (hs : Tells json s h) (hle : s.deleted ≤ deleted) :
    Stands json deleted h (alive s deleted) := by
  have hstands := hs.stands
  rcases hle.eq_or_lt with rfl | hlater
  · have hall : mqtt_rules.alive s s.deleted = held s := by
      rcases hheld : held s with _ | p
      · simp [mqtt_rules.alive, hheld]
      · have hp := held_eq_some.mp hheld
        exact alive_eq_some.mpr ⟨hp, outlives_own (hs.shaped.data p.1 hp.1)⟩
    rw [hall]
    exact hstands
  · rcases halive : mqtt_rules.alive s deleted with _ | ⟨x, e⟩
    · intro d hd
      obtain ⟨stamp, v, rfl, hafter, hbefore⟩ := hs.surviving_later hlater hd
      rcases hheld : held s with _ | ⟨y, f⟩
      · rw [hheld] at hstands
        exact hstands _ hbefore
      · rw [hheld] at hstands
        have hy : IsLww y := isLww_of_rank ⟨stamp, v, rfl⟩ (hstands.first _ hbefore)
        obtain ⟨stamp', v', rfl⟩ := hy
        have hmax := (hstands.lww stamp' v' rfl).2 stamp v hbefore
        have hlives : mqtt_rules.alive s deleted = some (.Lww stamp' v', f) :=
          alive_eq_some.mpr ⟨held_eq_some.mp hheld, decide_eq_true (lt_of_lt_of_le hafter hmax)⟩
        rw [halive] at hlives
        cases hlives
    · obtain ⟨hdata, hlives⟩ := alive_eq_some.mp halive
      have hheld : held s = some (x, e) := held_eq_some.mpr hdata
      rw [hheld] at hstands
      have hx : IsLww x := by
        by_contra hx
        rw [outlives_other hx] at hlives
        exact hlater.ne (of_decide_eq_true hlives)
      obtain ⟨stamp, v, rfl⟩ := hx
      have hafter : deleted < stamp := of_decide_eq_true hlives
      obtain ⟨⟨seen, hmem, -⟩, hmax⟩ := hstands.lww stamp v rfl
      refine standsFor_lww ⟨seen, hmem, hafter⟩ ?_
      intro stamp' v' hsurviving
      obtain ⟨-, -, -, -, hbefore⟩ := hs.surviving_later hlater hsurviving
      exact hmax stamp' v' hbefore

/-! ## Two histories -/

theorem StandsFor.left {x y : Data} (hx : StandsFor json deleted h x)
    (hy : StandsFor json deleted ht y) (hlt : type_rank y < type_rank x) :
    StandsFor json deleted (h ++ ht) x := by
  have hbelow : ∀ d, Surviving deleted ht d → type_rank d < type_rank x :=
    fun d hd => Nat.lt_of_le_of_lt (hy.first d hd) hlt
  refine ⟨?_, ?_, ?_⟩
  · intro d hd
    rcases (surviving_append d).mp hd with hd | hd
    · exact hx.first d hd
    · exact (hbelow d hd).le
  · rintro stamp v rfl
    obtain ⟨hsurviving, hmax⟩ := hx.lww stamp v rfl
    refine ⟨(surviving_append _).mpr (Or.inl hsurviving), ?_⟩
    intro stamp' v' hd
    rcases (surviving_append _).mp hd with hd | hd
    · exact hmax stamp' v' hd
    · have hless := hbelow _ hd
      rw [rank_lww ⟨stamp, v, rfl⟩, rank_lww ⟨stamp', v', rfl⟩] at hless
      omega
  · intro hlww
    obtain ⟨ds, hjoin, hds⟩ := hx.other hlww
    refine ⟨ds, hjoin, fun d => ?_⟩
    rw [hds, surviving_append]
    constructor
    · rintro ⟨hd, hrank⟩
      exact ⟨Or.inl hd, hrank⟩
    · rintro ⟨hd | hd, hrank⟩
      · exact ⟨hd, hrank⟩
      · exact absurd hrank (hbelow d hd).ne

theorem surviving_swap (d : Data) : Surviving deleted (h ++ ht) d ↔ Surviving deleted (ht ++ h) d := by
  rw [surviving_append, surviving_append, or_comm]

/-- What stands for a history tells it by its events, in any order. -/
theorem StandsFor.congr {x : Data} (hx : StandsFor json deleted h x)
    (heq : ∀ d, Surviving deleted h d ↔ Surviving deleted ht d) :
    StandsFor json deleted ht x := by
  refine ⟨?_, ?_, ?_⟩
  · intro d hd
    exact hx.first d ((heq d).mpr hd)
  · intro stamp v hlww
    obtain ⟨hsurviving, hmax⟩ := hx.lww stamp v hlww
    exact ⟨(heq x).mp hsurviving, fun stamp' v' hd => hmax stamp' v' ((heq _).mpr hd)⟩
  · intro hlww
    obtain ⟨ds, hjoin, hds⟩ := hx.other hlww
    exact ⟨ds, hjoin, fun d => by rw [hds, heq]⟩

theorem type_rank_eq (p : Held) : precedence p = type_rank p.1 := by
  obtain ⟨d, e⟩ := p
  cases d <;> rfl

/-- What two things become stands for both histories. -/
theorem StandsFor.joined {p q : Held} (hp : StandsFor json deleted h p.1)
    (hq : StandsFor json deleted ht q.1) :
    StandsFor json deleted (h ++ ht) (joined json p q).1 := by
  unfold mqtt_rules.joined
  rw [join_eq]
  rcases Nat.lt_trichotomy (precedence p) (precedence q) with hlt | heq | hgt
  · rw [layered_right hlt]
    rw [type_rank_eq, type_rank_eq] at hlt
    exact (hq.left hp hlt).congr surviving_swap
  · have hsame := sameType_of_precedence heq
    have hrank : type_rank p.1 = type_rank q.1 := by rw [← type_rank_eq, ← type_rank_eq, heq]
    rw [layered_same heq]
    have hfirst : ∀ d, Surviving deleted (h ++ ht) d → type_rank d ≤ type_rank p.1 := by
      intro d hd
      rcases (surviving_append d).mp hd with hd | hd
      · exact hp.first d hd
      · rw [hrank]
        exact hq.first d hd
    by_cases hlww : IsLww p.1
    · obtain ⟨x, e⟩ := p
      obtain ⟨y, f⟩ := q
      obtain ⟨stamp, v, rfl⟩ := hlww
      obtain ⟨stamp', w, rfl⟩ : IsLww y := (isLww_iff hsame).mp ⟨stamp, v, rfl⟩
      obtain ⟨hpmem, hpmax⟩ := hp.lww stamp v rfl
      obtain ⟨hqmem, hqmax⟩ := hq.lww stamp' w rfl
      -- Whichever of the two is kept has the later stamp.
      have hkeep : ∀ (late : Stamp) (u : Value), Surviving deleted (h ++ ht) (.Lww late u) →
          stamp ≤ late → stamp' ≤ late → StandsFor json deleted (h ++ ht) (.Lww late u) := by
        intro late u hmem hle hle'
        refine standsFor_lww hmem ?_
        intro st u' hd
        rcases (surviving_append _).mp hd with hd | hd
        · exact le_trans (hpmax st u' hd) hle
        · exact le_trans (hqmax st u' hd) hle'
      have hjoined : mqtt_rules.joined json (.Lww stamp v, e) (.Lww stamp' w, f) =
          same json (.Lww stamp v, e) (.Lww stamp' w, f) := by
        unfold mqtt_rules.joined
        rw [join_eq, layered_same heq]
      rw [← hjoined]
      rcases joined_lww stamp stamp' v w e f with ⟨hj, hle⟩ | ⟨hj, hle⟩
      · rw [hj]
        exact hkeep stamp v ((surviving_append _).mpr (Or.inl hpmem)) (le_refl _) hle
      · rw [hj]
        exact hkeep stamp' w ((surviving_append _).mpr (Or.inr hqmem)) hle (le_refl _)
    · have hlww' : ¬ IsLww q.1 := fun hq' => hlww ((isLww_iff hsame).mpr hq')
      have hjrank : type_rank (join_same json p.1 q.1) = type_rank p.1 := by
        have hprec := precedence_of_sameType (p := (p.1, 0)) (q := (join_same json p.1 q.1, 0))
          (sameType_join_same hsame)
        exact hprec.symm
      obtain ⟨ds, hds, hdmem⟩ := hp.other hlww
      obtain ⟨es, hes, hemem⟩ := hq.other hlww'
      rw [same_other hsame hlww]
      refine ⟨?_, ?_, ?_⟩
      · intro d hd
        rw [hjrank]
        exact hfirst d hd
      · intro stamp v hx
        exact absurd ((isLww_iff (sameType_join_same hsame)).mpr ⟨stamp, v, hx⟩) hlww
      · intro _
        refine ⟨ds ++ es, hds.join hes, fun d => ?_⟩
        rw [List.mem_append, hdmem, hemem, surviving_append, hjrank, hrank, ← or_and_right]
  · rw [layered_left hgt]
    rw [type_rank_eq, type_rank_eq] at hgt
    exact hp.left hq hgt

theorem Stands.either {x y : Option Held} (hx : Stands json deleted h x)
    (hy : Stands json deleted ht y) :
    Stands json deleted (h ++ ht) (either (joined json) x y) := by
  cases x with
  | none =>
    have hright : ∀ d, Surviving deleted ht d ↔ Surviving deleted (h ++ ht) d := by
      intro d
      rw [surviving_append]
      simp [hx d]
    rw [none_either]
    cases y with
    | none => exact fun d hd => hy d ((hright d).mpr hd)
    | some q => exact StandsFor.congr hy hright
  | some p =>
    cases y with
    | none =>
      have hleft : ∀ d, Surviving deleted h d ↔ Surviving deleted (h ++ ht) d := by
        intro d
        rw [surviving_append]
        simp [hy d]
      exact StandsFor.congr hx hleft
    | some q => exact StandsFor.joined hx hy

theorem tells_empty : Tells json KeyState.empty [] := by
  refine ⟨shaped_empty, rfl, ?_, by simp⟩
  rintro d ⟨seen, hmem, -⟩
  cases hmem

theorem Tells.merge (hs : Tells json s h) (ht' : Tells json t ht) :
    Tells json (s.merge json t) (h ++ ht) := by
  refine ⟨merge_in hs.shaped ht'.shaped, ?_, ?_, ?_⟩
  · rw [deleted_merge, latest_append, hs.deleted, ht'.deleted]
  · rw [deleted_merge, held_merge]
    exact (hs.alive (le_max_left _ _)).either (ht'.alive (le_max_right _ _))
  · intro d seen hmem stamp hstamp
    rw [deleted_merge]
    rcases List.mem_append.mp hmem with hmem | hmem
    · exact le_trans (hs.seen d seen hmem stamp hstamp) (le_max_left _ _)
    · exact le_trans (ht'.seen d seen hmem stamp hstamp) (le_max_right _ _)

/-! ## One write -/

theorem Tells.delete (hs : Tells json s h) {c : Hlc} {stamp : Stamp} (hc : Accepted c s)
    (hstamp : c.last < stamp.time) : Tells json (s.delete stamp) (h ++ [.Deleted stamp]) := by
  obtain ⟨hlater, hcovered⟩ := delete_covers hc hstamp (le_refl stamp)
  have hdeleted : (s.delete stamp).deleted = stamp := max_eq_right hlater.le
  have hlatest : latest_delete (h ++ [.Deleted stamp]) = stamp := by
    have hone : latest_delete [.Deleted stamp] = stamp := max_eq_left (zero_le stamp)
    rw [latest_append, hone, ← hs.deleted]
    exact max_eq_right hlater.le
  refine ⟨delete_in s stamp, by rw [hdeleted, hlatest], ?_, ?_⟩
  · have hnone := hs.alive hlater.le
    rw [hcovered] at hnone
    rw [hdeleted]
    intro d hd
    rcases (surviving_append d).mp hd with hd | ⟨seen, hmem, -⟩
    · exact hnone d hd
    · simp at hmem
  · intro d seen hmem st hst
    rw [hdeleted]
    have hbefore : Event.Wrote d seen ∈ h := by simpa using hmem
    exact le_trans (hs.seen d seen hbefore st hst) hlater.le

theorem survives_own {P : Nat → Value → Prop} {d : Data} (hd : DataIn P (latest_delete h) d) :
    Survives (latest_delete h) d (deletes h) := by
  cases d with
  | Lww stamp v => exact hd.1
  | _ => exact latest_mem h

section write

variable {d x : Data} (hnew : ∀ y, Surviving deleted ht y ↔ Surviving deleted h y ∨ y = d)
include hnew

/-- The first write since the delete. -/
theorem standsFor_only (hnone : ∀ y, ¬ Surviving deleted h y) : StandsFor json deleted ht d := by
  have honly : ∀ y, Surviving deleted ht y ↔ y = d := by
    intro y
    rw [hnew]
    simp [hnone y]
  refine ⟨?_, ?_, ?_⟩
  · intro y hy
    rw [(honly y).mp hy]
  · rintro stamp v rfl
    refine ⟨(honly _).mpr rfl, ?_⟩
    intro stamp' v' hy
    cases (honly _).mp hy
    exact le_refl _
  · intro _
    refine ⟨[d], JoinOf.one d, fun y => ?_⟩
    rw [List.mem_singleton, honly]
    constructor
    · rintro rfl
      exact ⟨rfl, rfl⟩
    · rintro ⟨hy, -⟩
      exact hy

theorem StandsFor.set {old new : Stamp} {v w : Value}
    (hx : StandsFor json deleted h (.Lww old v)) (hd : d = .Lww new w) (hlt : old < new) :
    StandsFor json deleted ht d := by
  subst hd
  obtain ⟨-, hmax⟩ := hx.lww old v rfl
  refine standsFor_lww ((hnew _).mpr (Or.inr rfl)) ?_
  intro stamp' v' hy
  rcases (hnew _).mp hy with hy | hy
  · exact le_trans (hmax stamp' v' hy) hlt.le
  · cases hy
    exact le_refl _

/-- A payload that grew out of the one held. -/
theorem StandsFor.grow (hx : StandsFor json deleted h x) (hlww : ¬ IsLww x) (hsame : SameType x d)
    (hjoin : join_same json x d = d) : StandsFor json deleted ht d := by
  have hrank : type_rank x = type_rank d :=
    precedence_of_sameType (p := (x, 0)) (q := (d, 0)) hsame
  have hlww' : ¬ IsLww d := fun hd => hlww ((isLww_iff hsame).mpr hd)
  obtain ⟨ds, hds, hdmem⟩ := hx.other hlww
  refine ⟨?_, fun stamp v hd => absurd ⟨stamp, v, hd⟩ hlww', ?_⟩
  · intro y hy
    rcases (hnew y).mp hy with hy | rfl
    · rw [← hrank]
      exact hx.first y hy
    · exact Nat.le_refl _
  · intro _
    have hjoined := hds.join (JoinOf.one d)
    rw [hjoin] at hjoined
    refine ⟨ds ++ [d], hjoined, fun y => ?_⟩
    rw [List.mem_append, List.mem_singleton, hdmem, hnew, hrank]
    constructor
    · rintro (⟨hy, hyrank⟩ | rfl)
      · exact ⟨Or.inl hy, hyrank⟩
      · exact ⟨Or.inr rfl, rfl⟩
    · rintro ⟨hy | rfl, hyrank⟩
      · exact Or.inl ⟨hy, hyrank⟩
      · exact Or.inr rfl

end write

/-- A write that leaves its state with a payload. -/
theorem Tells.wrote (hs : Tells json s h) {c c' : Hlc} {d : Data} {e : UInt64}
    (htook : Took json (fun _ _ => True) s c d c') :
    Tells json ⟨s.deleted, some d, e⟩ (h ++ [.Wrote d (deletes h)]) := by
  have hlatest : latest_delete (h ++ [.Wrote d (deletes h)]) = latest_delete h := by
    have hone : latest_delete [.Wrote d (deletes h)] = Stamp.ZERO := rfl
    rw [latest_append, hone]
    exact max_eq_left (zero_le _)
  have hdata := htook.data
  rw [hs.deleted] at hdata
  have hnew : ∀ x, Surviving s.deleted (h ++ [.Wrote d (deletes h)]) x ↔
      Surviving s.deleted h x ∨ x = d := by
    intro x
    rw [surviving_append]
    apply or_congr Iff.rfl
    constructor
    · rintro ⟨seen, hmem, -⟩
      have hboth : x = d ∧ seen = deletes h := by simpa using hmem
      exact hboth.1
    · rintro rfl
      refine ⟨deletes h, by simp, ?_⟩
      rw [hs.deleted]
      exact survives_own hdata
  refine ⟨⟨nofun, ?_⟩, by rw [hlatest]; exact hs.deleted, ?_, ?_⟩
  · rintro _ ⟨⟩
    exact htook.data
  · show StandsFor json s.deleted (h ++ [.Wrote d (deletes h)]) d
    have hstands := hs.stands
    rcases hheld : s.data with _ | x
    · have hempty : held s = none := by simp [held, hheld]
      rw [hempty] at hstands
      exact standsFor_only hnew hstands
    · have hpair : held s = some (x, s.expires_ms) := by simp [held, hheld]
      rw [hpair] at hstands
      have hstands : StandsFor json s.deleted h x := hstands
      rcases htook.held x hheld with ⟨old, new, v, w, rfl, hd, hlt⟩ | ⟨hlww, hsame, hjoin⟩
      · exact hstands.set hnew hd hlt
      · exact hstands.grow hnew hlww hsame hjoin
  · intro y seen hmem st hst
    rcases List.mem_append.mp hmem with hmem | hmem
    · exact hs.seen y seen hmem st hst
    · have hboth : y = d ∧ seen = deletes h := by simpa using hmem
      rw [hboth.2] at hst
      show st ≤ s.deleted
      rw [hs.deleted]
      exact le_latest hst

/-- What the arms of a write leave, by the history that they record. -/
theorem tells_edit (hjson : json.Sound) (hs : Tells json s h) {by_ : Writer}
    (hc : Accepted by_.clock s) (hroom : by_.clock.Room 1) (write : Write) :
    (∀ s' c, edit json write s by_ = .ok (.Deleted s' c) →
      Tells json s' (h ++ [.Deleted (by_.clock.now by_.wall_ms).1])) ∧
    ∀ d c changed e, edit json write s by_ = .ok (.Holds d c changed) →
      Tells json ⟨s.deleted, some d, e⟩ (h ++ [.Wrote d (deletes h)]) := by
  constructor
  · intro s' c hedit
    obtain ⟨rfl, -⟩ := edit_deleted hedit
    exact hs.delete hc (now_after (n := 0) by_.wall_ms hroom (by omega)).1
  · intro d c changed e hedit
    exact hs.wrote (edit_took hjson hs.shaped hc hroom (any_write json write) hedit)

theorem tells_apply (hjson : json.Sound) (hs : Tells json s h) {by_ : Writer}
    (hc : Accepted by_.clock s) (hroom : by_.clock.Room 2) {write : Write}
    {ttl_secs default_ttl_secs : Option UInt64} {r : Except WriteError Bool} {new : KeyState}
    {c : Hlc} (happly : s.apply json write ttl_secs default_ttl_secs by_ = (r, new, c)) :
    Tells json new (record json s write by_ h) := by
  have hroom' : by_.clock.Room 1 := by
    unfold Hlc.Room at hroom ⊢
    omega
  obtain ⟨hafter, -, hleft⟩ := now_after (n := 1) by_.wall_ms hroom (by omega)
  unfold KeyState.apply at happly
  unfold record
  dsimp only at happly ⊢
  -- The state that the arms see, and its history.
  obtain ⟨s', clock, expired, h', hexpire, hh', hs', hc', hroom''⟩ : ∃ s' clock expired h',
      s.expire by_ = (s', clock, expired) ∧
      (if expired then h ++ [.Deleted (by_.clock.now by_.wall_ms).1] else h) = h' ∧
      Tells json s' h' ∧ Accepted clock s' ∧ clock.Room 1 := by
    rcases expire_cases s by_ with ⟨hexpire, -⟩ | ⟨-, hexpire⟩
    · exact ⟨s, by_.clock, false, h, hexpire, rfl, hs, hc, hroom'⟩
    · exact ⟨_, _, true, _, hexpire, rfl, hs.delete hc hafter, accepted_delete _ hc hroom', hleft⟩
  rw [hexpire] at happly ⊢
  dsimp only at happly ⊢
  rw [hh']
  have hc'' : Accepted ({ by_ with clock := clock } : Writer).clock s' := hc'
  obtain ⟨hdeleted, hholds⟩ := tells_edit hjson hs' hc'' hroom'' write
  rcases hedit : edit json write s' { by_ with clock := clock } with e | ⟨t, c'⟩ | ⟨d, c', changed⟩
  · rw [hedit] at happly
    cases happly
    exact hs'
  · rw [hedit] at happly
    cases happly
    exact hdeleted _ _ hedit
  · rw [hedit] at happly
    dsimp only at happly
    split at happly
    · cases happly
      exact hholds _ _ _ _ hedit
    · cases happly
      exact hholds _ _ _ _ hedit

/-! ## Every state -/

theorem produced_tells (hjson : json.Sound) {c : Hlc} (hp : Produced json s c h) :
    Tells json s h ∧ Accepted c s := by
  induction hp with
  | empty c => exact ⟨tells_empty, UInt64.zero_le⟩
  | write _ hroom happly ih =>
    refine ⟨tells_apply hjson ih.1 ih.2 hroom happly, ?_⟩
    exact (apply_wrote hjson ih.1.shaped ih.2 hroom (any_write json _) happly).accepted
  | receive _ _ hobserve ih iht =>
    obtain ⟨hle, haccepted⟩ := observe_accepts hobserve
    exact ⟨ih.1.merge iht.1, accepted_merge (accepted_mono ih.2 hle) haccepted⟩
  | tick _ hle ih => exact ⟨ih.1, accepted_mono ih.2 hle⟩

theorem merged_tells (hjson : json.Sound) (hm : Merged json s h) : Tells json s h := by
  induction hm with
  | one hp => exact (produced_tells hjson hp).1
  | merge _ _ ih iht => exact ih.merge iht

theorem Tells.some (hs : Tells json s h) {x : Data} (hx : s.data = some x) :
    StandsFor json (latest_delete h) h x := by
  have hstands := hs.stands
  have hheld : held s = Option.some (x, s.expires_ms) := by simp [held, hx]
  rw [hheld, hs.deleted] at hstands
  exact hstands

theorem StandsFor.of_type {x : Data} (hx : StandsFor json deleted h x) :
    ∃ d, Surviving deleted h d ∧ type_rank d = type_rank x := by
  by_cases hlww : IsLww x
  · obtain ⟨stamp, v, hstamp⟩ := hlww
    exact ⟨x, (hx.lww stamp v hstamp).1, rfl⟩
  · obtain ⟨ds, hjoin, hds⟩ := hx.other hlww
    obtain ⟨d, hd⟩ := List.exists_mem_of_ne_nil ds hjoin.ne_nil
    exact ⟨d, (hds d).mp hd⟩

theorem Tells.none_iff (hs : Tells json s h) :
    s.data = none ↔ ∀ d, ¬ Surviving (latest_delete h) h d := by
  have hstands := hs.stands
  rw [hs.deleted] at hstands
  rcases hdata : s.data with _ | x
  · have hheld : held s = none := by simp [held, hdata]
    rw [hheld] at hstands
    exact ⟨fun _ => hstands, fun _ => rfl⟩
  · refine ⟨by rintro ⟨⟩, fun hnone => ?_⟩
    obtain ⟨d, hd, -⟩ := (hs.some hdata).of_type
    exact absurd hd (hnone d)

/-- A type is held where something of it outlives the latest delete, and nothing of a type that
goes before it does. -/
theorem Tells.type_iff (hs : Tells json s h) (rank : Nat) :
    (∃ x, s.data = Option.some x ∧ type_rank x = rank) ↔
      (∃ d, Surviving (latest_delete h) h d ∧ type_rank d = rank) ∧
        ∀ d, Surviving (latest_delete h) h d → type_rank d ≤ rank := by
  constructor
  · rintro ⟨x, hx, rfl⟩
    exact ⟨(hs.some hx).of_type, (hs.some hx).first⟩
  · rintro ⟨⟨d, hd, rfl⟩, hmax⟩
    rcases hdata : s.data with _ | x
    · exact absurd hd (hs.none_iff.mp hdata d)
    · refine ⟨x, rfl, ?_⟩
      obtain ⟨y, hy, hrank⟩ := (hs.some hdata).of_type
      have hle := (hs.some hdata).first d hd
      have hge := hmax y hy
      omega

theorem Tells.lww_iff (hs : Tells json s h) :
    (∃ stamp v, s.data = Option.some (.Lww stamp v)) ↔
      ∃ stamp v, Surviving (latest_delete h) h (.Lww stamp v) := by
  constructor
  · rintro ⟨stamp, v, hx⟩
    exact ⟨stamp, v, ((hs.some hx).lww stamp v rfl).1⟩
  · rintro ⟨stamp, v, hd⟩
    rcases hdata : s.data with _ | x
    · exact absurd hd (hs.none_iff.mp hdata _)
    · obtain ⟨stamp', v', rfl⟩ := isLww_of_rank ⟨stamp, v, rfl⟩ ((hs.some hdata).first _ hd)
      exact ⟨stamp', v', rfl⟩

theorem Tells.other_iff (hs : Tells json s h) :
    (∃ x, s.data = Option.some x ∧ ¬ IsLww x) ↔
      (∃ d, Surviving (latest_delete h) h d ∧ ¬ IsLww d) ∧
        ∀ stamp v, ¬ Surviving (latest_delete h) h (.Lww stamp v) := by
  constructor
  · rintro ⟨x, hx, hother⟩
    have hnone : ∀ d, Surviving (latest_delete h) h d → ¬ IsLww d :=
      fun d hd hlww => hother (isLww_of_rank hlww ((hs.some hx).first d hd))
    obtain ⟨d, hd, -⟩ := (hs.some hx).of_type
    exact ⟨⟨d, hd, hnone d hd⟩, fun stamp v hlww => hnone _ hlww ⟨stamp, v, rfl⟩⟩
  · rintro ⟨⟨d, hd, -⟩, hnone⟩
    rcases hdata : s.data with _ | x
    · exact absurd hd (hs.none_iff.mp hdata d)
    · refine ⟨x, rfl, ?_⟩
      rintro ⟨stamp, v, rfl⟩
      exact hnone stamp v ((hs.some hdata).lww stamp v rfl).1

theorem latest_le {bound : Stamp} (hall : ∀ stamp ∈ deletes h, stamp ≤ bound) :
    latest_delete h ≤ bound := by
  rcases latest_mem h with hzero | hmem
  · rw [hzero]
    exact zero_le bound
  · exact hall _ hmem

theorem mem_deletes (stamp : Stamp) : stamp ∈ deletes h ↔ Event.Deleted stamp ∈ h := by
  unfold deletes
  rw [List.mem_filterMap]
  constructor
  · rintro ⟨e, he, hstamp⟩
    cases e with
    | Deleted st =>
      cases hstamp
      exact he
    | Wrote d seen => cases hstamp
  · intro he
    exact ⟨_, he, rfl⟩

theorem Tells.same (hs : Tells json s h) (ht' : Tells json t ht) (hsame : ∀ e, e ∈ h ↔ e ∈ ht) :
    s.deleted = t.deleted ∧ s.data.map type_rank = t.data.map type_rank := by
  have hlatest : latest_delete h = latest_delete ht := by
    apply le_antisymm
    · exact latest_le fun stamp hmem => le_latest
        ((mem_deletes stamp).mpr ((hsame _).mp ((mem_deletes stamp).mp hmem)))
    · exact latest_le fun stamp hmem => le_latest
        ((mem_deletes stamp).mpr ((hsame _).mpr ((mem_deletes stamp).mp hmem)))
  have hsurvive : ∀ d, Surviving (latest_delete h) h d ↔ Surviving (latest_delete ht) ht d := by
    intro d
    unfold Surviving
    simp only [hsame, hlatest]
  refine ⟨by rw [hs.deleted, ht'.deleted, hlatest], ?_⟩
  ext rank
  simp only [Option.map_eq_some_iff]
  rw [hs.type_iff rank, ht'.type_iff rank]
  simp only [hsurvive]

end

/-! ## Deletes -/

/-- However many nodes wrote and deleted, and in whatever order and however often their copies were
merged: an `lww` value is held exactly where one is stamped after the latest delete, and then it is
the latest one; another type is held exactly where no `lww` is and some payload was written by a
state that had seen that delete, and then it is the join of all those of the type that goes first. -/
theorem deletes_win_over_what_they_saw (json : Json) (hjson : json.Sound) {s : KeyState}
    {h : List Event} (hm : Merged json s h) :
    s.deleted = latest_delete h ∧
    ((∃ stamp v, s.data = some (.Lww stamp v)) ↔
      ∃ stamp v seen, Event.Wrote (.Lww stamp v) seen ∈ h ∧ latest_delete h < stamp) ∧
    ((∃ x, s.data = some x ∧ ¬ IsLww x) ↔
      (∃ d seen, Event.Wrote d seen ∈ h ∧ ¬ IsLww d ∧
        (latest_delete h = Stamp.ZERO ∨ latest_delete h ∈ seen)) ∧
      ¬ ∃ stamp v seen, Event.Wrote (.Lww stamp v) seen ∈ h ∧ latest_delete h < stamp) ∧
    (∀ x, s.data = some x → StandsFor json (latest_delete h) h x) ∧
    ∀ (t : KeyState) (ht : List Event), Merged json t ht → (∀ e, e ∈ h ↔ e ∈ ht) →
      s.deleted = t.deleted ∧ s.data.map type_rank = t.data.map type_rank := by
  have hs := merged_tells hjson hm
  have hlww : (∃ stamp v, Surviving (latest_delete h) h (.Lww stamp v)) ↔
      ∃ stamp v seen, Event.Wrote (.Lww stamp v) seen ∈ h ∧ latest_delete h < stamp := Iff.rfl
  have hother : (∃ d, Surviving (latest_delete h) h d ∧ ¬ IsLww d) ↔
      ∃ d seen, Event.Wrote d seen ∈ h ∧ ¬ IsLww d ∧
        (latest_delete h = Stamp.ZERO ∨ latest_delete h ∈ seen) := by
    constructor
    · rintro ⟨d, ⟨seen, hmem, hsurvives⟩, hd⟩
      exact ⟨d, seen, hmem, hd, (survives_other hd seen).mp hsurvives⟩
    · rintro ⟨d, seen, hmem, hd, hseen⟩
      exact ⟨d, ⟨seen, hmem, (survives_other hd seen).mpr hseen⟩, hd⟩
  refine ⟨hs.deleted, ?_, ?_, fun x hx => hs.some hx, ?_⟩
  · rw [hs.lww_iff, hlww]
  · rw [hs.other_iff, hother, ← hlww]
    simp only [not_exists]
  · intro t ht hm' hsame
    exact hs.same (merged_tells hjson hm') hsame

/-- A key deleted by node `a`, and what came of the write and of the clock. -/
def wiped : KeyState × Hlc := (KeyState.empty.apply decimals .Delete none none (writer_at 0)).2

/-- Two nodes that have merged the delete: one sets the key, one counts on it. -/
def set_again : KeyState × Hlc :=
  (wiped.1.apply decimals (.Set (.Bool true)) none none ⟨"a", wiped.2, 1000⟩).2

def counted_again : KeyState × Hlc :=
  (wiped.1.apply decimals (.Incr 2) none none ⟨"b", wiped.2, 1000⟩).2

def wiped_events : List Event := record decimals KeyState.empty .Delete (writer_at 0) []

def set_events : List Event :=
  record decimals wiped.1 (.Set (.Bool true)) ⟨"a", wiped.2, 1000⟩ wiped_events

def counted_events : List Event :=
  record decimals wiped.1 (.Incr 2) ⟨"b", wiped.2, 1000⟩ wiped_events

theorem wiped_produced : Produced decimals wiped.1 wiped.2 wiped_events := by
  have happly : KeyState.empty.apply decimals .Delete none none (writer_at 0) =
    (_, wiped.1, wiped.2) := rfl
  apply Produced.write (Produced.empty _) _ happly
  unfold Hlc.Room
  decide

theorem set_merged : Merged decimals set_again.1 set_events := by
  have happly : wiped.1.apply decimals (.Set (.Bool true)) none none ⟨"a", wiped.2, 1000⟩ =
    (_, set_again.1, set_again.2) := rfl
  apply Merged.one (Produced.write wiped_produced _ happly)
  unfold Hlc.Room
  decide +kernel

theorem counted_merged : Merged decimals counted_again.1 counted_events := by
  have happly : wiped.1.apply decimals (.Incr 2) none none ⟨"b", wiped.2, 1000⟩ =
    (_, counted_again.1, counted_again.2) := rfl
  apply Merged.one (Produced.write wiped_produced _ happly)
  unfold Hlc.Room
  decide +kernel

theorem wiped_told : wiped_events = [.Deleted wiped.1.deleted] := rfl

theorem set_told : ∃ stamp v, wiped.1.deleted < stamp ∧
    set_events = [.Deleted wiped.1.deleted, .Wrote (.Lww stamp v) [wiped.1.deleted]] := by
  refine ⟨?stamp, ?v, ?_, ?events⟩
  case events => rfl
  decide +kernel

theorem counted_told : ∃ counts,
    counted_events = [.Deleted wiped.1.deleted, .Wrote (.Sum counts) [wiped.1.deleted]] :=
  ⟨_, rfl⟩

theorem latest_wiped : latest_delete [.Deleted wiped.1.deleted] = wiped.1.deleted :=
  max_eq_left (zero_le _)

/-- A count made before the delete, by a node that had not seen it. -/
def early_events : List Event := record decimals KeyState.empty (.Incr 3) (writer_at 0) []

theorem early_merged : Merged decimals counted early_events := by
  have happly : KeyState.empty.apply decimals (.Incr 3) (some 600) none (writer_at 0) =
    (_, counted, _) := rfl
  apply Merged.one (Produced.write (Produced.empty _) _ happly)
  unfold Hlc.Room
  decide

theorem early_told : ∃ counts, early_events = [.Wrote (.Sum counts) []] := ⟨_, rfl⟩

theorem the_early_count_does_not_come_back :
    (∃ x, (counted_again.1.merge decimals counted).data = some x ∧ ¬ IsLww x) ∧
    (wiped.1.merge decimals counted).data = none ∧
    (counted_again.1.merge decimals counted).data.map type_rank =
      (counted.merge decimals counted_again.1).data.map type_rank := by
  have hcounted := deletes_win_over_what_they_saw decimals decimals_sound
    (counted_merged.merge early_merged)
  have hwiped := deletes_win_over_what_they_saw decimals decimals_sound
    ((Merged.one wiped_produced).merge early_merged)
  obtain ⟨counts, hevents⟩ := counted_told
  obtain ⟨early, hearly⟩ := early_told
  have hsum (counts : Counts) : ¬ IsLww (.Sum counts) := by
    rintro ⟨stamp, v, h⟩
    cases h
  refine ⟨?_, ?_, ?_⟩
  · rw [hcounted.2.2.1, hevents, hearly]
    have hlatest : latest_delete ([.Deleted wiped.1.deleted, .Wrote (.Sum counts)
        [wiped.1.deleted]] ++ [.Wrote (.Sum early) []]) = wiped.1.deleted := latest_wiped
    rw [hlatest]
    refine ⟨⟨.Sum counts, [wiped.1.deleted], by simp, hsum counts, by simp⟩, ?_⟩
    rintro ⟨stamp, v, seen, hmem, -⟩
    simp at hmem
  · have hlatest : latest_delete (wiped_events ++ early_events) = wiped.1.deleted := by
      rw [wiped_told, hearly]
      exact latest_wiped
    have hdeleted : wiped.1.deleted ≠ Stamp.ZERO := by decide +kernel
    rcases hdata : (wiped.1.merge decimals counted).data with _ | x
    · rfl
    · obtain ⟨d, ⟨seen, hmem, hsurvives⟩, -⟩ := (hwiped.2.2.2.1 x hdata).of_type
      rw [wiped_told, hearly] at hmem
      obtain ⟨rfl, rfl⟩ : d = .Sum early ∧ seen = [] := by simpa using hmem
      rw [hlatest, survives_other (hsum early)] at hsurvives
      simp [hdeleted] at hsurvives
  · apply (hcounted.2.2.2.2 _ _ (early_merged.merge counted_merged) _).2
    intro e
    rw [List.mem_append, List.mem_append, or_comm]

/-- A count that saw the delete is not held where a set saw it too; and a clock at its end sets a
key with the stamp of the delete. -/
theorem a_set_hides_a_count_that_saw_the_delete :
    ¬ (∀ (json : Json) (s : KeyState) (h : List Event), json.Sound → Merged json s h →
      ∀ d seen, Event.Wrote d seen ∈ h → ¬ IsLww d → latest_delete h ∈ seen →
        ∃ x, s.data = some x ∧ type_rank x = type_rank d) ∧
    ¬ (∀ (json : Json) (by_ : Writer) (v : Value), json.Sound →
      let gone := (KeyState.empty.apply json .Delete none none by_).2
      let kept := (gone.1.apply json (.Set v) none none { by_ with clock := gone.2 }).2.1
      ∀ stamp w, kept.data = some (.Lww stamp w) → kept.deleted < stamp) := by
  constructor
  · intro hclaim
    obtain ⟨stamp, v, hafter, hset⟩ := set_told
    obtain ⟨counts, hcount⟩ := counted_told
    have hm := set_merged.merge counted_merged
    have hlatest : latest_delete (set_events ++ counted_events) = wiped.1.deleted := by
      rw [hset, hcount]
      exact (latest_append [.Deleted wiped.1.deleted] [.Deleted wiped.1.deleted]).trans
        (by rw [max_self, latest_wiped])
    obtain ⟨x, hx, hrank⟩ := hclaim decimals _ _ decimals_sound hm (.Sum counts) [wiped.1.deleted]
      (by simp [hcount]) (by rintro ⟨_, _, ⟨⟩⟩) (by simp [hlatest])
    have hsurviving : Surviving wiped.1.deleted (set_events ++ counted_events) (.Lww stamp v) :=
      ⟨[wiped.1.deleted], by simp [hset], hafter⟩
    rw [← hlatest] at hsurviving
    obtain ⟨_, _, hdata⟩ := (merged_tells decimals_sound hm).lww_iff.mpr ⟨stamp, v, hsurviving⟩
    rw [hdata] at hx
    cases hx
    simp [type_rank, precedence, tag] at hrank
  · intro hclaim
    have hlate := hclaim decimals (writer_at U64_MAX) (.Bool true) decimals_sound _ _ rfl
    exact absurd hlate (by decide +kernel)

end mqtt_rules
