-- The hybrid clock over whole runs (`crdt.rs`): `now` and `observe` in any order, with any
-- readings of the wall clock. A stamp is after everything that the clock gave or accepted
-- before it, until the 64 bits of the clock run out.
import MqttBroker.Rules.CrdtWrites

namespace mqtt_rules

/-! ## Runs -/

/-- A use of the clock. Each is one atomic change of its word. -/
inductive Call
  | Now (wall_ms : UInt64)
  | Observe (seen : Stamp) (wall_ms : UInt64)
  deriving DecidableEq

inductive Answer
  | Given (stamp : Stamp)
  | Accepted
  | Refused (why : Skew)
  deriving DecidableEq

def Hlc.call (c : Hlc) : Call → Answer × Hlc
  | .Now wall_ms => (.Given (c.now wall_ms).1, (c.now wall_ms).2)
  | .Observe seen wall_ms =>
    match c.observe seen wall_ms with
    | .ok c => (.Accepted, c)
    | .error why => (.Refused why, c)

/-- One call of a run, with the clock before and after it. -/
structure Turn where
  before : Hlc
  call : Call
  answer : Answer
  after : Hlc

def Hlc.turns (c : Hlc) : List Call → List Turn
  | [] => []
  | call :: rest =>
    { before := c, call, answer := (c.call call).1, after := (c.call call).2 } ::
      (c.call call).2.turns rest

/-- The physical part of the latest stamp that the clock gave or accepted. -/
def Hlc.latest_ms (c : Hlc) : UInt64 := c.last >>> 16

/-- The stamp of the turn is not the last that the clock has. -/
def Turn.Unsaturated (t : Turn) : Prop := ∀ wall_ms, t.call = .Now wall_ms → t.before.last ≠ U64_MAX

instance (t : Turn) : Decidable t.Unsaturated :=
  match h : t.call with
  | .Now wall_ms =>
    decidable_of_iff (t.before.last ≠ U64_MAX) (by
      unfold Turn.Unsaturated
      simp [h])
  | .Observe seen wall_ms =>
    .isTrue (by
      intro wall hwall
      rw [h] at hwall
      cases hwall)

/-! ## One turn -/

theorem room_of_unsaturated {c : Hlc} (h : c.last ≠ U64_MAX) : c.Room 1 := by
  have hmax : U64_MAX.toNat = 2 ^ 64 - 1 := rfl
  have hne : c.last.toNat ≠ U64_MAX.toNat := fun heq => h (UInt64.toNat_inj.mp heq)
  have hlt := c.last.toNat_lt
  unfold Hlc.Room
  omega

/-- The physical part of a stamp is not behind the wall clock. -/
theorem now_ms (c : Hlc) (wall_ms : UInt64) : min wall_ms MAX_MS ≤ (c.now wall_ms).1.ms := by
  have hmax : MAX_MS.toNat = 2 ^ 48 - 1 := rfl
  have hshift : (16 : UInt64).toNat % 64 = 16 := rfl
  have hwall : (min wall_ms MAX_MS <<< 16).toNat = (min wall_ms MAX_MS).toNat * 2 ^ 16 := by
    rw [UInt64.toNat_shiftLeft, hshift, Nat.shiftLeft_eq, toNat_min]
    apply Nat.mod_eq_of_lt
    omega
  have htime : (min wall_ms MAX_MS <<< 16).toNat ≤ (c.now wall_ms).1.time.toNat := by
    show _ ≤ (max _ (saturating_add c.last 1)).toNat
    rw [toNat_max]
    omega
  rw [UInt64.le_iff_toNat_le]
  show _ ≤ ((c.now wall_ms).1.time >>> 16).toNat
  rw [UInt64.toNat_shiftRight, hshift, Nat.shiftRight_eq_div_pow]
  omega

theorem latest_ms_mono {c d : Hlc} (h : c.last ≤ d.last) : c.latest_ms ≤ d.latest_ms := by
  rw [UInt64.le_iff_toNat_le] at h ⊢
  unfold Hlc.latest_ms
  rw [UInt64.toNat_shiftRight, UInt64.toNat_shiftRight, Nat.shiftRight_eq_div_pow,
    Nat.shiftRight_eq_div_pow]
  exact Nat.div_le_div_right h

theorem physical_ms_mono {c d : Hlc} {wall_ms wall_ms' : UInt64} (h : c.last ≤ d.last)
    (hwall : wall_ms ≤ wall_ms') : c.physical_ms wall_ms ≤ d.physical_ms wall_ms' := by
  have hlatest := UInt64.le_iff_toNat_le.mp (latest_ms_mono h)
  unfold Hlc.latest_ms at hlatest
  rw [UInt64.le_iff_toNat_le] at hwall ⊢
  unfold Hlc.physical_ms
  rw [toNat_max, toNat_max, toNat_min, toNat_min]
  omega

theorem self_le_larger {a b : UInt64} : a ≤ max a b := by
  rw [UInt64.le_iff_toNat_le, toNat_max]
  omega

theorem other_le_larger {a b : UInt64} : b ≤ max a b := by
  rw [UInt64.le_iff_toNat_le, toNat_max]
  omega

theorem observe_ok {c d : Hlc} {seen : Stamp} {wall_ms : UInt64}
    (h : c.observe seen wall_ms = .ok d) : d = { c with last := max c.last seen.time } := by
  unfold Hlc.observe at h
  dsimp only at h
  split at h
  · cases h
  · cases h
    rfl

/-- What a turn does: it moves the clock on, past what it gives and over what it accepts. -/
structure Turn.Fine (t : Turn) : Prop where
  forward : t.before.last ≤ t.after.last
  given : ∀ stamp, t.answer = .Given stamp → t.before.last < stamp.time ∧ stamp.time = t.after.last
  accepted : ∀ seen wall_ms, t.call = .Observe seen wall_ms → t.answer = .Accepted →
    seen.time ≤ t.after.last
  refused : ∀ why, t.answer = .Refused why → t.after = t.before
  wall : ∀ wall_ms stamp, t.call = .Now wall_ms → t.answer = .Given stamp →
    min wall_ms MAX_MS ≤ stamp.ms

theorem fine_call (c : Hlc) (call : Call)
    (h : ∀ wall_ms, call = .Now wall_ms → c.last ≠ U64_MAX) :
    Turn.Fine { before := c, call, answer := (c.call call).1, after := (c.call call).2 } := by
  cases call with
  | Now wall_ms =>
    obtain ⟨hafter, hlast, -⟩ := now_after (n := 0) wall_ms (room_of_unsaturated (h wall_ms rfl))
      (by omega)
    refine ⟨?_, ?_, ?_, ?_, ?_⟩
    · show c.last ≤ (c.now wall_ms).2.last
      rw [hlast]
      exact UInt64.le_of_lt hafter
    · intro stamp hstamp
      rw [← Answer.Given.inj hstamp]
      exact ⟨hafter, hlast.symm⟩
    · intro seen wall hcall
      exact absurd hcall (by simp)
    · intro why hwhy
      exact absurd hwhy (by simp [Hlc.call])
    · intro wall stamp hcall hstamp
      rw [← Call.Now.inj hcall, ← Answer.Given.inj hstamp]
      exact now_ms c wall_ms
  | Observe seen wall_ms =>
    cases hobserve : c.observe seen wall_ms with
    | error why =>
      simp only [Hlc.call, hobserve]
      exact ⟨UInt64.le_refl _, by simp, by simp, by simp, by simp⟩
    | ok d =>
      simp only [Hlc.call, hobserve, observe_ok hobserve]
      refine ⟨self_le_larger, by simp, ?_, by simp, by simp⟩
      intro seen' wall hcall _
      rw [← (Call.Observe.inj hcall).1]
      exact other_le_larger

/-! ## Runs -/

/-- What the clock held at the start of a run is not after what its turns hold. -/
theorem turns_from {c : Hlc} {calls : List Call} (h : ∀ t ∈ c.turns calls, t.Unsaturated) :
    ∀ t ∈ c.turns calls, t.Fine ∧ c.last ≤ t.before.last := by
  induction calls generalizing c with
  | nil =>
    intro t ht
    cases ht
  | cons call rest ih =>
    have hfirst := fine_call c call (h _ List.mem_cons_self)
    have hrest := ih (fun t ht => h t (List.mem_cons_of_mem _ ht))
    intro t ht
    rcases List.mem_cons.mp ht with rfl | ht
    · exact ⟨hfirst, UInt64.le_refl _⟩
    · obtain ⟨hfine, hle⟩ := hrest t ht
      exact ⟨hfine, UInt64.le_trans hfirst.forward hle⟩

/-- Of two turns the later one starts where the earlier one left the clock, or past that. -/
theorem turns_follow {c : Hlc} {calls : List Call} (h : ∀ t ∈ c.turns calls, t.Unsaturated) :
    (c.turns calls).Pairwise (fun t u => t.after.last ≤ u.before.last) := by
  induction calls generalizing c with
  | nil => exact List.Pairwise.nil
  | cons call rest ih =>
    have hrest : ∀ t ∈ (c.call call).2.turns rest, t.Unsaturated :=
      fun t ht => h t (List.mem_cons_of_mem _ ht)
    refine List.Pairwise.cons ?_ (ih hrest)
    intro u hu
    exact (turns_from hrest u hu).2

/-- Over every run in which no stamp saturates: stamps rise, each is after every stamp that was
accepted before it and not behind the wall clock that it was given; a refusal changes nothing;
and the physical part never goes back. -/
theorem the_clock_only_goes_forward (c : Hlc) (calls : List Call)
    (h : ∀ t ∈ c.turns calls, t.Unsaturated) :
    (c.turns calls).Pairwise (fun t u =>
      (∀ a b, t.answer = .Given a → u.answer = .Given b → a < b) ∧
      (∀ seen wall_ms b, t.call = .Observe seen wall_ms → t.answer = .Accepted →
        u.answer = .Given b → seen < b) ∧
      t.after.latest_ms ≤ u.after.latest_ms ∧
      ∀ wall_ms wall_ms', wall_ms ≤ wall_ms' →
        t.after.physical_ms wall_ms ≤ u.after.physical_ms wall_ms') ∧
    ∀ t ∈ c.turns calls,
      (∀ wall_ms stamp, t.call = .Now wall_ms → t.answer = .Given stamp →
        min wall_ms MAX_MS ≤ stamp.ms) ∧
      (∀ why, t.answer = .Refused why → t.after = t.before) ∧
      t.before.latest_ms ≤ t.after.latest_ms := by
  have hfine := turns_from h
  constructor
  · apply (turns_follow h).imp_of_mem
    intro t u ht hu hle
    obtain ⟨htfine, -⟩ := hfine t ht
    obtain ⟨hufine, -⟩ := hfine u hu
    have hafter := UInt64.le_trans hle hufine.forward
    refine ⟨?_, ?_, latest_ms_mono hafter, fun _ _ hwall => physical_ms_mono hafter hwall⟩
    · intro a b ha hb
      apply stamp_lt
      rw [(htfine.given a ha).2]
      exact UInt64.lt_of_le_of_lt hle (hufine.given b hb).1
    · intro seen wall_ms b hcall haccepted hb
      apply stamp_lt
      apply UInt64.lt_of_le_of_lt (htfine.accepted seen wall_ms hcall haccepted)
      exact UInt64.lt_of_le_of_lt hle (hufine.given b hb).1
  · intro t ht
    obtain ⟨htfine, -⟩ := hfine t ht
    exact ⟨htfine.wall, htfine.refused, latest_ms_mono htfine.forward⟩

/-- A clock that accepted a stamp ahead of its wall clock, and refused one too far ahead. -/
theorem a_clock_goes_past_an_accepted_stamp :
    (∀ t ∈ (Hlc.mk 0 7).turns
      [.Observe ⟨1966080007, 9⟩ 0, .Observe ⟨39321600000000, 9⟩ 0, .Now 0], t.Unsaturated) ∧
    ((Hlc.mk 0 7).turns
      [.Observe ⟨1966080007, 9⟩ 0, .Observe ⟨39321600000000, 9⟩ 0, .Now 0]).Pairwise (fun t u =>
        ∀ seen wall_ms b, t.call = .Observe seen wall_ms → t.answer = .Accepted →
          u.answer = .Given b → seen < b) := by
  have hun : ∀ t ∈ (Hlc.mk 0 7).turns
      [.Observe ⟨1966080007, 9⟩ 0, .Observe ⟨39321600000000, 9⟩ 0, .Now 0],
      t.Unsaturated := by decide
  exact ⟨hun, (the_clock_only_goes_forward _ _ hun).1.imp fun h => h.2.1⟩

end mqtt_rules
