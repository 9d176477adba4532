-- Topic names and topic filters (`mqtt-core/src/lib.rs`): their levels, which
-- of them are well formed, and when a filter selects a topic.
import Mathlib.Data.String.Basic
import Mathlib.Data.List.Basic

namespace mqtt_core

abbrev FilterKey := String
abbrev ClientId := String

inductive QoS
  | AtMostOnce
  | AtLeastOnce
  | ExactlyOnce
  deriving DecidableEq, Repr

def QoS.from_u8 (value : UInt8) : Option QoS :=
  if value = 0 then some .AtMostOnce
  else if value = 1 then some .AtLeastOnce
  else if value = 2 then some .ExactlyOnce
  else none

/-- The levels of a filter or a topic, as `split('/')`. -/
def split (s : String) : List String := (s.toList.splitOn '/').map String.ofList

/-! ## Well-formed names -/

/-- The loop of `valid_filter`: a wildcard is a whole level, and `#` the last one. -/
def valid_levels : List String → Bool
  | [] => true
  | level :: rest =>
    if level.toList.contains '#' && (level != "#" || !rest.isEmpty) then false
    else if level.toList.contains '+' && level != "+" then false
    else valid_levels rest

def valid_filter (filter : String) : Bool :=
  if filter.isEmpty || filter.toList.contains '\x00' then false
  else valid_levels (split filter)

def valid_topic_name (topic : String) : Bool :=
  !topic.isEmpty && !topic.toList.any (fun c => c == '+' || c == '#' || c == '\x00')

/-! ## Matching -/

/-- The loop of `topic_matches`. -/
def level_matches : List String → List String → Bool
  | f :: fs, t :: ts =>
    if f = "#" then true
    else if f = "+" ∨ f = t then level_matches fs ts
    else false
  | f :: _, [] => f == "#"
  | [], [] => true
  | [], _ :: _ => false

/-- Whether a filter that may hold wildcards selects a topic. -/
def topic_matches (filter topic : String) : Bool :=
  if topic.toList.head? == some '$' &&
      (filter.toList.head? == some '+' || filter.toList.head? == some '#') then false
  else level_matches (split filter) (split topic)

/-! ## The levels -/

theorem split_ne_nil (s : String) : split s ≠ [] := by
  simp [split]

/-- A filter is told by its levels. -/
theorem split_inj {s t : String} (h : split s = split t) : s = t := by
  have hlist : s.toList.splitOn '/' = t.toList.splitOn '/' := by
    apply List.map_injective_iff.mpr _ h
    intro a b hab
    exact String.ofList_injective hab
  have hjoin : ['/'].intercalate (s.toList.splitOn '/') = s.toList := List.intercalate_splitOn '/'
  rw [hlist, List.intercalate_splitOn] at hjoin
  exact String.toList_inj.mp hjoin.symm

theorem split_injective : Function.Injective split := fun _ _ h => split_inj h

theorem mem_of_mem_splitOn {xs : List Char} {a c : Char} {piece : List Char}
    (hp : piece ∈ xs.splitOn a) (hc : c ∈ piece) : c ∈ xs := by
  induction xs generalizing piece with
  | nil =>
    simp at hp
    subst hp
    exact hc
  | cons x xs ih =>
    rw [List.splitOn_cons_eq_if_modifyHead] at hp
    split at hp
    · rcases List.mem_cons.mp hp with rfl | hp
      · cases hc
      · exact List.mem_cons_of_mem _ (ih hp hc)
    · rcases hs : xs.splitOn a with _ | ⟨first, rest⟩
      · exact absurd hs (List.splitOn_ne_nil a xs)
      · rw [hs, List.modifyHead_cons] at hp
        rw [hs] at ih
        rcases List.mem_cons.mp hp with rfl | hp
        · rcases List.mem_cons.mp hc with rfl | hc
          · exact List.mem_cons_self
          · exact List.mem_cons_of_mem _ (ih List.mem_cons_self hc)
        · exact List.mem_cons_of_mem _ (ih (List.mem_cons_of_mem _ hp) hc)

theorem level_of_valid_topic {topic level : String} (h : valid_topic_name topic = true)
    (hl : level ∈ split topic) : level ≠ "+" ∧ level ≠ "#" := by
  unfold split at hl
  rw [List.mem_map] at hl
  obtain ⟨piece, hpiece, rfl⟩ := hl
  unfold valid_topic_name at h
  rw [Bool.and_eq_true, Bool.not_eq_true', Bool.not_eq_true', List.any_eq_false] at h
  have hnone : ∀ c ∈ piece, c ≠ '+' ∧ c ≠ '#' := by
    intro c hc
    have := h.2 c (mem_of_mem_splitOn hpiece hc)
    simp only [Bool.or_eq_true, beq_iff_eq, not_or] at this
    exact ⟨this.1.1, this.1.2⟩
  constructor
  · intro heq
    have : piece = ['+'] := by simpa using congrArg String.toList heq
    rw [this] at hnone
    exact (hnone '+' List.mem_cons_self).1 rfl
  · intro heq
    have : piece = ['#'] := by simpa using congrArg String.toList heq
    rw [this] at hnone
    exact (hnone '#' List.mem_cons_self).2 rfl

theorem valid_levels_cons {level : String} {rest : List String}
    (h : valid_levels (level :: rest) = true) :
    valid_levels rest = true ∧ ('#' ∈ level.toList → level = "#" ∧ rest = []) ∧
      ('+' ∈ level.toList → level = "+") := by
  unfold valid_levels at h
  split at h
  · cases h
  · rename_i h1
    split at h
    · cases h
    · rename_i h2
      refine ⟨h, ?_, ?_⟩
      · intro hmem
        rw [List.contains_iff_mem.mpr hmem] at h1
        simpa using h1
      · intro hmem
        rw [List.contains_iff_mem.mpr hmem] at h2
        simpa using h2

/-- The first level has the first character of a filter that starts with one. -/
theorem head_of_split (s : String) (c : Char) (hc : c ≠ '/') :
    s.toList.head? = some c ↔ ∃ level rest, split s = level :: rest ∧ level.toList.head? = some c := by
  unfold split
  rcases hs : s.toList with _ | ⟨x, xs⟩
  · simp
  · rw [List.splitOn_cons_eq_if_modifyHead]
    by_cases hx : x = '/'
    · subst hx
      simp [Ne.symm hc]
    · rcases hxs : xs.splitOn '/' with _ | ⟨first, rest⟩
      · exact absurd hxs (List.splitOn_ne_nil _ xs)
      · simp [hx]

def wildFirst : List String → Bool
  | level :: _ => level == "+" || level == "#"
  | [] => false

theorem valid_filter_levels {filter : String} (h : valid_filter filter = true) :
    valid_levels (split filter) = true := by
  unfold valid_filter at h
  split at h
  · cases h
  · exact h

theorem starts_wild_iff {filter : String} (h : valid_filter filter = true) :
    (filter.toList.head? == some '+' || filter.toList.head? == some '#') =
      wildFirst (split filter) := by
  have hlevels := valid_filter_levels h
  rw [Bool.eq_iff_iff, Bool.or_eq_true, beq_iff_eq, beq_iff_eq,
    head_of_split filter '+' (by decide), head_of_split filter '#' (by decide)]
  rcases hs : split filter with _ | ⟨level, rest⟩
  · exact absurd hs (split_ne_nil filter)
  · rw [hs] at hlevels
    obtain ⟨-, hhash, hplus⟩ := valid_levels_cons hlevels
    simp only [List.cons.injEq, wildFirst, Bool.or_eq_true, beq_iff_eq]
    constructor
    · rintro (⟨_, _, ⟨rfl, rfl⟩, hc⟩ | ⟨_, _, ⟨rfl, rfl⟩, hc⟩)
      · exact Or.inl (hplus (List.mem_of_head? hc))
      · exact Or.inr (hhash (List.mem_of_head? hc)).1
    · rintro (rfl | rfl)
      · exact Or.inl ⟨_, _, ⟨rfl, rfl⟩, rfl⟩
      · exact Or.inr ⟨_, _, ⟨rfl, rfl⟩, rfl⟩

theorem topic_matches_iff {filter : String} (h : valid_filter filter = true) (topic : String) :
    topic_matches filter topic = true ↔
      ¬ (topic.toList.head? = some '$' ∧ wildFirst (split filter) = true) ∧
        level_matches (split filter) (split topic) = true := by
  unfold topic_matches
  rw [starts_wild_iff h]
  by_cases hdollar : topic.toList.head? = some '$'
  · by_cases hwild : wildFirst (split filter) = true
    · simp [hdollar, hwild]
    · simp [hwild]
  · simp [hdollar]

end mqtt_core
