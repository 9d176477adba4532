-- The broker's own `$SYS` tree (`mqtt-core/src/lib.rs`): which topics are reserved, and
-- the tests that a filter, or whatever follows a piece of text, selects reserved topics
-- only.
import MqttBroker.Core.FilterTopics

namespace mqtt_core

/-! ## The tests -/

/-- The one pattern in `$SYS/` that is not reserved. -/
def BRIDGE_STATE : String := "$SYS/broker/connection/+/state"

/-- The text goes on from `$SYS/`. -/
def below_sys (s : String) : Bool := "$SYS/".toList.isPrefixOf s.toList

def in_sys (topic : String) : Bool := topic == "$SYS" || below_sys topic

def is_reserved_topic (topic : String) : Bool :=
  in_sys topic && !topic_matches BRIDGE_STATE topic

def is_reserved_filter (filter : String) : Bool :=
  in_sys filter && !filters_overlap filter BRIDGE_STATE

/-- The loop of `continues_into`: the last of the given levels may go on. -/
def level_continues : List String → List String → Bool
  | _, [] => true
  | [], _ :: _ => false
  | f :: fs, level :: given =>
    if f = "#" then true
    else if f = "+" then level_continues fs given
    else if given.isEmpty then level.toList.isPrefixOf f.toList
    else if f = level then level_continues fs given
    else false

/-- Whether some topic that starts with a text matches the filter. -/
def continues_into (filter given : String) : Bool :=
  level_continues (split filter) (split given)

def is_reserved_prefix (start : String) : Bool :=
  below_sys start && !continues_into BRIDGE_STATE start

/-! ## The levels of a text that goes on -/

/-- The last piece of the first list goes on with the first piece of the second. -/
def glue {α : Type} [Append α] : List α → List α → List α
  | [l], h :: t => (l ++ h) :: t
  | l :: ls, t => l :: glue ls t
  | [], t => t

theorem splitOn_glue (xs ys : List Char) :
    (xs ++ ys).splitOn '/' = glue (xs.splitOn '/') (ys.splitOn '/') := by
  rcases hy : ys.splitOn '/' with _ | ⟨h, t⟩
  · exact absurd hy (List.splitOn_ne_nil _ ys)
  induction xs with
  | nil => simp [glue, hy]
  | cons x xs ih =>
    rw [List.cons_append, List.splitOn_cons_eq_if_modifyHead, List.splitOn_cons_eq_if_modifyHead, ih]
    rcases hx : xs.splitOn '/' with _ | ⟨a, _ | ⟨b, as⟩⟩
    · exact absurd hx (List.splitOn_ne_nil _ xs)
    · split <;> simp [glue]
    · split <;> simp [glue]

theorem map_glue (as bs : List (List Char)) :
    (glue as bs).map String.ofList = glue (as.map String.ofList) (bs.map String.ofList) := by
  induction as with
  | nil => simp [glue]
  | cons a as ih =>
    cases as with
    | nil => cases bs <;> simp [glue]
    | cons b as => simpa [glue] using ih

theorem split_append (s t : String) : split (s ++ t) = glue (split s) (split t) := by
  unfold split
  rw [String.toList_append, splitOn_glue, map_glue]

variable {fs given : List String}

theorem level_continues_of_matches {more : List String} (hmore : more ≠ [])
    (h : level_matches fs (glue given more) = true) : level_continues fs given = true := by
  induction given generalizing fs with
  | nil => cases fs <;> rfl
  | cons level given ih =>
    obtain ⟨m, ms, rfl⟩ := List.exists_cons_of_ne_nil hmore
    cases fs with
    | nil => cases given <;> simp [glue, level_matches] at h
    | cons f fs =>
      by_cases hhash : f = "#"
      · simp [level_continues, hhash]
      · cases given with
        | nil =>
          by_cases hplus : f = "+"
          · cases fs <;> simp [level_continues, hplus]
          · have hf : f = level ++ m := by
              by_contra hne
              simp [glue, level_matches, hhash, hplus, hne] at h
            simp [level_continues, hf]
        | cons l given =>
          simp only [glue, level_matches, hhash, if_false] at h
          split at h
          · next hlevel =>
            have hrest := ih h
            rcases hlevel with hplus | heq
            · simp [level_continues, hplus, hrest]
            · simp [level_continues, heq, hrest]
          · cases h

theorem exists_more_of_continues (hfs : ∀ l ∈ fs, FilterLevel l) (hgiven : given ≠ [])
    (h : level_continues fs given = true) :
    ∃ more, more ≠ [] ∧ (∀ l ∈ more, Plain l) ∧ level_matches fs (glue given more) = true := by
  induction given generalizing fs with
  | nil => exact absurd rfl hgiven
  | cons level given ih =>
    cases fs with
    | nil => cases h
    | cons f fs =>
      have hrest : ∀ l ∈ fs, FilterLevel l := fun l hl => hfs l (by simp [hl])
      by_cases hhash : f = "#"
      · refine ⟨[""], by simp, by simp [Plain], ?_⟩
        rw [hhash]
        exact level_matches_hash _ _
      · cases given with
        | nil =>
          by_cases hplus : f = "+"
          · refine ⟨"" :: fs.map fill, by simp, ?_, ?_⟩
            · rw [List.forall_mem_cons]
              exact ⟨by simp [Plain], plain_map_fill hrest⟩
            · simp [glue, level_matches, hplus, level_matches_fill]
          · -- the rest of the filter's own level completes the last one
            obtain ⟨tail, htail⟩ : level.toList <+: f.toList := by
              simpa [level_continues, hhash, hplus] using h
            have hf : level ++ String.ofList tail = f := by
              rw [← String.toList_inj]
              simpa using htail
            refine ⟨String.ofList tail :: fs.map fill, by simp, ?_, ?_⟩
            · rw [List.forall_mem_cons]
              refine ⟨?_, plain_map_fill hrest⟩
              intro c hc
              refine (hfs f (by simp)).plain hplus hhash c ?_
              rw [← htail]
              exact List.mem_append_right _ (by simpa using hc)
            · simp [glue, level_matches, hf, level_matches_fill]
        | cons l given =>
          simp only [level_continues, hhash, List.isEmpty_cons, Bool.false_eq_true, if_false] at h
          split at h
          · next hplus =>
            obtain ⟨more, hne, hplain, hmatches⟩ := ih hrest (by simp) h
            exact ⟨more, hne, hplain, by simp [glue, level_matches, hplus, hmatches]⟩
          · split at h
            · next heq =>
              obtain ⟨more, hne, hplain, hmatches⟩ := ih hrest (by simp) h
              exact ⟨more, hne, hplain, by simp [glue, level_matches, heq, hmatches]⟩
            · cases h

/-! ## The reserved tree by its levels -/

theorem below_sys_split {s : String} (h : below_sys s = true) :
    ∃ rest, s.toList = "$SYS".toList ++ '/' :: rest := by
  obtain ⟨rest, hrest⟩ := List.isPrefixOf_iff_prefix.mp h
  exact ⟨rest, by rw [← hrest]; rfl⟩

theorem in_sys_iff (topic : String) :
    in_sys topic = true ↔ ∃ rest, split topic = "$SYS" :: rest := by
  have hslash : '/' ∉ "$SYS".toList := by decide
  constructor
  · intro h
    rcases Bool.or_eq_true _ _ ▸ h with h | h
    · rw [beq_iff_eq] at h
      exact ⟨[], by rw [h]; decide⟩
    · obtain ⟨rest, hrest⟩ := below_sys_split h
      unfold split
      rw [hrest, List.splitOn_append_cons_self_of_not_mem hslash]
      exact ⟨_, rfl⟩
  · rintro ⟨rest, h⟩
    cases rest with
    | nil =>
      rw [eq_join h]
      decide
    | cons l ls =>
      have hchars : topic.toList = "$SYS/".toList ++ ['/'].intercalate ((l :: ls).map String.toList) := by
        rw [eq_join h]
        simp [join, List.intercalate_cons_cons]
      simp only [in_sys, below_sys, Bool.or_eq_true]
      right
      rw [hchars]
      exact List.isPrefixOf_iff_prefix.mpr (List.prefix_append _ _)

variable {filter topic : String}

theorem in_sys_of_matches (h : topic_matches filter topic = true) :
    in_sys topic = in_sys filter := by
  have hdollar : ∀ s, in_sys s = true → s.toList.head? = some '$' := by
    intro s hs
    obtain ⟨rest, hrest⟩ := (in_sys_iff s).mp hs
    exact (head_of_split s '$' (by decide)).mpr ⟨_, _, hrest, rfl⟩
  have hsame : in_sys filter = true ∨ in_sys topic = true →
      (in_sys topic = true ↔ in_sys filter = true) := by
    intro hor
    obtain ⟨level, fs, ts, hf, ht⟩ :=
      first_level_of_matches h (hor.imp (hdollar filter) (hdollar topic))
    rw [in_sys_iff, in_sys_iff, hf, ht]
    simp
  rw [Bool.eq_iff_iff]
  exact ⟨fun ht => (hsame (.inr ht)).mp ht, fun hf => (hsame (.inl hf)).mpr hf⟩

/-! ## The tests are exact -/

theorem level_overlaps_self (levels : List String) : level_overlaps levels levels = true := by
  induction levels with
  | nil => rfl
  | cons l ls ih =>
    by_cases hhash : l = "#"
    · simp [level_overlaps, hhash]
    · simp [level_overlaps, hhash, ih]

theorem exists_topic (h : valid_filter filter = true) :
    ∃ topic, valid_topic_name topic = true ∧ topic_matches filter topic = true := by
  have hdis : dollar_disjoint filter filter = false := by
    by_cases hd : filter.toList.head? = some '$'
    · simp [dollar_disjoint, starts_wild, hd]
    · simp [dollar_disjoint, hd]
  have hover : filters_overlap filter filter = true := by
    simp [filters_overlap, hdis, level_overlaps_self]
  have hmeet : ¬ MeetAtEmpty filter filter := by
    rintro (⟨rfl, h⟩ | ⟨rfl, h⟩) <;> exact absurd h (by decide)
  obtain ⟨topic, hvalid, hmatches, -⟩ := exists_common_topic h h hover hmeet
  exact ⟨topic, hvalid, hmatches⟩

theorem is_reserved_topic_iff : is_reserved_topic topic = true ↔
    in_sys topic = true ∧ topic_matches BRIDGE_STATE topic = false := by
  simp [is_reserved_topic]

theorem reserved_of_filter (h : is_reserved_filter filter = true)
    (ht : topic_matches filter topic = true) : is_reserved_topic topic = true := by
  simp only [is_reserved_filter, Bool.and_eq_true, Bool.not_eq_true'] at h
  rw [is_reserved_topic_iff, in_sys_of_matches ht]
  refine ⟨h.1, ?_⟩
  by_contra hstate
  rw [Bool.not_eq_false] at hstate
  rw [filters_overlap_of_matches ht hstate] at h
  cases h.2

theorem exists_free_of_filter (hv : valid_filter filter = true)
    (h : is_reserved_filter filter = false) : ∃ topic, valid_topic_name topic = true ∧
      topic_matches filter topic = true ∧ is_reserved_topic topic = false := by
  cases hsys : in_sys filter with
  | false =>
    obtain ⟨topic, hvalid, ht⟩ := exists_topic hv
    exact ⟨topic, hvalid, ht, by simp [is_reserved_topic, in_sys_of_matches ht, hsys]⟩
  | true =>
    have hover : filters_overlap filter BRIDGE_STATE = true := by
      simpa [is_reserved_filter, hsys] using h
    have hmeet : ¬ MeetAtEmpty filter BRIDGE_STATE := by
      rintro (⟨-, h⟩ | ⟨-, h⟩) <;> exact absurd h (by decide)
    obtain ⟨topic, hvalid, ht, hstate⟩ := exists_common_topic hv (by decide) hover hmeet
    exact ⟨topic, hvalid, ht, by simp [is_reserved_topic, hstate]⟩

variable {start : String}

theorem reserved_below (h : is_reserved_prefix start = true) (s : String) :
    is_reserved_topic (start ++ s) = true := by
  simp only [Bool.and_eq_true, Bool.not_eq_true', is_reserved_prefix] at h
  obtain ⟨hsys, hcontinues⟩ := h
  rw [is_reserved_topic_iff]
  constructor
  · obtain ⟨rest, hrest⟩ := List.isPrefixOf_iff_prefix.mp hsys
    simp only [in_sys, below_sys, Bool.or_eq_true]
    right
    rw [List.isPrefixOf_iff_prefix, String.toList_append, ← hrest, List.append_assoc]
    exact List.prefix_append _ _
  · by_contra hstate
    rw [Bool.not_eq_false] at hstate
    have hlevels := (topic_matches_levels hstate).2
    rw [split_append] at hlevels
    rw [continues_into, level_continues_of_matches (split_ne_nil s) hlevels] at hcontinues
    cases hcontinues

theorem not_in_sys_append (h : below_sys start = false) : in_sys (start ++ "x") = false := by
  by_contra hsys
  rw [Bool.not_eq_false] at hsys
  simp only [in_sys, below_sys, Bool.or_eq_true, beq_iff_eq, List.isPrefixOf_iff_prefix] at hsys
  have hlast : (start ++ "x").toList.getLast? = some 'x' := by simp
  rcases hsys with hsys | hsys
  · rw [hsys] at hlast
    exact absurd hlast (by decide)
  · rw [String.toList_append, show "x".toList = ['x'] by decide, List.prefix_concat_iff] at hsys
    rcases hsys with hsys | hsys
    · rw [String.toList_append, show "x".toList = ['x'] by decide, ← hsys] at hlast
      exact absurd hlast (by decide)
    · rw [below_sys, List.isPrefixOf_iff_prefix.mpr hsys] at h
      cases h

theorem exists_free_below (h : is_reserved_prefix start = false) :
    ∃ s : String, (∀ c ∈ s.toList, nameChar c) ∧ start ++ s ≠ "" ∧
      is_reserved_topic (start ++ s) = false := by
  cases hsys : below_sys start with
  | false =>
    refine ⟨"x", by simp [nameChar], by simp, ?_⟩
    simp [is_reserved_topic, not_in_sys_append hsys]
  | true =>
    have hcontinues : continues_into BRIDGE_STATE start = true := by
      simpa [hsys, is_reserved_prefix] using h
    obtain ⟨more, hne, hplain, hmatches⟩ := exists_more_of_continues
      (filterLevel_of_valid (by decide)) (split_ne_nil start) hcontinues
    refine ⟨join more, nameChar_join hplain, ?_, ?_⟩
    · intro hempty
      rw [String.append_eq_empty_iff.mp hempty |>.1] at hsys
      cases hsys
    · have hlevels : level_matches (split BRIDGE_STATE) (split (start ++ join more)) = true := by
        rw [split_append, split_join hne (fun l hl => (hplain l hl).no_slash)]
        exact hmatches
      have hstate : topic_matches BRIDGE_STATE (start ++ join more) = true :=
        topic_matches_of_levels (by simp [dollar_disjoint, starts_wild, BRIDGE_STATE]) hlevels
      simp [is_reserved_topic, hstate]

/-- A filter is reserved when it selects reserved topics only, a text when whatever follows it
makes a reserved topic. Both hold as well with well-formed topic names alone, for a text that
can start one. -/
theorem reserved_tests_are_exact :
    (∀ filter, valid_filter filter = true →
      (is_reserved_filter filter = true ↔
        ∀ topic, topic_matches filter topic = true → is_reserved_topic topic = true) ∧
      (is_reserved_filter filter = true ↔ ∀ topic, valid_topic_name topic = true →
        topic_matches filter topic = true → is_reserved_topic topic = true)) ∧
    ∀ start : String,
      (mqtt_core.is_reserved_prefix start = true ↔ ∀ s, is_reserved_topic (start ++ s) = true) ∧
      ((∀ c ∈ start.toList, nameChar c) → (mqtt_core.is_reserved_prefix start = true ↔
        ∀ s, valid_topic_name (start ++ s) = true → is_reserved_topic (start ++ s) = true)) := by
  refine ⟨?_, ?_⟩
  · intro filter hv
    have hfree : (∀ topic, valid_topic_name topic = true → topic_matches filter topic = true →
        is_reserved_topic topic = true) → is_reserved_filter filter = true := by
      intro hall
      by_contra hnot
      obtain ⟨topic, hvalid, ht, hno⟩ := exists_free_of_filter hv (by simpa using hnot)
      rw [hall topic hvalid ht] at hno
      cases hno
    exact ⟨⟨fun h topic => reserved_of_filter h, fun hall => hfree fun topic _ => hall topic⟩,
      ⟨fun h topic _ => reserved_of_filter h, hfree⟩⟩
  · intro start
    refine ⟨⟨reserved_below, ?_⟩, ?_⟩
    · intro hall
      by_contra hnot
      obtain ⟨s, -, -, hno⟩ := exists_free_below (Bool.not_eq_true _ ▸ hnot)
      rw [hall s] at hno
      cases hno
    · intro hchars
      refine ⟨fun h s _ => reserved_below h s, ?_⟩
      intro hall
      by_contra hnot
      obtain ⟨s, hs, hne, hno⟩ := exists_free_below (Bool.not_eq_true _ ▸ hnot)
      have hvalid : valid_topic_name (start ++ s) = true := by
        rw [valid_topic_name_iff, String.toList_append]
        exact ⟨hne, fun c hc => (List.mem_append.mp hc).elim (hchars c) (hs c)⟩
      rw [hall s hvalid] at hno
      cases hno

theorem brokers_tree_is_reserved :
    is_reserved_filter "$SYS/brokers/#" = true ∧ is_reserved_topic "$SYS/brokers/n1" = true ∧
      is_reserved_prefix "$SYS/b" = false ∧ ∃ s, is_reserved_topic ("$SYS/b" ++ s) = false := by
  have hfilter : is_reserved_filter "$SYS/brokers/#" = true := by decide
  have hprefix : is_reserved_prefix "$SYS/b" = false := by decide
  refine ⟨hfilter, ?_, hprefix, ?_⟩
  · exact (reserved_tests_are_exact.1 "$SYS/brokers/#" (by decide)).1.mp hfilter
      "$SYS/brokers/n1" (by decide)
  · by_contra hall
    simp only [not_exists, Bool.not_eq_false] at hall
    rw [(reserved_tests_are_exact.2 "$SYS/b").1.mpr hall] at hprefix
    cases hprefix

end mqtt_core
