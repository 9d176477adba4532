-- The topics of a filter (`mqtt-core/src/lib.rs`): two filters that overlap have a
-- topic name in common, read off their levels. Only `+` and `/#` overlap without one:
-- what both select is the empty name.
import MqttBroker.Core.FilterCover

namespace mqtt_core

/-! ## Names out of levels -/

def join (levels : List String) : String :=
  String.ofList (['/'].intercalate (levels.map String.toList))

/-- The characters can stand in one level of a topic name. -/
def Plain (level : String) : Prop := ∀ c ∈ level.toList, c ∉ ['/', '+', '#', '\x00']

theorem Plain.no_slash {l : String} (h : Plain l) : '/' ∉ l.toList := fun hc => h _ hc (by simp)

variable {levels : List String}

theorem split_join (hne : levels ≠ []) (h : ∀ l ∈ levels, '/' ∉ l.toList) :
    split (join levels) = levels := by
  unfold split join
  rw [String.toList_ofList, List.splitOn_intercalate '/' (by simpa using h) (by simpa using hne)]
  simp

theorem join_split (s : String) : join (split s) = s := by
  simp [join, split]

theorem mem_intercalate {sep c : Char} {pieces : List (List Char)}
    (h : c ∈ [sep].intercalate pieces) : c = sep ∨ ∃ piece ∈ pieces, c ∈ piece := by
  induction pieces with
  | nil => simp at h
  | cons p ps ih =>
    cases ps with
    | nil => exact .inr ⟨p, by simp, by simpa using h⟩
    | cons q qs =>
      rw [List.intercalate_cons_cons, List.append_assoc, List.mem_append] at h
      rcases h with h | h
      · exact .inr ⟨p, by simp, h⟩
      · rcases List.mem_cons.mp h with h | h
        · exact .inl h
        · rcases ih h with h | ⟨piece, hp, hc⟩
          · exact .inl h
          · exact .inr ⟨piece, List.mem_cons_of_mem _ hp, hc⟩

def nameChar (c : Char) : Prop := c ∉ ['+', '#', '\x00']

variable {topic : String}

theorem valid_topic_name_iff :
    valid_topic_name topic = true ↔ topic ≠ "" ∧ ∀ c ∈ topic.toList, nameChar c := by
  simp [valid_topic_name, nameChar, and_assoc]

theorem nameChar_join (h : ∀ l ∈ levels, Plain l) : ∀ c ∈ (join levels).toList, nameChar c := by
  intro c hc
  have hc : c ∈ ['/'].intercalate (levels.map String.toList) := by simpa [join] using hc
  rcases mem_intercalate hc with rfl | ⟨piece, hp, hcp⟩
  · simp [nameChar]
  · obtain ⟨l, hl, rfl⟩ := List.mem_map.mp hp
    exact fun hbad => h l hl c hcp (List.mem_cons_of_mem _ hbad)

/-! ## A topic of two filters -/

def fill (level : String) : String := if level = "#" ∨ level = "+" then "x" else level

/-- Levels that two lists of levels select, where they overlap. -/
def common : List String → List String → List String
  | a :: as, b :: bs =>
    if a = "#" then (b :: bs).map fill
    else if b = "#" then (a :: as).map fill
    else (if a = "+" then fill b else a) :: common as bs
  | _, _ => []

theorem level_matches_fill (levels : List String) :
    level_matches levels (levels.map fill) = true := by
  induction levels with
  | nil => rfl
  | cons l ls ih =>
    by_cases hhash : l = "#"
    · simp [level_matches, hhash]
    · by_cases hplus : l = "+"
      · simp [level_matches, hplus, ih]
      · simp [level_matches, fill, hhash, hplus, ih]

theorem level_matches_hash (rest topic : List String) :
    level_matches ("#" :: rest) topic = true := by
  cases topic <;> simp [level_matches]

variable {as bs : List String}

theorem level_matches_common (h : level_overlaps as bs = true) :
    level_matches as (common as bs) = true ∧ level_matches bs (common as bs) = true := by
  induction as generalizing bs with
  | nil =>
    cases bs with
    | nil => exact ⟨rfl, rfl⟩
    | cons b bs => exact ⟨rfl, by simpa [level_overlaps, common, level_matches] using h⟩
  | cons a as ih =>
    cases bs with
    | nil => exact ⟨by simpa [level_overlaps, common, level_matches] using h, rfl⟩
    | cons b bs =>
      unfold common
      by_cases ha : a = "#"
      · rw [if_pos ha, ha]
        exact ⟨level_matches_hash _ _, level_matches_fill _⟩
      · by_cases hb : b = "#"
        · rw [if_neg ha, if_pos hb, hb]
          exact ⟨level_matches_fill _, level_matches_hash _ _⟩
        · simp only [level_overlaps, ha, hb, or_self, if_false] at h
          split at h
          · next hlevel =>
            obtain ⟨hleft, hright⟩ := ih h
            rw [if_neg ha, if_neg hb]
            by_cases hplus : a = "+"
            · by_cases hbp : b = "+"
              · simp [level_matches, hplus, hbp, hleft, hright]
              · simp [level_matches, fill, hplus, hb, hbp, hleft, hright]
            · rcases hlevel with hp | hp | hp
              · exact absurd hp hplus
              · simp [level_matches, ha, hplus, hp, hleft, hright]
              · subst hp
                simp [level_matches, ha, hplus, hleft, hright]
          · cases h

/-- A level of a filter: a wildcard, or one that can stand in a topic name. -/
def FilterLevel (level : String) : Prop := level = "+" ∨ level = "#" ∨ Plain level

variable {level : String}

theorem FilterLevel.plain (h : FilterLevel level) (hplus : level ≠ "+") (hhash : level ≠ "#") :
    Plain level :=
  (h.resolve_left hplus).resolve_left hhash

theorem plain_fill (h : FilterLevel level) : Plain (fill level) := by
  unfold fill
  split
  · intro c hc
    have : c = 'x' := by simpa using hc
    subst this
    decide
  · next hwild =>
    rw [not_or] at hwild
    exact h.plain hwild.2 hwild.1

theorem plain_map_fill (h : ∀ l ∈ levels, FilterLevel l) : ∀ l ∈ levels.map fill, Plain l := by
  intro l hl
  obtain ⟨m, hm, rfl⟩ := List.mem_map.mp hl
  exact plain_fill (h m hm)

theorem plain_common (ha : ∀ l ∈ as, FilterLevel l) (hb : ∀ l ∈ bs, FilterLevel l) :
    ∀ l ∈ common as bs, Plain l := by
  induction as generalizing bs with
  | nil =>
    intro l hl
    cases hl
  | cons a as ih =>
    cases bs with
    | nil =>
      intro l hl
      cases hl
    | cons b bs =>
      intro l hl
      unfold common at hl
      split at hl
      · exact plain_map_fill hb l hl
      · next hhash =>
        split at hl
        · exact plain_map_fill ha l hl
        · rcases List.mem_cons.mp hl with rfl | hl
          · split
            · exact plain_fill (hb b (by simp))
            · next hplus => exact (ha a (by simp)).plain hplus hhash
          · exact ih (fun l hl => ha l (by simp [hl])) (fun l hl => hb l (by simp [hl])) l hl

/-- No level holds a `/`. -/
theorem slash_not_mem_splitOn {xs piece : List Char} (h : piece ∈ xs.splitOn '/') :
    '/' ∉ piece := by
  induction xs generalizing piece with
  | nil =>
    have : piece = [] := by simpa using h
    simp [this]
  | cons x xs ih =>
    rw [List.splitOn_cons_eq_if_modifyHead] at h
    split at h
    · rcases List.mem_cons.mp h with rfl | h
      · simp
      · exact ih h
    · next hx =>
      rcases hs : xs.splitOn '/' with _ | ⟨first, rest⟩
      · exact absurd hs (List.splitOn_ne_nil _ xs)
      · rw [hs, List.modifyHead_cons] at h
        rw [hs] at ih
        rcases List.mem_cons.mp h with rfl | h
        · rw [List.mem_cons, not_or]
          refine ⟨?_, ih List.mem_cons_self⟩
          rintro rfl
          simp at hx
        · exact ih (List.mem_cons_of_mem _ h)

theorem filterLevel_of_valid_levels (h : valid_levels levels = true)
    (hchars : ∀ l ∈ levels, '/' ∉ l.toList ∧ '\x00' ∉ l.toList) : ∀ l ∈ levels, FilterLevel l := by
  induction levels with
  | nil => simp
  | cons l ls ih =>
    obtain ⟨hrest, hhash, hplus⟩ := valid_levels_cons h
    intro m hm
    rcases List.mem_cons.mp hm with rfl | hm
    · by_cases hp : '+' ∈ m.toList
      · exact .inl (hplus hp)
      · by_cases hh : '#' ∈ m.toList
        · exact .inr (.inl (hhash hh).1)
        · obtain ⟨hslash, hnul⟩ := hchars m (by simp)
          refine .inr (.inr ?_)
          intro c hc hbad
          simp only [List.mem_cons, List.not_mem_nil, or_false] at hbad
          rcases hbad with rfl | rfl | rfl | rfl
          · exact hslash hc
          · exact hp hc
          · exact hh hc
          · exact hnul hc
    · exact ih hrest (fun l hl => hchars l (by simp [hl])) m hm

variable {filter : String}

theorem filterLevel_of_valid (h : valid_filter filter = true) :
    ∀ l ∈ split filter, FilterLevel l := by
  refine filterLevel_of_valid_levels (valid_filter_levels h) ?_
  intro l hl
  unfold split at hl
  obtain ⟨piece, hpiece, rfl⟩ := List.mem_map.mp hl
  rw [String.toList_ofList]
  refine ⟨slash_not_mem_splitOn hpiece, ?_⟩
  intro hnul
  simp [valid_filter, mem_of_mem_splitOn hpiece hnul] at h

/-- The two filters select one string, the empty one, which is no topic name. -/
def MeetAtEmpty (a b : String) : Prop := a = "+" ∧ b = "/#" ∨ a = "/#" ∧ b = "+"

variable {s : String}

theorem eq_join (h : split s = levels) : s = join levels := by
  rw [← h, join_split]

theorem split_ne_empty (h : valid_filter filter = true) : split filter ≠ [""] := by
  intro hs
  rw [eq_join hs] at h
  exact absurd h (by decide)

theorem level_overlaps_comm (as bs : List String) : level_overlaps as bs = level_overlaps bs as := by
  induction as generalizing bs with
  | nil => cases bs <;> rfl
  | cons a as ih =>
    cases bs with
    | nil => rfl
    | cons b bs =>
      have hwild : (a = "#" ∨ b = "#") = (b = "#" ∨ a = "#") := propext or_comm
      have hlevel : (a = "+" ∨ b = "+" ∨ a = b) = (b = "+" ∨ a = "+" ∨ b = a) := by
        rw [eq_comm (a := b) (b := a)]
        exact propext or_left_comm
      simp only [level_overlaps, hwild, hlevel, ih bs]

theorem common_eq_nil (h : common as bs = []) : as = [] ∨ bs = [] := by
  cases as with
  | nil => exact .inl rfl
  | cons a as =>
    cases bs with
    | nil => exact .inr rfl
    | cons b bs =>
      unfold common at h
      split at h
      · simp at h
      · split at h <;> simp at h

theorem fill_eq_empty (h : fill level = "") : level = "" := by
  unfold fill at h
  split at h
  · exact absurd h (by decide)
  · exact h

theorem empty_of_map_fill (h : levels.map fill = [""]) : levels = [""] := by
  rcases levels with _ | ⟨l, _ | ⟨m, ls⟩⟩
  · cases h
  · have hl : fill l = "" := by simpa using h
    rw [fill_eq_empty hl]
  · simp at h

theorem hash_of_overlaps_nil {rest : List String} (hv : valid_levels rest = true)
    (hne : rest ≠ []) (h : level_overlaps rest [] = true) : rest = ["#"] := by
  cases rest with
  | nil => exact absurd rfl hne
  | cons l ls =>
    have hl : l = "#" := by simpa [level_overlaps] using h
    subst hl
    rw [((valid_levels_cons hv).2.1 (by simp)).2]

variable {a b : String}

theorem meetAtEmpty_of_common (ha : valid_filter a = true) (hb : valid_filter b = true)
    (h : level_overlaps (split a) (split b) = true) (hc : common (split a) (split b) = [""]) :
    MeetAtEmpty a b := by
  have hva := valid_filter_levels ha
  have hvb := valid_filter_levels hb
  have hea := split_ne_empty ha
  have heb := split_ne_empty hb
  rcases hsa : split a with _ | ⟨x, as⟩
  · exact absurd hsa (split_ne_nil a)
  rcases hsb : split b with _ | ⟨y, bs⟩
  · exact absurd hsb (split_ne_nil b)
  rw [hsa] at h hc hva hea
  rw [hsb] at h hc hvb heb
  unfold common at hc
  split at hc
  · exact absurd (empty_of_map_fill hc) heb
  · next hx =>
    split at hc
    · exact absurd (empty_of_map_fill hc) hea
    · next hy =>
      obtain ⟨hfirst, hnil⟩ := List.cons.inj hc
      simp only [level_overlaps, hx, hy, or_self, if_false] at h
      split at h
      · next hlevel =>
        split at hfirst
        · next hplus =>
          -- `b` starts with an empty level, so `a` is the one that ends
          have hyempty := fill_eq_empty hfirst
          have hbs : bs ≠ [] := fun hbs => heb (by rw [hyempty, hbs])
          have has := (common_eq_nil hnil).resolve_right hbs
          subst has
          rw [level_overlaps_comm] at h
          have hrest := hash_of_overlaps_nil (valid_levels_cons hvb).1 hbs h
          refine .inl ⟨?_, ?_⟩
          · rw [eq_join hsa, hplus]
            rfl
          · rw [eq_join hsb, hyempty, hrest]
            rfl
        · next hplus =>
          have has : as ≠ [] := fun has => hea (by rw [hfirst, has])
          have hbs := (common_eq_nil hnil).resolve_left has
          subst hbs
          have hrest := hash_of_overlaps_nil (valid_levels_cons hva).1 has h
          have hyplus : y = "+" := by
            rcases hlevel with hp | hp | hp
            · exact absurd hp hplus
            · exact hp
            · exact absurd (by rw [← hp, hfirst]) heb
          refine .inr ⟨?_, ?_⟩
          · rw [eq_join hsa, hfirst, hrest]
            rfl
          · rw [eq_join hsb, hyplus]
            rfl
      · cases h

theorem fill_dollar (h : (fill level).toList.head? = some '$') : level.toList.head? = some '$' := by
  unfold fill at h
  split at h
  · cases h
  · exact h

theorem common_dollar {ts : List String} {t : String} (h : common as bs = t :: ts)
    (hd : t.toList.head? = some '$') :
    (∃ a rest, as = a :: rest ∧ a.toList.head? = some '$') ∨
      ∃ b rest, bs = b :: rest ∧ b.toList.head? = some '$' := by
  cases as with
  | nil => cases h
  | cons a as =>
    cases bs with
    | nil => cases h
    | cons b bs =>
      unfold common at h
      split at h
      · obtain ⟨rfl, -⟩ := List.cons.inj h
        exact .inr ⟨b, bs, rfl, fill_dollar hd⟩
      · split at h
        · obtain ⟨rfl, -⟩ := List.cons.inj h
          exact .inl ⟨a, as, rfl, fill_dollar hd⟩
        · obtain ⟨hfirst, -⟩ := List.cons.inj h
          split at hfirst
          · subst hfirst
            exact .inr ⟨b, bs, rfl, fill_dollar hd⟩
          · subst hfirst
            exact .inl ⟨a, as, rfl, hd⟩

theorem starts_wild_of_dollar (h : s.toList.head? = some '$') : starts_wild s = false := by
  simp [starts_wild, h]

/-- Two well-formed filters that overlap select one topic name, unless they meet at the empty
string. -/
theorem exists_common_topic (ha : valid_filter a = true) (hb : valid_filter b = true)
    (h : filters_overlap a b = true) (hmeet : ¬ MeetAtEmpty a b) :
    ∃ topic, valid_topic_name topic = true ∧ topic_matches a topic = true ∧
      topic_matches b topic = true := by
  unfold filters_overlap at h
  split at h
  · cases h
  · next hdis =>
    simp only [Bool.or_eq_true, not_or, Bool.not_eq_true] at hdis
    let levels := common (split a) (split b)
    have hplain : ∀ l ∈ levels, Plain l :=
      plain_common (filterLevel_of_valid ha) (filterLevel_of_valid hb)
    have hne : levels ≠ [] := fun hnil =>
      (common_eq_nil hnil).elim (split_ne_nil a) (split_ne_nil b)
    have hsplit : split (join levels) = levels :=
      split_join hne (fun l hl => (hplain l hl).no_slash)
    have hnonempty : join levels ≠ "" := by
      intro hempty
      refine hmeet (meetAtEmpty_of_common ha hb h ?_)
      rw [show common (split a) (split b) = levels from rfl, ← hsplit, hempty]
      rfl
    have hdollar : ∀ f, f = a ∨ f = b → dollar_disjoint f (join levels) = false := by
      intro f hf
      by_cases hd : (join levels).toList.head? = some '$'
      · rw [head_of_split _ '$' (by decide), hsplit] at hd
        obtain ⟨t, ts, ht, htd⟩ := hd
        have hwild : starts_wild f = false := by
          have hwa : a.toList.head? = some '$' → starts_wild b = false := by
            intro hhead
            simpa [dollar_disjoint, hhead] using hdis.2
          have hwb : b.toList.head? = some '$' → starts_wild a = false := by
            intro hhead
            simpa [dollar_disjoint, hhead] using hdis.1
          rcases common_dollar ht htd with hown | hown
          · have hhead := (head_of_split a '$' (by decide)).mpr hown
            rcases hf with rfl | rfl
            · exact starts_wild_of_dollar hhead
            · exact hwa hhead
          · have hhead := (head_of_split b '$' (by decide)).mpr hown
            rcases hf with rfl | rfl
            · exact hwb hhead
            · exact starts_wild_of_dollar hhead
        simp [dollar_disjoint, hwild]
      · simp [dollar_disjoint, hd]
    obtain ⟨hma, hmb⟩ := level_matches_common h
    refine ⟨join levels, valid_topic_name_iff.mpr ⟨hnonempty, nameChar_join hplain⟩, ?_, ?_⟩
    · exact topic_matches_of_levels (hdollar a (.inl rfl)) (by rw [hsplit]; exact hma)
    · exact topic_matches_of_levels (hdollar b (.inr rfl)) (by rw [hsplit]; exact hmb)

theorem filters_overlap_comm (a b : String) : filters_overlap a b = filters_overlap b a := by
  unfold filters_overlap
  rw [Bool.or_comm, level_overlaps_comm]

theorem not_matches_both (h : valid_topic_name topic = true)
    (hplus : topic_matches "+" topic = true) : topic_matches "/#" topic = false := by
  by_contra hhash
  rw [Bool.not_eq_false] at hhash
  have hplus := (topic_matches_levels hplus).2
  have hhash := (topic_matches_levels hhash).2
  rw [show split "+" = ["+"] by decide] at hplus
  rw [show split "/#" = ["", "#"] by decide] at hhash
  rcases hs : split topic with _ | ⟨t, _ | ⟨u, ts⟩⟩
  · exact split_ne_nil topic hs
  · have ht : t = "" := by
      rw [hs] at hhash
      by_contra hne
      simp [level_matches, Ne.symm hne] at hhash
    rw [eq_join hs, ht] at h
    exact absurd h (by decide)
  · rw [hs] at hplus
    simp [level_matches] at hplus

end mqtt_core
