-- How two filters stand to each other (`mqtt-core/src/lib.rs`): one covers the
-- other, or some topic is selected by both. Also the two parts of a shared
-- filter.
import Mathlib.Data.List.TakeWhile
import MqttBroker.Core.Topic

namespace mqtt_core

/-! ## Covering and overlapping -/

/-- The loop of `filter_covers`. -/
def level_covers : List String → List String → Bool
  | p :: ps, r :: rs =>
    if p = "#" then true
    else if r = "#" then false
    else if p = "+" ∨ p = r then level_covers ps rs
    else false
  | p :: _, [] => p == "#"
  | [], [] => true
  | [], _ :: _ => false

def starts_wild (s : String) : Bool := s.toList.head? == some '+' || s.toList.head? == some '#'

/-- A leading wildcard against a name under `$`. -/
def dollar_disjoint (wild rooted : String) : Bool :=
  rooted.toList.head? == some '$' && starts_wild wild

def filter_covers (pattern request : String) : Bool :=
  if dollar_disjoint pattern request then false
  else level_covers (split pattern) (split request)

/-- The loop of `filters_overlap`. -/
def level_overlaps : List String → List String → Bool
  | a :: as, b :: bs =>
    if a = "#" ∨ b = "#" then true
    else if a = "+" ∨ b = "+" ∨ a = b then level_overlaps as bs
    else false
  | a :: _, [] => a == "#"
  | [], b :: _ => b == "#"
  | [], [] => true

def filters_overlap (a b : String) : Bool :=
  if dollar_disjoint a b || dollar_disjoint b a then false
  else level_overlaps (split a) (split b)

/-! ## What they say about topics -/

theorem level_covers_matches {ps rs ts : List String} (h : level_covers ps rs = true)
    (hr : level_matches rs ts = true) : level_matches ps ts = true := by
  induction ps generalizing rs ts with
  | nil =>
    cases rs with
    | nil => exact hr
    | cons r rs => cases h
  | cons p ps ih =>
    by_cases hp : p = "#"
    · cases ts with
      | nil => simp [level_matches, hp]
      | cons t ts => simp [level_matches, hp]
    · cases rs with
      | nil => simp [level_covers, hp] at h
      | cons r rs =>
        simp only [level_covers, hp, if_false] at h
        split at h
        · cases h
        · next hhash =>
          split at h
          · next hlevel =>
            cases ts with
            | nil => simp [level_matches, hhash] at hr
            | cons t ts =>
              simp only [level_matches, hhash, if_false] at hr
              split at hr
              · next hrt =>
                have hpt : p = "+" ∨ p = t := by
                  rcases hlevel with hplus | heq
                  · exact .inl hplus
                  · rcases hrt with hplus | hrt
                    · exact .inl (heq.trans hplus)
                    · exact .inr (heq.trans hrt)
                simp [level_matches, hp, hpt, ih h hr]
              · cases hr
          · cases h

theorem level_matches_overlaps {as bs ts : List String} (ha : level_matches as ts = true)
    (hb : level_matches bs ts = true) : level_overlaps as bs = true := by
  induction as generalizing bs ts with
  | nil =>
    cases ts with
    | cons t ts => cases ha
    | nil =>
      cases bs with
      | nil => rfl
      | cons b bs => exact hb
  | cons a as ih =>
    cases bs with
    | nil =>
      cases ts with
      | cons t ts => cases hb
      | nil => exact ha
    | cons b bs =>
      by_cases hhash : a = "#" ∨ b = "#"
      · simp [level_overlaps, hhash]
      · obtain ⟨hna, hnb⟩ := not_or.mp hhash
        cases ts with
        | nil => simp [level_matches, hna] at ha
        | cons t ts =>
          simp only [level_matches, hna, hnb, if_false] at ha hb
          split at ha
          · next hat =>
            split at hb
            · next hbt =>
              have hlevel : a = "+" ∨ b = "+" ∨ a = b := by
                rcases hat with hplus | hat
                · exact .inl hplus
                · rcases hbt with hplus | hbt
                  · exact .inr (.inl hplus)
                  · exact .inr (.inr (hat.trans hbt.symm))
              simp [level_overlaps, hhash, hlevel, ih ha hb]
            · cases hb
          · cases ha

variable {filter topic : String}

theorem topic_matches_levels (h : topic_matches filter topic = true) :
    dollar_disjoint filter topic = false ∧ level_matches (split filter) (split topic) = true := by
  unfold topic_matches at h
  split at h
  · cases h
  · next hwild =>
    refine ⟨?_, h⟩
    simpa [dollar_disjoint, starts_wild] using hwild

theorem topic_matches_of_levels (h : dollar_disjoint filter topic = false)
    (hl : level_matches (split filter) (split topic) = true) :
    topic_matches filter topic = true := by
  unfold topic_matches
  rw [if_neg]
  · exact hl
  · simpa [dollar_disjoint, starts_wild] using h

theorem first_level_of_matches (h : topic_matches filter topic = true)
    (hd : filter.toList.head? = some '$' ∨ topic.toList.head? = some '$') :
    ∃ level fs ts, split filter = level :: fs ∧ split topic = level :: ts := by
  obtain ⟨hdis, hlevels⟩ := topic_matches_levels h
  have hwild : starts_wild filter = false := by
    rcases hd with hd | hd
    · simp [starts_wild, hd]
    · simpa [dollar_disjoint, hd] using hdis
  rcases hf : split filter with _ | ⟨f, fs⟩
  · exact absurd hf (split_ne_nil filter)
  rcases ht : split topic with _ | ⟨t, ts⟩
  · exact absurd ht (split_ne_nil topic)
  have hfirst : ∀ c : Char, c ≠ '/' → f.toList.head? = some c → filter.toList.head? = some c := by
    intro c hc hhead
    rw [head_of_split filter c hc]
    exact ⟨f, fs, hf, hhead⟩
  have hhash : f ≠ "#" := by
    rintro rfl
    have := hfirst '#' (by decide) rfl
    simp [starts_wild, this] at hwild
  have hplus : f ≠ "+" := by
    rintro rfl
    have := hfirst '+' (by decide) rfl
    simp [starts_wild, this] at hwild
  have heq : f = t := by
    rw [hf, ht] at hlevels
    by_contra hne
    simp [level_matches, hhash, hplus, hne] at hlevels
  exact ⟨f, fs, ts, rfl, by rw [heq]⟩

theorem dollar_iff_of_matches (h : topic_matches filter topic = true) :
    filter.toList.head? = some '$' ↔ topic.toList.head? = some '$' := by
  constructor
  · intro hd
    obtain ⟨level, fs, ts, hf, ht⟩ := first_level_of_matches h (.inl hd)
    rw [head_of_split filter '$' (by decide), hf] at hd
    rw [head_of_split topic '$' (by decide), ht]
    simpa using hd
  · intro hd
    obtain ⟨level, fs, ts, hf, ht⟩ := first_level_of_matches h (.inr hd)
    rw [head_of_split topic '$' (by decide), ht] at hd
    rw [head_of_split filter '$' (by decide), hf]
    simpa using hd

theorem filter_covers_matches {pattern request : String}
    (h : filter_covers pattern request = true) (hr : topic_matches request topic = true) :
    topic_matches pattern topic = true := by
  unfold filter_covers at h
  split at h
  · cases h
  · next hdis =>
    refine topic_matches_of_levels ?_ (level_covers_matches h (topic_matches_levels hr).2)
    by_contra htopic
    simp only [dollar_disjoint, Bool.not_eq_false, Bool.and_eq_true, beq_iff_eq] at htopic
    apply hdis
    simp [dollar_disjoint, (dollar_iff_of_matches hr).mpr htopic.1, htopic.2]

theorem filters_overlap_of_matches {a b : String} (ha : topic_matches a topic = true)
    (hb : topic_matches b topic = true) : filters_overlap a b = true := by
  have hdis : ∀ {x y : String}, topic_matches x topic = true → topic_matches y topic = true →
      dollar_disjoint x y = false := by
    intro x y hx hy
    by_contra h
    simp only [dollar_disjoint, Bool.not_eq_false, Bool.and_eq_true, beq_iff_eq] at h
    obtain ⟨hdollar, hwild⟩ := h
    have htopic : topic.toList.head? = some '$' := (dollar_iff_of_matches hy).mp hdollar
    have hx := (topic_matches_levels hx).1
    simp [dollar_disjoint, htopic, hwild] at hx
  unfold filters_overlap
  rw [hdis ha hb, hdis hb ha]
  exact level_matches_overlaps (topic_matches_levels ha).2 (topic_matches_levels hb).2

/-! ## Shared filters -/

/-- The characters before the first `/` and those after it. -/
def split_once (s : List Char) : Option (List Char × List Char) :=
  match s.dropWhile (· ≠ '/') with
  | [] => none
  | _ :: rest => some (s.takeWhile (· ≠ '/'), rest)

/-- What follows `$share/`. -/
def strip_share (s : String) : Option (List Char) :=
  "$share/".toList.isPrefixOf? s.toList

def parse_shared (filter : String) : Option (String × String) := do
  let rest ← strip_share filter
  let (group, topic) ← split_once rest
  if group.isEmpty || topic.isEmpty || group.any (fun c => c == '+' || c == '#') then none
  else some (String.ofList group, String.ofList topic)

variable {s a b : List Char}

theorem split_once_some (h : split_once s = some (a, b)) : s = a ++ '/' :: b ∧ '/' ∉ a := by
  unfold split_once at h
  split at h
  · cases h
  · next c rest hdrop =>
    cases h
    have hc : c = '/' := by
      have hhead : (s.dropWhile (· ≠ '/')).head? = some c := by rw [hdrop]; rfl
      have hnot := List.head?_dropWhile_not (fun x => decide (x ≠ '/')) s
      rw [hhead] at hnot
      simpa using hnot
    refine ⟨?_, ?_⟩
    · have hsplit := List.takeWhile_append_dropWhile (p := (· ≠ '/')) (l := s)
      rw [hdrop, hc] at hsplit
      exact hsplit.symm
    · intro hmem
      have := List.mem_takeWhile_imp hmem
      simp at this

theorem split_once_none (h : split_once s = none) : '/' ∉ s := by
  unfold split_once at h
  split at h
  · next hdrop =>
    intro hmem
    have hall := List.dropWhile_eq_nil_iff.mp hdrop '/' hmem
    simp at hall
  · cases h

theorem split_cut (h : split_once s = some (a, b)) :
    split (String.ofList s) = String.ofList a :: split (String.ofList b) := by
  obtain ⟨rfl, ha⟩ := split_once_some h
  simp [split, List.splitOn_append_cons_self_of_not_mem ha]

theorem split_whole (h : split_once s = none) : split (String.ofList s) = [String.ofList s] := by
  simp [split, List.splitOn_eq_singleton (split_once_none h)]

theorem strip_share_some {s : String} {rest : List Char} (h : strip_share s = some rest) :
    split s = "$share" :: split (String.ofList rest) := by
  have happ : "$share/".toList ++ rest = s.toList := List.append_eq_of_isPrefixOf?_eq_some h
  have hlist : s.toList = "$share".toList ++ '/' :: rest := by rw [← happ]; rfl
  have hslash : '/' ∉ "$share".toList := by decide
  unfold split
  rw [hlist, List.splitOn_append_cons_self_of_not_mem hslash]
  simp

theorem strip_share_of_split {s : String} {ls : List String} (hne : ls ≠ [])
    (h : split s = "$share" :: ls) :
    ∃ rest, strip_share s = some rest ∧ split (String.ofList rest) = ls := by
  cases hs : split_once s.toList with
  | none =>
    have hwhole := split_whole hs
    rw [String.ofList_toList, h] at hwhole
    exact absurd (List.cons.inj hwhole).2 hne
  | some ab =>
    obtain ⟨a, b⟩ := ab
    have hcut := split_cut hs
    rw [String.ofList_toList, h] at hcut
    obtain ⟨ha, hb⟩ := List.cons.inj hcut
    have ha : a = "$share".toList := by
      have := congrArg String.toList ha
      simpa using this.symm
    refine ⟨b, ?_, hb.symm⟩
    unfold strip_share
    rw [(split_once_some hs).1, ha]
    rfl

theorem parse_shared_some {group inner : String} (h : parse_shared filter = some (group, inner)) :
    split filter = "$share" :: group :: split inner ∧ group ≠ "+" ∧ group ≠ "#" := by
  simp only [parse_shared, Option.bind_eq_bind, Option.bind_eq_some_iff, Prod.exists] at h
  obtain ⟨rest, hrest, a, b, hcut, hparts⟩ := h
  split at hparts
  · cases hparts
  · next hname =>
    cases hparts
    simp only [Bool.or_eq_true, not_or] at hname
    rw [strip_share_some hrest, split_cut hcut]
    refine ⟨rfl, ?_, ?_⟩
    · intro heq
      have ha : a = ['+'] := by simpa using congrArg String.toList heq
      simp [ha] at hname
    · intro heq
      have ha : a = ['#'] := by simpa using congrArg String.toList heq
      simp [ha] at hname

end mqtt_core
