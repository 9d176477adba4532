-- A replica's log read page by page (`epoch_entries_page` in `cluster_log.rs`): a reader that
-- goes on from the last offset of each page gets the log back, and no page is over the budget
-- unless it is one entry.
import MqttBroker.Cluster.Merge

namespace mqtt_cluster.cluster_log

namespace ReplicaState

/-! ## One page -/

/-- The loop over what is above `after`: the page, and whether the iterator has more. -/
def fill_page (max_bytes : Nat) :
    List EpochEntry → Nat → List (Offset × Stored) → List EpochEntry × Bool
  | page, _, [] => (page, false)
  | page, bytes, (offset, v) :: rest =>
    if page.isEmpty ∨ bytes + v.2.length ≤ max_bytes then
      fill_page max_bytes (page ++ [EpochEntry.of offset v]) (bytes + v.2.length) rest
    else (page, true)

def above (log : BTreeMap Offset Stored) (after : Offset) : List (Offset × Stored) :=
  log.toList.filter (fun x => after < x.1)

def epoch_entries_page (s : ReplicaState) (key : String) (after : Offset) (max_bytes : Nat) :
    List EpochEntry × Bool :=
  match s.logs[key]? with
  | none => ([], false)
  | some log => fill_page max_bytes [] 0 (above log after)

def page_bytes (page : List EpochEntry) : Nat := (page.map (·.record.length)).sum

/-- The page keeps to the budget, or is a single entry. -/
def Fits (max_bytes : Nat) (page : List EpochEntry) : Prop :=
  max_bytes < page_bytes page → page.length = 1

theorem fill_page_spec (max_bytes : Nat) (l : List (Offset × Stored)) (page : List EpochEntry)
    (hfits : Fits max_bytes page) :
    ∃ taken rest, l = taken ++ rest ∧ (page = [] → l ≠ [] → taken ≠ []) ∧
      Fits max_bytes (page ++ taken.map (fun x => EpochEntry.of x.1 x.2)) ∧
      fill_page max_bytes page (page_bytes page) l =
        (page ++ taken.map (fun x => EpochEntry.of x.1 x.2), !rest.isEmpty) := by
  induction l generalizing page with
  | nil => exact ⟨[], [], rfl, fun _ h => absurd rfl h, by simpa using hfits, by simp [fill_page]⟩
  | cons x l ih =>
    obtain ⟨offset, v⟩ := x
    unfold fill_page
    split
    case isTrue htake =>
      have hbytes :
          page_bytes page + v.2.length = page_bytes (page ++ [EpochEntry.of offset v]) := by
        simp [page_bytes]
      have hfits' : Fits max_bytes (page ++ [EpochEntry.of offset v]) := by
        intro hover
        rcases htake with hempty | hle
        · simp [List.isEmpty_iff.mp hempty]
        · exact absurd (hbytes ▸ hle) (Nat.not_le.mpr hover)
      obtain ⟨taken, rest, rfl, -, hfit, hfill⟩ := ih _ hfits'
      refine ⟨(offset, v) :: taken, rest, rfl, fun _ _ => List.cons_ne_nil _ _, ?_, ?_⟩
      · simpa using hfit
      · rw [hbytes, hfill]
        simp
    case isFalse hstop =>
      refine ⟨[], (offset, v) :: l, rfl, ?_, by simpa using hfits, by simp⟩
      intro hpage _
      exact absurd (Or.inl (List.isEmpty_iff.mpr hpage)) hstop

/-- A page is what comes first above `after`, is not empty when there is anything, and says
whether there is more. -/
theorem page_spec (s : ReplicaState) (key : String) (after : Offset) (max_bytes : Nat) :
    ∃ taken rest, above (logOf s.logs key) after = taken ++ rest ∧
      (above (logOf s.logs key) after ≠ [] → taken ≠ []) ∧
      Fits max_bytes (taken.map (fun x => EpochEntry.of x.1 x.2)) ∧
      s.epoch_entries_page key after max_bytes =
        (taken.map (fun x => EpochEntry.of x.1 x.2), !rest.isEmpty) := by
  have hnil : Fits max_bytes [] := by simp [Fits, page_bytes]
  unfold epoch_entries_page logOf
  cases s.logs[key]? with
  | none => exact ⟨[], [], by simp [above], by simp [above], hnil, rfl⟩
  | some log =>
    obtain ⟨taken, rest, hl, hne, hfit, hfill⟩ := fill_page_spec max_bytes (above log after) [] hnil
    exact ⟨taken, rest, hl, hne rfl, hfit, hfill⟩

/-! ## The pages of a log -/

/-- Page after page from the last offset of the one before, while there is more. -/
def read_pages (s : ReplicaState) (key : String) (max_bytes : Nat) :
    Nat → Offset → Option (List (List EpochEntry))
  | 0, _ => none
  | fuel + 1, after =>
    match s.epoch_entries_page key after max_bytes with
    | (page, false) => some [page]
    | (page, true) =>
      match page.getLast? with
      | none => read_pages s key max_bytes fuel after |>.map (page :: ·)
      | some e => read_pages s key max_bytes fuel e.offset |>.map (page :: ·)

theorem above_last {log : BTreeMap Offset Stored} {after : Offset}
    {taken rest : List (Offset × Stored)} {x : Offset × Stored}
    (h : above log after = taken ++ [x] ++ rest) : above log x.1 = rest := by
  have hsorted : (taken ++ [x] ++ rest).Pairwise (fun a b => a.1 < b.1) :=
    h ▸ log.toList_sorted.sublist List.filter_sublist
  obtain ⟨hbefore, -, hcross⟩ := List.pairwise_append.mp hsorted
  have hx : after < x.1 := by
    have hmem : x ∈ above log after := by rw [h]; simp
    simpa [above] using (List.mem_filter.mp hmem).2
  have htwice : above log x.1 = (above log after).filter (fun y => x.1 < y.1) := by
    unfold above
    rw [List.filter_filter]
    refine List.filter_congr fun y _ => ?_
    have : x.1 < y.1 → after < y.1 := fun hy => Nat.lt_trans hx hy
    simpa using this
  have hlow : (taken ++ [x]).filter (fun y => x.1 < y.1) = [] := by
    rw [List.filter_eq_nil_iff]
    intro y hy
    rcases List.mem_append.mp hy with hy | hy
    · have : y.1 < x.1 := (List.pairwise_append.mp hbefore).2.2 y hy x List.mem_cons_self
      simp [Nat.le_of_lt this]
    · simp [List.mem_singleton.mp hy]
  have hhigh : rest.filter (fun y => x.1 < y.1) = rest := by
    rw [List.filter_eq_self]
    intro y hy
    simpa using hcross x (List.mem_append_right _ List.mem_cons_self) y hy
  rw [htwice, h, List.filter_append, hlow, hhigh, List.nil_append]

theorem read_pages_above (s : ReplicaState) (key : String) (max_bytes : Nat) (fuel : Nat)
    (after : Offset) (hfuel : (above (logOf s.logs key) after).length < fuel) :
    ∃ pages, s.read_pages key max_bytes fuel after = some pages ∧
      pages.flatten = (above (logOf s.logs key) after).map (fun x => EpochEntry.of x.1 x.2) ∧
      (∀ page ∈ pages, Fits max_bytes page) ∧
      (above (logOf s.logs key) after = [] → pages = [[]]) ∧
      (above (logOf s.logs key) after ≠ [] → [] ∉ pages) := by
  induction fuel generalizing after with
  | zero => exact absurd hfuel (Nat.not_lt_zero _)
  | succ fuel ih =>
    obtain ⟨taken, rest, habove, hne, hfit, hpage⟩ := s.page_spec key after max_bytes
    unfold read_pages
    rw [hpage]
    cases rest with
    | nil =>
      refine ⟨[taken.map (fun x => EpochEntry.of x.1 x.2)], rfl, ?_, ?_, ?_, ?_⟩
      · simp [habove]
      · simpa using hfit
      · intro hempty
        rw [hempty] at habove
        simp [(List.append_eq_nil_iff.mp habove.symm).1]
      · intro hmore
        simpa using hne hmore
    | cons y rest =>
      -- more remains, so the page has a last entry to go on from
      have hmore : above (logOf s.logs key) after ≠ [] := by simp [habove]
      obtain ⟨front, x, rfl⟩ : ∃ front x, taken = front ++ [x] :=
        ⟨_, _, (List.dropLast_append_getLast (hne hmore)).symm⟩
      have hrest := above_last habove
      have hlen : (above (logOf s.logs key) x.1).length < fuel := by
        rw [habove] at hfuel
        rw [hrest]
        simp only [List.length_append, List.length_cons] at hfuel ⊢
        omega
      obtain ⟨pages, hread, hflat, hfits, -, hnonempty⟩ := ih x.1 hlen
      refine ⟨(front ++ [x]).map (fun x => EpochEntry.of x.1 x.2) :: pages, ?_, ?_, ?_, ?_, ?_⟩
      · simp [hread]
      · rw [List.flatten_cons, hflat, habove, hrest, ← List.map_append]
      · intro page hmem
        rcases List.mem_cons.mp hmem with rfl | hmem
        · exact hfit
        · exact hfits page hmem
      · exact fun hempty => absurd hempty hmore
      · intro _ hmem
        rcases List.mem_cons.mp hmem with hnil | hmem
        · simp at hnil
        · exact hnonempty (by simp [hrest]) hmem

theorem read_pages_add {s : ReplicaState} {key : String} {max_bytes fuel : Nat} {after : Offset}
    {pages : List (List EpochEntry)} (h : s.read_pages key max_bytes fuel after = some pages)
    (more : Nat) : s.read_pages key max_bytes (fuel + more) after = some pages := by
  induction fuel generalizing after pages with
  | zero => cases h
  | succ fuel ih =>
    rw [Nat.add_right_comm]
    unfold read_pages at h ⊢
    generalize s.epoch_entries_page key after max_bytes = answer at h ⊢
    obtain ⟨page, _ | _⟩ := answer
    · exact h
    · dsimp only at h ⊢
      cases hlast : page.getLast? with
      | none | some e =>
        rw [hlast] at h
        obtain ⟨rest, hrest, rfl⟩ := Option.map_eq_some_iff.mp h
        exact Option.map_eq_some_iff.mpr ⟨rest, ih hrest, rfl⟩

theorem above_zero {s : ReplicaState} {key : String} (h : held s.logs key 0 = none) :
    above (logOf s.logs key) 0 = (logOf s.logs key).toList := by
  unfold above
  rw [List.filter_eq_self]
  rintro ⟨offset, v⟩ hx
  have hv : held s.logs key offset = some v := (BTreeMap.mem_toList _ _ _).mp hx
  have hne : offset ≠ 0 := by
    rintro rfl
    rw [h] at hv
    cases hv
  simpa using Nat.pos_of_ne_zero hne

end ReplicaState

/-- A log with nothing at offset 0 is read back by its pages: the reader comes to an end, a page
is empty only when it is the only one, together they are the log, and one over the budget is
a single entry. -/
theorem pages_reassemble_the_log (s : ReplicaState) (key : String) (max_bytes : Nat)
    (h : held s.logs key 0 = none) :
    ∃ pages,
      (∀ fuel, (s.epoch_entries key).length < fuel →
        s.read_pages key max_bytes fuel 0 = some pages) ∧
      ([] ∈ pages → pages = [[]]) ∧
      pages.flatten = s.epoch_entries key ∧
      ∀ page ∈ pages, max_bytes < (page.map (·.record.length)).sum → page.length = 1 := by
  have hlog : (ReplicaState.above (logOf s.logs key) 0).map (fun x => EpochEntry.of x.1 x.2) =
      s.epoch_entries key := by
    rw [ReplicaState.above_zero h]
    rfl
  obtain ⟨pages, hread, hflat, hfits, hempty, hnonempty⟩ :=
    s.read_pages_above key max_bytes _ 0 (Nat.lt_succ_self _)
  refine ⟨pages, ?_, ?_, hflat.trans hlog, hfits⟩
  · intro fuel hfuel
    rw [← hlog, List.length_map] at hfuel
    obtain ⟨more, rfl⟩ := Nat.exists_eq_add_of_le hfuel
    exact ReplicaState.read_pages_add hread more
  · intro hnil
    by_cases habove : ReplicaState.above (logOf s.logs key) 0 = []
    · exact hempty habove
    · exact absurd hnil (hnonempty habove)

def three_entries : ReplicaState :=
  [1, 2, 3].foldl (fun s offset =>
    s.apply_in_memory 1 (.Append "q/p" offset offset (List.replicate 10 0))) {}

theorem three_entries_come_in_two_pages :
    held three_entries.logs "q/p" 0 = none ∧ ∃ pages,
      (∀ fuel, 3 < fuel → three_entries.read_pages "q/p" 25 fuel 0 = some pages) ∧
      pages.flatten = three_entries.epoch_entries "q/p" := by
  have hnone : held three_entries.logs "q/p" 0 = none := by decide +kernel
  obtain ⟨pages, hread, -, hflat, -⟩ := pages_reassemble_the_log three_entries "q/p" 25 hnone
  have hlen : (three_entries.epoch_entries "q/p").length = 3 := by decide +kernel
  exact ⟨hnone, pages, fun fuel h => hread fuel (by omega), hflat⟩

/-- An entry at offset 0, which an append may carry, is on no page. -/
theorem an_entry_at_zero_is_on_no_page :
    ¬ ∀ (s : ReplicaState) (key : String) (max_bytes : Nat), ∃ fuel pages,
      s.read_pages key max_bytes fuel 0 = some pages ∧ pages.flatten = s.epoch_entries key := by
  intro h
  let s : ReplicaState := (ReplicaState.apply (fun _ => true) {} 1 (.Append "q/p" 0 1 [7])).2
  obtain ⟨fuel, pages, hread, hflat⟩ := h s "q/p" 100
  have hone : s.read_pages "q/p" 100 1 0 = some [[]] := by decide +kernel
  cases fuel with
  | zero => cases hread
  | succ fuel =>
    rw [Nat.add_comm, ReplicaState.read_pages_add hone] at hread
    cases hread
    have hentries : s.epoch_entries "q/p" ≠ [] := by decide +kernel
    exact hentries hflat.symm

end mqtt_cluster.cluster_log
