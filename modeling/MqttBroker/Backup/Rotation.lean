-- The files of a backup directory (`backup.rs`): a run cleans the partial files of its node,
-- publishes an export and removes the oldest. Whose a file is goes by how its name starts,
-- and how old it is by how it sorts, so that a node whose id begins as another's does and
-- goes on with a dash has its files counted and removed as the other's.
import MqttBroker.Backup.Load
import Mathlib.Data.List.Perm.Subperm

namespace mqttd.backup

open mqtt_storage (Bytes)

/-! ## Names -/

def PARTIAL_SUFFIX : String := ".ndjson.partial"

def NAME_WAIT_MAX_MS : Nat := 1000

/-- A number with zeros in front. -/
def pad (width n : Nat) : List Char :=
  List.replicate (width - (Nat.toDigits 10 n).length) '0' ++ Nat.toDigits 10 n

/-- `u32::try_from(n).unwrap_or(1)` -/
def u32_or_one (n : Int) : Nat := if 0 ≤ n ∧ n < 2 ^ 32 then n.toNat else 1

/-- The year, the month and the day of a day after 1970-01-01. -/
def civil_from_days (z : Int) : Int × Nat × Nat :=
  let z := z + 719468
  let era := z / 146097
  let doe := z % 146097
  let yoe := (doe - doe / 1460 + doe / 36524 - doe / 146096) / 365
  let y := yoe + era * 400
  let doy := doe - (365 * yoe + yoe / 4 - yoe / 100)
  let mp := (5 * doy + 2) / 153
  let d := u32_or_one (doy - (153 * mp + 2) / 5 + 1)
  let m := u32_or_one (if mp < 10 then mp + 3 else mp - 9)
  (if m ≤ 2 then y + 1 else y, m, d)

/-- The second as it stands in a name. No year of these is negative. -/
def utc_stamp (unix_secs : Nat) : List Char :=
  let secs_of_day := unix_secs % 86400
  let (y, m, d) := civil_from_days (unix_secs / 86400 : Nat)
  pad 4 y.toNat ++ '-' :: pad 2 m ++ '-' :: pad 2 d ++ '_' :: pad 2 (secs_of_day / 3600) ++
    pad 2 (secs_of_day % 3600 / 60) ++ pad 2 (secs_of_day % 60)

def sanitize (s : String) : List Char :=
  s.toList.map fun c => if c.isAlphanum ∨ c = '-' ∨ c = '_' ∨ c = '.' then c else '_'

def names_of (node_id : String) : List Char := FORMAT.toList ++ '-' :: sanitize node_id ++ ['-']

def export_stem (node_id : String) (started_ms : Nat) : String :=
  String.ofList (names_of node_id ++ (utc_stamp (started_ms / 1000) ++
    '-' :: pad 3 (started_ms % 1000)))

def final_name (node_id : String) (started_ms : Nat) : String :=
  export_stem node_id started_ms ++ SUFFIX

def partial_name (node_id : String) (started_ms : Nat) : String :=
  export_stem node_id started_ms ++ PARTIAL_SUFFIX

def starts_with (name : String) (start : List Char) : Bool := start.isPrefixOf name.toList

def ends_with (name suffix : String) : Bool := suffix.toList.isSuffixOf name.toList

/-! ## The run -/

/-- A file: the start that its header has, and the rest. -/
structure DirFile where
  created_unix_ms : Nat
  text : Bytes
  deriving DecidableEq

abbrev Dir := BTreeMap String DirFile

section run
variable (remove_fails : String → Bool)

/-- Whether a file is taken for a finished export of the node. -/
def counted (node_id name : String) : Bool :=
  starts_with name (names_of node_id) && ends_with name SUFFIX

def stale (node_id name : String) : Bool :=
  starts_with name (names_of node_id) && ends_with name PARTIAL_SUFFIX

def counted_files (dir : Dir) (node_id : String) : List (String × DirFile) :=
  dir.toList.filter fun x => counted node_id x.1

/-- The exports of a node, the oldest first as the names sort. -/
def exports_of (dir : Dir) (node_id : String) : List String :=
  (counted_files dir node_id).map Prod.fst

def remove_file (dir : Dir) (name : String) : Dir :=
  if remove_fails name then dir else dir.erase name

def prune (dir : Dir) (node_id : String) (keep : Nat) : Dir :=
  let files := exports_of dir node_id
  let keep := max keep 1
  if files.length ≤ keep then dir
  else (files.take (files.length - keep)).foldl (remove_file remove_fails) dir

def clean_stale_partials (dir : Dir) (node_id : String) : Dir :=
  (dir.keys.filter (stale node_id)).foldl (remove_file remove_fails) dir

def export_name_taken (dir : Dir) (node_id : String) (started_ms : Nat) : Bool :=
  dir[final_name node_id started_ms]?.isSome || dir[partial_name node_id started_ms]?.isSome

def free_export_start (clock : Nat → Nat) (dir : Dir) (node_id : String) : Nat → Nat → Option Nat
  | 0, _ => none
  | left + 1, i =>
    if export_name_taken dir node_id (clock i) then free_export_start clock dir node_id left (i + 1)
    else some (clock i)

end run

/-- What a run meets: the files it cannot remove, the clock, what the stores give it from a start
on (nothing when they refuse or are incomplete), and how its writes end. -/
structure Host where
  no_dir : Bool := false
  remove_fails : String → Bool := fun _ => false
  clock : Nat → Nat
  body : Nat → Option Bytes
  /-- What a write that fails leaves, if it fails. -/
  torn : Option (Option Bytes) := none
  rename_fails : Bool := false

inductive ExportError
  | CannotCreate | NoFreeName | Refused | CannotWrite | Exists | CannotRename
  deriving DecidableEq

/-- One export; its start when it was published. -/
def run_export (host : Host) (node_id : String) (keep : Nat) (dir : Dir) :
    Except ExportError Nat × Dir :=
  if host.no_dir then (.error .CannotCreate, dir)
  else
    let dir := clean_stale_partials host.remove_fails dir node_id
    match free_export_start host.clock dir node_id NAME_WAIT_MAX_MS 0 with
    | none => (.error .NoFreeName, dir)
    | some started_ms =>
      match host.body started_ms, host.torn with
      | none, _ => (.error .Refused, dir)
      | some _, some none => (.error .CannotWrite, dir)
      | some _, some (some left) =>
        (.error .CannotWrite, dir.insert (partial_name node_id started_ms) ⟨started_ms, left⟩)
      | some text, none =>
        let file := ⟨started_ms, text⟩
        let dir := dir.insert (partial_name node_id started_ms) file
        if dir[final_name node_id started_ms]?.isSome then (.error .Exists, dir)
        else if host.rename_fails then (.error .CannotRename, dir)
        else
          let dir := (dir.erase (partial_name node_id started_ms)).insert
            (final_name node_id started_ms) file
          (.ok started_ms, prune host.remove_fails dir node_id keep)

/-! ## What a name tells -/

theorem count_pad (width n : Nat) : (pad width n).count '-' = 0 := by
  rw [List.count_eq_zero, pad, List.mem_append, List.mem_replicate]
  rintro (⟨-, h⟩ | h)
  · cases h
  · have hdigit := Nat.isDigit_of_mem_toDigits (by decide) (by decide) h
    exact absurd hdigit (by decide)

/-- A stamp and its milliseconds have three dashes, whatever the time. -/
theorem count_stamp (started_ms : Nat) : (utc_stamp (started_ms / 1000) ++
    '-' :: pad 3 (started_ms % 1000)).count '-' = 3 := by
  unfold utc_stamp
  rcases civil_from_days _ with ⟨y, m, d⟩
  simp [List.count_append, count_pad]

theorem same_before_dash {x y t u : List Char} (h : x ++ '-' :: t = y ++ '-' :: u)
    (hcount : t.count '-' = u.count '-') : x = y := by
  have hno : ∀ {z v w : List Char}, '-' :: v = z ++ '-' :: w → v.count '-' = w.count '-' →
      z = [] := by
    intro z v w hvw hc
    cases z with
    | nil => rfl
    | cons c z =>
      rw [List.cons_append, List.cons.injEq] at hvw
      rw [hvw.2, List.count_append, List.count_cons_self] at hc
      omega
  rcases List.append_eq_append_iff.mp h with ⟨z, rfl, hz⟩ | ⟨z, rfl, hz⟩
  · rw [hno hz hcount, List.append_nil]
  · rw [hno hz hcount.symm, List.append_nil]

theorem name_parts (node_id suffix : String) (started_ms : Nat) :
    (export_stem node_id started_ms ++ suffix).toList = names_of node_id ++
      (utc_stamp (started_ms / 1000) ++ '-' :: pad 3 (started_ms % 1000) ++ suffix.toList) := by
  simp [export_stem]

theorem node_of_name {a b suffix : String} {s t : Nat}
    (h : export_stem a s ++ suffix = export_stem b t ++ suffix) : sanitize a = sanitize b := by
  have hlist := congrArg String.toList h
  rw [name_parts, name_parts, names_of, names_of, List.append_assoc _ ['-'],
    List.append_assoc _ ['-'], List.singleton_append, List.singleton_append] at hlist
  have hcount : ∀ u, (utc_stamp (u / 1000) ++ '-' :: pad 3 (u % 1000) ++ suffix.toList).count '-' =
      3 + suffix.toList.count '-' := fun u => by rw [List.count_append, count_stamp]
  have hfront := same_before_dash hlist ((hcount s).trans (hcount t).symm)
  simpa using hfront

theorem starts_with_own (node_id suffix : String) (started_ms : Nat) :
    starts_with (export_stem node_id started_ms ++ suffix) (names_of node_id) = true := by
  rw [starts_with, name_parts, List.isPrefixOf_iff_prefix]
  exact List.prefix_append _ _

theorem ends_with_own (stem suffix : String) : ends_with (stem ++ suffix) suffix = true := by
  rw [ends_with, List.isSuffixOf_iff_suffix, String.toList_append]
  exact List.suffix_append _ _

theorem ends_once {name : String} (h : ends_with name SUFFIX = true) :
    ends_with name PARTIAL_SUFFIX = false := by
  rw [Bool.eq_false_iff]
  intro hp
  have hboth := List.suffix_or_suffix_of_suffix (List.isSuffixOf_iff_suffix.mp h)
    (List.isSuffixOf_iff_suffix.mp hp)
  exact absurd hboth (by decide)

theorem counted_final (node_id : String) (started_ms : Nat) :
    counted node_id (final_name node_id started_ms) = true := by
  rw [counted, final_name, starts_with_own, ends_with_own]
  rfl

/-! ## The newest of a list -/

section newest
variable {α : Type} {l : List α} {own : α → Bool} {age : α → Nat}

/-- The last of a list are the newest of its own, however many are asked for, exactly when
nothing but newer ones of its own comes after one of its own. -/
theorem newest_last_iff (hd : l.Nodup) :
    (∀ k, 1 ≤ k → ∀ x ∈ l, own x = true →
      (l.filter fun y => own y && decide (age x < age y)).length < k → x ∈ l.drop (l.length - k)) ↔
    l.Pairwise fun x y => own x = true → own y = true ∧ age x < age y := by
  constructor
  · intro h
    rw [List.pairwise_iff_getElem]
    intro i j hi hj hij hown
    have hlast := h _ (Nat.le_add_left 1 _) l[i] (List.getElem_mem hi) hown (Nat.lt_succ_self _)
    generalize hn : l.filter (fun y => own y && decide (age l[i] < age y)) = newer at *
    have hmem : ∀ z, z ∈ newer ↔ z ∈ l ∧ own z = true ∧ age l[i] < age z := by
      intro z
      simp [← hn]
    -- A newer one has fewer newer than itself, so that the newer ones are the last of the list.
    have hin : newer ⊆ l.drop (l.length - newer.length) := by
      intro z hz
      obtain ⟨hzl, hzown, hage⟩ := (hmem z).mp hz
      have hfilter : (l.filter fun y => own y && decide (age z < age y)) =
          newer.filter fun y => decide (age z < age y) := by
        rw [← hn, List.filter_filter]
        refine List.filter_congr (fun y _ => ?_)
        by_cases hy : age z < age y
        · simp [hy, lt_trans hage hy]
        · simp [hy]
      have hless : (l.filter fun y => own y && decide (age z < age y)).length < newer.length := by
        rw [hfilter, List.length_filter_lt_length_iff_exists]
        exact ⟨z, hz, by simp⟩
      exact h _ (by omega) z hzl hzown hless
    have hperm : newer.Perm (l.drop (l.length - newer.length)) := by
      refine List.Subperm.perm_of_length_le (List.subperm_of_subset ?_ hin) ?_
      · rw [← hn]
        exact hd.filter _
      · rw [List.length_drop]
        omega
    obtain ⟨n, hnl, hni⟩ := List.mem_drop_iff_getElem.mp hlast
    have hidx := (hd.getElem_inj_iff).mp hni
    have hj' : l[j] ∈ l.drop (l.length - newer.length) := by
      refine List.mem_drop_iff_getElem.mpr ⟨j - (l.length - newer.length), ?_, ?_⟩
      · omega
      · congr 1
        omega
    exact ((hmem _).mp (hperm.mem_iff.mpr hj')).2
  · intro h k hk x hx hown hlen
    obtain ⟨l₁, l₂, rfl⟩ := List.append_of_mem hx
    have hafter : ∀ y ∈ l₂, (own y && decide (age x < age y)) = true := by
      intro y hy
      have hy' := (List.pairwise_cons.mp (List.pairwise_append.mp h).2.1).1 y hy hown
      simp [hy'.1, hy'.2]
    have hle : l₂.length ≤ ((l₁ ++ x :: l₂).filter fun y =>
        own y && decide (age x < age y)).length := by
      have hsub : l₂.Sublist (l₁ ++ x :: l₂) :=
        (List.sublist_cons_self x l₂).trans (List.sublist_append_right l₁ _)
      calc l₂.length = (l₂.filter fun y => own y && decide (age x < age y)).length := by
            rw [List.filter_eq_self.mpr hafter]
        _ ≤ _ := (hsub.filter _).length_le
    rw [List.drop_append_of_le_length (by simp; omega)]
    exact List.mem_append_right _ List.mem_cons_self

theorem last_own (h : l.Pairwise fun x y => own x = true → own y = true ∧ age x < age y) {x o : α}
    (ho : o ∈ l) (hown : own o = true) (hx : x ∈ l.drop (l.length - 1)) : own x = true := by
  obtain ⟨n, hn, rfl⟩ := List.mem_drop_iff_getElem.mp hx
  obtain ⟨i, hi, rfl⟩ := List.getElem_of_mem ho
  rcases lt_or_ge i (l.length - 1 + n) with hlt | hge
  · exact (List.pairwise_iff_getElem.mp h _ _ _ _ hlt hown).1
  · have heq : l.length - 1 + n = i := by omega
    simpa [heq] using hown

end newest

/-! ## What a run removes -/

section removes
variable {remove_fails : String → Bool} {dir : Dir} {node_id : String} {keep : Nat}

theorem get_removed (names : List String) (name : String) :
    (names.foldl (remove_file remove_fails) dir)[name]? =
      if name ∈ names ∧ remove_fails name = false then none else dir[name]? := by
  induction names generalizing dir with
  | nil => simp
  | cons n names ih =>
    rw [List.foldl_cons, ih]
    have hone : (remove_file remove_fails dir n)[name]? =
        if name = n ∧ remove_fails name = false then none else dir[name]? := by
      unfold remove_file
      by_cases hf : remove_fails n = true
      · rw [if_pos hf, if_neg]
        rintro ⟨rfl, h⟩
        rw [hf] at h
        cases h
      · rw [if_neg hf, BTreeMap.get_erase]
        by_cases hn : n = name
        · subst hn
          simp [hf]
        · simp [hn, Ne.symm hn]
    rw [hone]
    by_cases hf : remove_fails name = false
    · by_cases hn : name = n
      · subst hn
        simp [hf]
      · simp [hn]
    · simp [hf]

theorem get_cleaned (name : String) : (clean_stale_partials remove_fails dir node_id)[name]? =
    if stale node_id name = true ∧ remove_fails name = false then none else dir[name]? := by
  unfold clean_stale_partials
  rw [get_removed]
  cases hname : dir[name]? with
  | none => simp
  | some file =>
    have hkey := (BTreeMap.mem_keys dir name).mpr ⟨file, hname⟩
    simp [List.mem_filter, hkey]

theorem get_pruned (name : String) : (prune remove_fails dir node_id keep)[name]? =
    if name ∈ (exports_of dir node_id).take ((exports_of dir node_id).length - max keep 1) ∧
      remove_fails name = false then none else dir[name]? := by
  unfold prune
  dsimp only
  split
  · rename_i hle
    rw [Nat.sub_eq_zero_of_le hle]
    simp
  · rw [get_removed]

theorem exports_counted {name : String} (h : name ∈ exports_of dir node_id) :
    counted node_id name = true := by
  obtain ⟨x, hx, rfl⟩ := List.mem_map.mp h
  exact (List.mem_filter.mp hx).2

end removes

def with_export (dir : Dir) (node_id : String) (started_ms : Nat) (text : Bytes) : Dir :=
  dir.insert (final_name node_id started_ms) ⟨started_ms, text⟩

/-- The directory between the publishing and the pruning. -/
def published (host : Host) (node_id : String) (dir : Dir) (started_ms : Nat) (text : Bytes) : Dir :=
  (((clean_stale_partials host.remove_fails dir node_id).insert (partial_name node_id started_ms)
    ⟨started_ms, text⟩).erase (partial_name node_id started_ms)).insert
      (final_name node_id started_ms) ⟨started_ms, text⟩

section runs
variable {host : Host} {node_id : String} {keep : Nat} {dir : Dir} {started_ms : Nat} {text : Bytes}

theorem published_get (name : String) : (published host node_id dir started_ms text)[name]? =
    if final_name node_id started_ms = name then some ⟨started_ms, text⟩
    else if partial_name node_id started_ms = name then none
    else (clean_stale_partials host.remove_fails dir node_id)[name]? := by
  rw [published, BTreeMap.get_insert, BTreeMap.get_erase, BTreeMap.get_insert]
  split
  · rfl
  · split
    · rfl
    · rfl

theorem run_cases (host : Host) (node_id : String) (keep : Nat) (dir : Dir) :
    (∃ e, run_export host node_id keep dir = (.error e, dir)) ∨
    (∃ e, run_export host node_id keep dir =
      (.error e, clean_stale_partials host.remove_fails dir node_id)) ∨
    (∃ e s left, run_export host node_id keep dir = (.error e,
      (clean_stale_partials host.remove_fails dir node_id).insert (partial_name node_id s)
        ⟨s, left⟩)) ∨
    ∃ s text, host.body s = some text ∧ run_export host node_id keep dir =
      (.ok s, prune host.remove_fails (published host node_id dir s text) node_id keep) := by
  unfold run_export
  split
  · exact .inl ⟨_, rfl⟩
  dsimp only
  split
  · exact .inr (.inl ⟨_, rfl⟩)
  rename_i s hfree
  split
  · exact .inr (.inl ⟨_, rfl⟩)
  · exact .inr (.inl ⟨_, rfl⟩)
  · exact .inr (.inr (.inl ⟨_, _, _, rfl⟩))
  rename_i text hbody htorn
  split
  · exact .inr (.inr (.inl ⟨_, _, _, rfl⟩))
  split
  · exact .inr (.inr (.inl ⟨_, _, _, rfl⟩))
  exact .inr (.inr (.inr ⟨s, text, hbody, rfl⟩))

theorem run_frame {name : String} (h : starts_with name (names_of node_id) = false) :
    (run_export host node_id keep dir).2[name]? = dir[name]? := by
  have hclean : (clean_stale_partials host.remove_fails dir node_id)[name]? = dir[name]? := by
    rw [get_cleaned, if_neg]
    simp [stale, h]
  have hne : ∀ s, final_name node_id s ≠ name ∧ partial_name node_id s ≠ name := by
    intro s
    refine ⟨?_, ?_⟩
    · rintro rfl
      simp [final_name, starts_with_own] at h
    · rintro rfl
      simp [partial_name, starts_with_own] at h
  rcases run_cases host node_id keep dir with ⟨e, he⟩ | ⟨e, he⟩ | ⟨e, s, left, he⟩ | ⟨s, text, -, he⟩
  · rw [he]
  · rw [he]
    exact hclean
  · rw [he, BTreeMap.get_insert, if_neg (hne s).2]
    exact hclean
  · have hnot : name ∉ (exports_of (published host node_id dir s text) node_id).take
        ((exports_of (published host node_id dir s text) node_id).length - max keep 1) := by
      intro hmem
      have hc := exports_counted (List.mem_of_mem_take hmem)
      rw [counted, h] at hc
      cases hc
    rw [he, get_pruned, if_neg (fun hn => hnot hn.1), published_get, if_neg (hne s).1,
      if_neg (hne s).2]
    exact hclean

theorem run_publishes (hfree : dir[final_name node_id started_ms]? = none)
    (hhost : host = { clock := fun _ => started_ms, body := fun _ => some text }) :
    run_export host node_id keep dir =
      (.ok started_ms, prune host.remove_fails (published host node_id dir started_ms text) node_id
        keep) := by
  subst hhost
  have hclean : ∀ name : String, dir[name]? = none ∨ stale node_id name = true →
      (clean_stale_partials (fun _ => false) dir node_id)[name]? = none := by
    intro name hname
    rw [get_cleaned]
    rcases hname with hnone | hstale
    · rw [hnone, ite_self]
    · rw [if_pos ⟨hstale, rfl⟩]
  have hfinal := hclean _ (.inl hfree)
  have hpartial := hclean (partial_name node_id started_ms) (.inr (by
    rw [stale, partial_name, starts_with_own, ends_with_own]
    rfl))
  have hne : partial_name node_id started_ms ≠ final_name node_id started_ms := by
    intro heq
    have hends := ends_once (ends_with_own (export_stem node_id started_ms) SUFFIX)
    rw [← final_name, ← heq, partial_name, ends_with_own] at hends
    cases hends
  have hstart : free_export_start (fun _ => started_ms)
      (clean_stale_partials (fun _ => false) dir node_id) node_id NAME_WAIT_MAX_MS 0 =
        some started_ms := by
    rw [NAME_WAIT_MAX_MS, free_export_start, export_name_taken, hfinal, hpartial]
    rfl
  unfold run_export
  simp [hstart, BTreeMap.get_insert, hne, hfinal, published]

end runs

/-! ## Whose files a run touches -/

/-- The finished and the partial exports of the node are as they were. -/
def Untouched (node_id : String) (dir dir' : Dir) : Prop :=
  ∀ started name file, name = final_name node_id started ∨ name = partial_name node_id started →
    dir[name]? = some file → dir'[name]? = some file

/-- A file that is an export of the node, by its name and its header. -/
def own (node_id : String) (x : String × DirFile) : Bool :=
  x.1 = final_name node_id x.2.created_unix_ms

/-- The newest exports of the node, as many as are kept, are there still. -/
def NewestKept (node_id : String) (keep : Nat) (dir dir' : Dir) : Prop :=
  ∀ x ∈ dir.toList, own node_id x = true →
    (dir.toList.filter fun y => own node_id y &&
      decide (x.2.created_unix_ms < y.2.created_unix_ms)).length < keep → dir'[x.1]? = some x.2

/-- No export of `b` has a name that starts as those of `a` do. -/
def Parted (dir : Dir) (a b : String) : Prop :=
  ∀ started name file, name = final_name b started ∨ name = partial_name b started →
    dir[name]? = some file → starts_with name (names_of a) = false

/-- Of the files that are counted as exports of the node, only later exports of the node sort
after one. -/
def InOrder (dir : Dir) (node_id : String) : Prop :=
  (counted_files dir node_id).Pairwise fun x y =>
    own node_id x = true → own node_id y = true ∧ x.2.created_unix_ms < y.2.created_unix_ms

section whose
variable {host : Host} {a b : String} {keep : Nat} {dir : Dir} {started_ms : Nat} {text : Bytes}

theorem mem_counted {x : String × DirFile} :
    x ∈ counted_files dir a ↔ dir[x.1]? = some x.2 ∧ counted a x.1 = true := by
  rw [counted_files, List.mem_filter, ← BTreeMap.mem_toList]

theorem counted_sorted : (counted_files dir a).Pairwise fun x y => x.1 < y.1 :=
  dir.toList_sorted.filter _

theorem published_counted : counted_files (published host a dir started_ms text) a =
    counted_files (with_export dir a started_ms text) a := by
  have hlist : ∀ d : Dir, counted_files d a = (d.filter fun n _ => counted a n).toList := by
    intro d
    refine (BTreeMap.toList_unique counted_sorted ?_).symm
    intro k v
    rw [mem_counted, BTreeMap.get_filter, Option.filter_eq_some_iff]
  rw [hlist, hlist]
  congr 1
  refine BTreeMap.ext (fun name => ?_)
  rw [BTreeMap.get_filter, BTreeMap.get_filter, published_get, with_export,
    BTreeMap.get_insert, get_cleaned]
  by_cases hc : counted a name = true
  · have hends := ends_once (Bool.and_eq_true_iff.mp hc).2
    have hne : partial_name a started_ms ≠ name := by
      rintro rfl
      rw [partial_name, ends_with_own] at hends
      cases hends
    simp [hne, stale, hends]
  · simp [hc]

theorem pruned_get {remove_fails : String → Bool} {x : String × DirFile}
    (hx : x ∈ counted_files dir a) :
    (prune remove_fails dir a keep)[x.1]? =
      if x ∉ (counted_files dir a).drop
          ((counted_files dir a).length - max keep 1) ∧
        remove_fails x.1 = false then none else some x.2 := by
  have hget := (mem_counted.mp hx).1
  have hsorted := @counted_sorted a dir
  rw [get_pruned, hget, exports_of, List.length_map, ← List.map_take]
  generalize (counted_files dir a) = files at hx hsorted ⊢
  generalize files.length - max keep 1 = n
  rw [← List.take_append_drop n files] at hx hsorted
  -- The names of the two parts differ.
  have hparts : x.1 ∈ (files.take n).map Prod.fst ↔ x ∉ files.drop n := by
    constructor
    · intro hmem hdrop
      obtain ⟨y, hy, hyx⟩ := List.mem_map.mp hmem
      exact absurd hyx (ne_of_lt ((List.pairwise_append.mp hsorted).2.2 y hy x hdrop))
    · intro hnot
      exact List.mem_map_of_mem ((List.mem_append.mp hx).resolve_right hnot)
  simp only [hparts]

theorem own_counted {x : String × DirFile} (h : own a x = true) : counted a x.1 = true := by
  rw [of_decide_eq_true h]
  exact counted_final a _

theorem newer_counted (age : Nat) : ((counted_files dir a).filter fun y =>
    own a y && decide (age < y.2.created_unix_ms)) =
      dir.toList.filter fun y => own a y && decide (age < y.2.created_unix_ms) := by
  rw [counted_files, List.filter_filter]
  refine List.filter_congr (fun y _ => ?_)
  by_cases h : own a y = true
  · simp [h, own_counted h]
  · simp [h]

theorem counted_nodup : (counted_files dir a).Nodup :=
  counted_sorted.imp fun h heq => absurd (congrArg Prod.fst heq) (ne_of_lt h)

theorem kept_of_order (h : InOrder (with_export dir a started_ms text) a) :
    NewestKept a keep (with_export dir a started_ms text)
      (prune host.remove_fails (published host a dir started_ms text) a keep) := by
  intro x hx hown hlen
  have hin : x ∈ counted_files (with_export dir a started_ms text) a :=
    List.mem_filter.mpr ⟨hx, own_counted hown⟩
  have hlast := (newest_last_iff counted_nodup).mpr h (max keep 1) (le_max_right _ _) x hin hown
    (by rw [newer_counted]; exact lt_of_lt_of_le hlen (le_max_left _ _))
  rw [← @published_counted host] at hin hlast
  rw [pruned_get hin, if_neg (fun hn => hn.1 hlast)]

/-- And only then. -/
theorem order_of_kept (hhost : host.remove_fails = fun _ => false)
    (h : ∀ keep, NewestKept a keep (with_export dir a started_ms text)
      (prune host.remove_fails (published host a dir started_ms text) a keep)) :
    InOrder (with_export dir a started_ms text) a := by
  refine (newest_last_iff counted_nodup).mp ?_
  intro k hk x hx hown hlen
  have hkept := h k x (List.mem_filter.mp hx).1 hown (by rw [← newer_counted]; exact hlen)
  rw [← @published_counted host] at hx ⊢
  rw [pruned_get hx, hhost, max_eq_left hk] at hkept
  by_contra hnot
  rw [if_pos ⟨hnot, rfl⟩] at hkept
  cases hkept

theorem parted_of_untouched (hab : sanitize a ≠ sanitize b)
    (hhost : host.remove_fails = fun _ => false)
    (horder : InOrder (with_export dir a started_ms text) a)
    (h : Untouched b dir
      (prune host.remove_fails (published host a dir started_ms text) a 1)) : Parted dir a b := by
  rintro s name file hname hget
  have hkept := h s name file hname hget
  rw [Bool.eq_false_iff]
  intro hstarts
  rcases hname with rfl | rfl
  · -- It is the last file, as the run keeps only that, and so it is an export of `a`.
    have hne : final_name a started_ms ≠ final_name b s := fun heq => hab (node_of_name heq)
    have hx : (final_name b s, file) ∈ counted_files (with_export dir a started_ms text) a := by
      rw [mem_counted, with_export, BTreeMap.get_insert, if_neg hne, counted, hstarts,
        Bool.true_and, final_name, ends_with_own]
      exact ⟨hget, rfl⟩
    have ho : (final_name a started_ms, ⟨started_ms, text⟩) ∈
        counted_files (with_export dir a started_ms text) a := by
      rw [mem_counted, with_export, BTreeMap.get_insert, if_pos rfl]
      exact ⟨rfl, counted_final a started_ms⟩
    have hpruned := @pruned_get a 1 (published host a dir started_ms text) host.remove_fails
      (final_name b s, file)
    rw [published_counted, hhost] at hpruned
    rw [hhost, hpruned hx] at hkept
    split at hkept
    · cases hkept
    · rename_i hnot
      have hlast := not_not.mp fun hgone => hnot ⟨hgone, rfl⟩
      have hown := last_own horder ho (decide_eq_true rfl) hlast
      exact hab (node_of_name (of_decide_eq_true hown)).symm
  · have hends := ends_with_own (export_stem b s) PARTIAL_SUFFIX
    have hstale : stale a (partial_name b s) = true := by
      rw [stale, hstarts, partial_name, hends]
      rfl
    have hne : final_name a started_ms ≠ partial_name b s := by
      intro heq
      rw [← partial_name, ← heq, final_name, ends_once (ends_with_own _ _)] at hends
      cases hends
    rw [get_pruned, published_get, get_cleaned, if_neg hne, hhost] at hkept
    simp [hstale] at hkept

end whose

/-- A rotation leaves the files of the other node alone and keeps the newest of its own exactly
when no file of the other is named as its own, and nothing but its own later exports sorts after
one of its exports. -/
theorem a_rotation_keeps_to_its_node_when_names_part (dir : Dir) (a b : String) (started : Nat)
    (hab : sanitize a ≠ sanitize b) (hfree : dir[final_name a started]? = none) :
    ((∀ host keep, Untouched b dir (run_export host a keep dir).2) ∧
      ∀ host keep text, host.body started = some text →
        (run_export host a keep dir).1 = .ok started →
          NewestKept a keep (with_export dir a started text)
            (run_export host a keep dir).2) ↔
    Parted dir a b ∧ ∀ text, InOrder (with_export dir a started text) a := by
  constructor
  · rintro ⟨huntouched, hnewest⟩
    have hruns := fun keep text => @run_publishes _ a keep dir started text hfree rfl
    have horder : ∀ text, InOrder (with_export dir a started text) a := by
      intro text
      refine @order_of_kept { clock := fun _ => started, body := fun _ => some text } _ _ _ _ rfl ?_
      intro keep
      have hkept := hnewest _ keep text rfl (congrArg Prod.fst (hruns keep text))
      rwa [hruns keep text] at hkept
    have hb := huntouched { clock := fun _ => started, body := fun _ => some [] } 1
    rw [hruns 1 []] at hb
    exact ⟨parted_of_untouched hab rfl (horder []) hb, horder⟩
  · rintro ⟨hparted, horder⟩
    refine ⟨?_, ?_⟩
    · intro host keep s name file hname hget
      rw [run_frame (hparted s name file hname hget)]
      exact hget
    · intro host keep text hbody hok
      rcases run_cases host a keep dir with ⟨e, he⟩ | ⟨e, he⟩ | ⟨e, s, left, he⟩ | ⟨s, t, ht, he⟩
      · simp [he] at hok
      · simp [he] at hok
      · simp [he] at hok
      · rw [he] at hok ⊢
        cases hok
        cases ht.symm.trans hbody
        exact kept_of_order (horder _)

theorem a_rotation_of_one_node_keeps_the_file_of_another :
    sanitize "n" ≠ sanitize "m" ∧ (with_export ∅ "m" 5 [1])[final_name "n" 7]? = none ∧
      ∀ host keep, Untouched "m" (with_export ∅ "m" 5 [1])
        (run_export host "n" keep (with_export ∅ "m" 5 [1])).2 := by
  refine ⟨by decide, by decide +kernel, ((a_rotation_keeps_to_its_node_when_names_part _ "n" "m" 7
    (by decide) (by decide +kernel)).mpr ⟨?_, ?_⟩).1⟩
  · intro s name file hname hget
    rw [with_export, BTreeMap.get_insert] at hget
    split at hget
    · rename_i heq
      rw [← heq]
      decide +kernel
    · simp at hget
  · intro text
    have hone : ∀ x ∈ counted_files (with_export (with_export ∅ "m" 5 [1]) "n" 7 text) "n",
        x.1 = final_name "n" 7 := by
      intro x hx
      obtain ⟨hget, hcounted⟩ := mem_counted.mp hx
      rw [with_export, with_export, BTreeMap.get_insert, BTreeMap.get_insert] at hget
      by_contra hne
      rw [if_neg (Ne.symm hne)] at hget
      split at hget
      · rename_i heq
        rw [← heq] at hcounted
        exact absurd hcounted (by decide +kernel)
      · simp at hget
    refine counted_sorted.imp_of_mem ?_
    intro x y hx hy hlt
    rw [hone x hx, hone y hy] at hlt
    exact absurd hlt (lt_irrefl _)

/-- The node `n` takes the files of the node `n-1` for its own. -/
theorem a_rotation_removes_the_export_of_a_longer_id :
    let dir := with_export (with_export ∅ "n-1" 1790000000000 [1]) "n" 1790000000001 [2]
    sanitize "n" ≠ sanitize "n-1" ∧ ¬ Untouched "n-1" dir (run_export
      { clock := fun _ => 1790000000002, body := fun _ => some [3] } "n" 2 dir).2 := by
  refine ⟨by decide, ?_⟩
  intro h
  have hkept := h 1790000000000 (final_name "n-1" 1790000000000) ⟨1790000000000, [1]⟩ (.inl rfl)
    (by decide +kernel)
  exact absurd hkept (by decide +kernel)

end mqttd.backup
