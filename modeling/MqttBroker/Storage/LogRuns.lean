-- Runs of the log on disk: appends that wait, batches that are committed or
-- fail, reads and changes between them, and restarts. The calls that are not
-- refused are answered as by the log in memory.
import MqttBroker.Storage.LogTwins

namespace mqtt_storage.repl

/-! ## Calls one after the other -/

namespace InMemoryReplicatedLog

def after (m : InMemoryReplicatedLog) (calls : List Call) : InMemoryReplicatedLog :=
  calls.foldl (fun m c => (m.call c).1) m

theorem answers_append (m : InMemoryReplicatedLog) (calls later : List Call) :
    m.answers (calls ++ later) = m.answers calls ++ (m.after calls).answers later := by
  induction calls generalizing m with
  | nil => simp [answers, after]
  | cons c calls ih =>
    rw [List.cons_append, answers, answers, ih, List.cons_append]
    simp [after]

theorem after_append (m : InMemoryReplicatedLog) (calls later : List Call) :
    m.after (calls ++ later) = (m.after calls).after later := by
  unfold after
  rw [List.foldl_append]

end InMemoryReplicatedLog

end mqtt_storage.repl

namespace mqtt_storage.persistent_log

open mqtt_storage.repl
open PersistentLog (Event step run fail_all assign_all)

/-! ## What a run answers -/

def isError : Answer → Bool
  | .Error _ => true
  | _ => false

def served (answered : List (Call × Answer)) : List (Call × Answer) :=
  answered.filter (fun a => !isError a.2)

theorem served_append (answered later : List (Call × Answer)) :
    served (answered ++ later) = served answered ++ served later := by
  simp [served]

/-- The keys fit their prefix, and the offsets that are asked for are no last ones. -/
def PersistentLog.Event.Fits : Event → Prop
  | .append key _ => Short key
  | .read key after _ => Short key ∧ after < U64_MAX
  | .live_range key => Short key
  | .truncate key up_to => Short key ∧ up_to < U64_MAX
  | .remove key => Short key
  | .batch _ _ | .keys | .reopen | .crash => True

def PersistentLog.Event.Fails : Event → Prop
  | .batch _ (some _) => True
  | _ => False

/-- No append was given the last offset. -/
def Numbered (answered : List (Call × Answer)) : Prop :=
  ∀ a ∈ answered, ∀ o, a.2 = .Offset o → o < U64_MAX

/-- The calls that were not refused are answered as the log in memory answers them, which is then
another one. -/
def Replays (m : InMemoryReplicatedLog) (answered : List (Call × Answer))
    (m' : InMemoryReplicatedLog) : Prop :=
  m.answers ((served answered).map Prod.fst) = (served answered).map Prod.snd ∧
    m.after ((served answered).map Prod.fst) = m'

structure Together (m : InMemoryReplicatedLog) (s : PersistentLog) : Prop where
  mirrors : Mirrors m s.db
  queued : ∀ job ∈ s.queue, Short job.key
  stamped : s.db.version = some SCHEMA_VERSION

section

variable {m m' m'' : InMemoryReplicatedLog} {s s' : PersistentLog}
variable {answered later : List (Call × Answer)}

theorem replays_nil (m : InMemoryReplicatedLog) : Replays m [] m := by
  simp [Replays, served, InMemoryReplicatedLog.answers, InMemoryReplicatedLog.after]

theorem Replays.append (h : Replays m answered m') (h' : Replays m' later m'') :
    Replays m (answered ++ later) m'' := by
  obtain ⟨hanswers, hafter⟩ := h
  obtain ⟨hanswers', hafter'⟩ := h'
  unfold Replays
  rw [served_append, List.map_append, List.map_append, InMemoryReplicatedLog.answers_append,
    InMemoryReplicatedLog.after_append, hanswers, hafter, hanswers', hafter']
  exact ⟨rfl, rfl⟩

theorem replays_call {c : Call} {a : Answer} (h : m.call c = (m', a)) (ha : isError a = false) :
    Replays m [(c, a)] m' := by
  simp [Replays, served, ha, InMemoryReplicatedLog.answers, InMemoryReplicatedLog.after, h]

theorem Numbered.append_left (h : Numbered (answered ++ later)) : Numbered answered :=
  fun a ha => h a (List.mem_append_left _ ha)

theorem Numbered.append_right (h : Numbered (answered ++ later)) : Numbered later :=
  fun a ha => h a (List.mem_append_right _ ha)

/-! ## One batch -/

variable {db : Database}

/-- The appends of a batch are answered as in memory, one after the other. -/
theorem replays_assign_all {jobs : List AppendJob} (h : Mirrors m db)
    (hjobs : ∀ job ∈ jobs, Short job.key) (hn : Numbered (assign_all db jobs).2) :
    ∃ m', Replays m (assign_all db jobs).2 m' ∧ Mirrors m' (assign_all db jobs).1 := by
  induction jobs generalizing m db with
  | nil => exact ⟨m, replays_nil m, h⟩
  | cons job jobs ih =>
    have hbelow : (db.assign job.key job.record).2 < U64_MAX :=
      hn _ List.mem_cons_self _ rfl
    obtain ⟨hanswer, hmirrors⟩ := h.assign (hjobs job List.mem_cons_self) job.record hbelow
    obtain ⟨m', hreplays, hlast⟩ := ih hmirrors (fun j hj => hjobs j (List.mem_cons_of_mem _ hj))
      (fun a ha => hn a (List.mem_cons_of_mem _ ha))
    refine ⟨m', ?_, hlast⟩
    have hfirst : Replays m [(job.call, .Offset (db.assign job.key job.record).2)]
        (m.append job.key job.record).1 := by
      apply replays_call _ (by simp [isError])
      rw [← hanswer]
      rfl
    exact hfirst.append hreplays

theorem version_assign_all (db : Database) (jobs : List AppendJob) :
    (assign_all db jobs).1.version = db.version := by
  induction jobs generalizing db with
  | nil => simp [assign_all]
  | cons job jobs ih =>
    rw [assign_all]
    exact ih _

theorem served_assign_all (db : Database) (jobs : List AppendJob) :
    served (assign_all db jobs).2 = (assign_all db jobs).2 := by
  induction jobs generalizing db with
  | nil => simp [assign_all, served]
  | cons job jobs ih =>
    have hrest := ih (db.assign job.key job.record).1
    unfold served at hrest ⊢
    rw [assign_all]
    simpa [isError] using hrest

theorem fail_all_spec (fault : Fault) (jobs : List AppendJob) :
    (fail_all fault jobs).map Prod.fst = jobs.map AppendJob.call ∧
      ∀ a ∈ fail_all fault jobs, isError a.2 = true := by
  unfold fail_all
  constructor
  · rw [List.map_append, List.map_map, List.map_map]
    conv_rhs => rw [← List.take_append_drop fault.reached jobs, List.map_append]
    rfl
  · intro a ha
    rcases List.mem_append.mp ha with ha | ha
    · obtain ⟨job, -, rfl⟩ := List.mem_map.mp ha
      simp [isError]
    · obtain ⟨job, -, rfl⟩ := List.mem_map.mp ha
      simp [isError]

theorem served_fail_all (fault : Fault) (jobs : List AppendJob) :
    served (fail_all fault jobs) = [] := by
  unfold served
  rw [List.filter_eq_nil_iff]
  intro a ha
  simp [(fail_all_spec fault jobs).2 a ha]

theorem replays_fail_all (m : InMemoryReplicatedLog) (fault : Fault) (jobs : List AppendJob) :
    Replays m (fail_all fault jobs) m := by
  have hnil := replays_nil m
  unfold Replays at hnil ⊢
  rw [served_fail_all]
  exact hnil

/-! ## One event -/

theorem step_batch {n : Nat} {fault : Option Fault}
    (h : s.step (.batch n fault) = some (s', answered)) :
    (fault = none ∧ answered = (assign_all s.db (s.queue.take n)).2 ∧
      s' = ⟨(assign_all s.db (s.queue.take n)).1, s.queue.drop n⟩) ∨
    ∃ why, fault = some why ∧ answered = fail_all why (s.queue.take n) ∧
      s' = { s with queue := s.queue.drop n } := by
  rw [step] at h
  split at h
  · cases h
  · cases fault with
    | none =>
      cases h
      exact Or.inl ⟨rfl, rfl, rfl⟩
    | some why =>
      cases h
      exact Or.inr ⟨why, rfl, rfl, rfl⟩

theorem open_stamped (hv : db.version = some SCHEMA_VERSION) :
    PersistentLog.open db = some { db } := by
  simp [PersistentLog.open, Database.gate_or_migrate, hv]

theorem step_reopen (hv : s.db.version = some SCHEMA_VERSION) (hq : s.queue = []) :
    s.step .reopen = some (s, []) := by
  obtain ⟨db, queue⟩ := s
  obtain rfl : queue = [] := hq
  simp [step, open_stamped hv]

variable {e : Event}

theorem Together.step (h : Together m s) (hfits : e.Fits) (hstep : s.step e = some (s', answered))
    (hn : Numbered answered) : ∃ m', Replays m answered m' ∧ Together m' s' := by
  cases e with
  | append key record =>
    cases hstep
    refine ⟨m, replays_nil m, h.mirrors, ?_, h.stamped⟩
    intro job hjob
    rcases List.mem_append.mp hjob with hjob | hjob
    · exact h.queued job hjob
    · rw [List.mem_singleton.mp hjob]
      exact hfits
  | batch n fault =>
    have hrest : ∀ job ∈ s.queue.drop n, Short job.key :=
      fun job hjob => h.queued job (List.mem_of_mem_drop hjob)
    rcases step_batch hstep with ⟨-, rfl, rfl⟩ | ⟨why, -, rfl, rfl⟩
    · obtain ⟨m', hreplays, hmirrors⟩ := replays_assign_all h.mirrors
        (fun job hjob => h.queued job (List.mem_of_mem_take hjob)) hn
      refine ⟨m', hreplays, hmirrors, hrest, ?_⟩
      rw [version_assign_all]
      exact h.stamped
    · exact ⟨m, replays_fail_all m why _, h.mirrors, hrest, h.stamped⟩
  | read key after limit =>
    cases hstep
    refine ⟨m, replays_call ?_ (by simp [isError]), h⟩
    rw [h.mirrors.read hfits.1 hfits.2]
    rfl
  | live_range key =>
    cases hstep
    refine ⟨m, replays_call ?_ (by simp [isError]), h⟩
    rw [h.mirrors.live_range hfits]
    rfl
  | truncate key up_to =>
    cases hstep
    exact ⟨m.truncate key up_to, replays_call rfl (by simp [isError]),
      h.mirrors.truncate hfits.1 hfits.2, h.queued, h.stamped⟩
  | remove key =>
    cases hstep
    exact ⟨m.remove key, replays_call rfl (by simp [isError]), h.mirrors.remove hfits, h.queued,
      h.stamped⟩
  | keys =>
    cases hstep
    refine ⟨m, replays_call ?_ (by simp [isError]), h⟩
    rw [h.mirrors.keys]
    rfl
  | reopen =>
    rw [PersistentLog.step] at hstep
    split at hstep
    · rename_i hq
      have hsame := step_reopen h.stamped (List.isEmpty_iff.mp hq)
      rw [PersistentLog.step, if_pos hq] at hsame
      rw [hsame] at hstep
      cases hstep
      exact ⟨m, replays_nil m, h⟩
    · cases hstep
  | crash =>
    rw [PersistentLog.step, open_stamped h.stamped] at hstep
    cases hstep
    exact ⟨m, replays_nil m, h.mirrors, by simp, h.stamped⟩

theorem served_step (hfails : ¬ e.Fails) (hstep : s.step e = some (s', answered)) :
    served answered = answered := by
  cases e with
  | append key record =>
    cases hstep
    simp [served]
  | batch n fault =>
    rcases step_batch hstep with ⟨-, rfl, -⟩ | ⟨why, rfl, -⟩
    · exact served_assign_all ..
    · exact absurd trivial hfails
  | reopen =>
    rw [PersistentLog.step] at hstep
    split at hstep
    · obtain ⟨opened, -, hopened⟩ := Option.map_eq_some_iff.mp hstep
      cases hopened
      simp [served]
    · cases hstep
  | crash =>
    obtain ⟨opened, -, hopened⟩ := Option.map_eq_some_iff.mp hstep
    cases hopened
    simp [served]
  | _ =>
    cases hstep
    simp [served, isError]

/-! ## Every run -/

variable {events : List Event} {all : List (Call × Answer)}

theorem run_cons (h : s.run (e :: events) = some (s', all)) :
    ∃ t answered later, s.step e = some (t, answered) ∧ t.run events = some (s', later) ∧
      all = answered ++ later := by
  rw [run] at h
  obtain ⟨⟨t, answered⟩, hstep, hrest⟩ := Option.bind_eq_some_iff.mp h
  obtain ⟨⟨t', later⟩, hrun, hlast⟩ := Option.bind_eq_some_iff.mp hrest
  cases hlast
  exact ⟨t, answered, later, hstep, hrun, rfl⟩

theorem Together.run (h : Together m s) (hfits : ∀ e ∈ events, e.Fits)
    (hrun : s.run events = some (s', answered)) (hn : Numbered answered) :
    ∃ m', Replays m answered m' ∧ Together m' s' := by
  induction events generalizing m s answered with
  | nil =>
    cases hrun
    exact ⟨m, replays_nil m, h⟩
  | cons e events ih =>
    obtain ⟨t, first, later, hstep, hrest, rfl⟩ := run_cons hrun
    obtain ⟨m1, hreplays1, h1⟩ := h.step (hfits e List.mem_cons_self) hstep hn.append_left
    obtain ⟨m2, hreplays2, h2⟩ := ih h1 (fun e' he => hfits e' (List.mem_cons_of_mem _ he)) hrest
      hn.append_right
    exact ⟨m2, hreplays1.append hreplays2, h2⟩

theorem run_split {before : List Event} {rest : List Event}
    (h : s.run (before ++ e :: rest) = some (s', all)) :
    ∃ t u answered here later, s.run before = some (t, answered) ∧ t.step e = some (u, here) ∧
      u.run rest = some (s', later) ∧ all = answered ++ here ++ later := by
  induction before generalizing s all with
  | nil =>
    obtain ⟨u, here, later, hstep, hrest, rfl⟩ := run_cons h
    exact ⟨s, u, [], here, later, rfl, hstep, hrest, by simp⟩
  | cons first before ih =>
    obtain ⟨t, answered, later, hstep, hrest, rfl⟩ := run_cons h
    obtain ⟨t', u, answered', here, later', hrun, hhere, hlater, rfl⟩ := ih hrest
    refine ⟨t', u, answered ++ answered', here, later', ?_, hhere, hlater, by simp⟩
    rw [run, hstep]
    simp [hrun]

theorem served_run (hfails : ∀ e ∈ events, ¬ e.Fails) (hrun : s.run events = some (s', answered)) :
    served answered = answered := by
  induction events generalizing s answered with
  | nil =>
    cases hrun
    simp [served]
  | cons e events ih =>
    obtain ⟨t, first, later, hstep, hrest, rfl⟩ := run_cons hrun
    rw [served_append, served_step (hfails e List.mem_cons_self) hstep,
      ih (fun e' he => hfails e' (List.mem_cons_of_mem _ he)) hrest]

end

def PersistentLog.fresh : PersistentLog := { db := { version := some SCHEMA_VERSION } }

theorem together_fresh : Together {} PersistentLog.fresh :=
  ⟨mirrors_empty _, by simp [PersistentLog.fresh], rfl⟩

/-- In every run over a new file, with batches and restarts anywhere, the calls that are not
refused are answered as the log in memory answers them. A batch that fails refuses each of its
appends and leaves the file as it was; nothing else is refused. A restart with nothing left to
drain is always possible. -/
theorem the_log_on_disk_equals_the_one_in_memory {events : List Event} {s : PersistentLog}
    {answered : List (Call × Answer)}
    (hrun : PersistentLog.fresh.run events = some (s, answered))
    (hfits : ∀ e ∈ events, e.Fits) (hn : Numbered answered) :
    InMemoryReplicatedLog.answers {} ((served answered).map Prod.fst) =
        (served answered).map Prod.snd ∧
      ((∀ e ∈ events, ¬ e.Fails) → served answered = answered) ∧
      (∀ before n fault rest, events = before ++ .batch n (some fault) :: rest →
        ∃ t u answeredBefore refused later,
          PersistentLog.fresh.run before = some (t, answeredBefore) ∧
          t.step (.batch n (some fault)) = some (u, refused) ∧
          u.run rest = some (s, later) ∧ answered = answeredBefore ++ refused ++ later ∧
          refused.map Prod.fst = (t.queue.take n).map AppendJob.call ∧
          (∀ a ∈ refused, isError a.2 = true) ∧ u.db = t.db) ∧
      (s.queue = [] → s.step .reopen = some (s, [])) := by
  obtain ⟨m, hreplays, hlast⟩ := together_fresh.run hfits hrun hn
  refine ⟨hreplays.1, fun hfails => served_run hfails hrun, ?_, step_reopen hlast.stamped⟩
  rintro before n fault rest rfl
  obtain ⟨t, u, answeredBefore, refused, later, hbefore, hstep, hrest, rfl⟩ := run_split hrun
  refine ⟨t, u, answeredBefore, refused, later, hbefore, hstep, hrest, rfl, ?_⟩
  rcases step_batch hstep with ⟨hnone, -⟩ | ⟨why, hwhy, rfl, rfl⟩
  · cases hnone
  · obtain rfl := Option.some.inj hwhy
    exact ⟨(fail_all_spec fault _).1, (fail_all_spec fault _).2, rfl⟩

/-- Two appends of which the second fails with a later one, and a restart. -/
def restartedRun : List Event :=
  [.append "a" [1], .append "b" [2], .batch 1 none, .append "a" [3],
    .batch 2 (some ⟨1, "disk full"⟩), .append "a" [4], .batch 1 none, .truncate "a" 1, .reopen,
    .read "a" 0 10, .keys]

/-- What the run answers: the failed batch took no offset. -/
def restartedAnswers : List (Call × Answer) :=
  [(.append "a" [1], .Offset 1),
    (.append "b" [2], .Error (.Backend "replicated-log backend error: disk full")),
    (.append "a" [3], .Error (.Backend "append writer dropped the job")),
    (.append "a" [4], .Offset 2), (.truncate "a" 1, .Done),
    (.read "a" 0 10, .Entries [⟨2, [4]⟩]), (.keys, .Keys ["a"])]

theorem the_failed_batch_is_never_seen :
    (∃ s, PersistentLog.fresh.run restartedRun = some (s, restartedAnswers)) ∧
      InMemoryReplicatedLog.answers {} ((served restartedAnswers).map Prod.fst) =
        (served restartedAnswers).map Prod.snd := by
  have hanswers : (PersistentLog.fresh.run restartedRun).map Prod.snd = some restartedAnswers := by
    decide +kernel
  obtain ⟨⟨s, answered⟩, hrun, hsame⟩ := Option.map_eq_some_iff.mp hanswers
  obtain rfl : answered = restartedAnswers := hsame
  refine ⟨⟨s, hrun⟩, (the_log_on_disk_equals_the_one_in_memory hrun ?_ ?_).1⟩
  · have hshort : Short "a" ∧ Short "b" := by
      unfold Short
      decide +kernel
    intro e he
    simp only [restartedRun, List.mem_cons, List.not_mem_nil, or_false] at he
    rcases he with rfl | rfl | rfl | rfl | rfl | rfl | rfl | rfl | rfl | rfl | rfl
    all_goals simp [PersistentLog.Event.Fits, hshort.1, hshort.2, U64_MAX]
  · intro a ha o ho
    simp only [restartedAnswers, List.mem_cons, List.not_mem_nil, or_false] at ha
    rcases ha with rfl | rfl | rfl | rfl | rfl | rfl | rfl
    all_goals cases ho
    all_goals decide

end mqtt_storage.persistent_log
