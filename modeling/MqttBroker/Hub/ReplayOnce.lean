-- A replayed publish is stored once for a session, as long as every earlier append of the same
-- publish has ended when the duplicate test comes to the end of the queue: the test reads what
-- is committed, and an append that is submitted is not.
import MqttBroker.Hub.LaneOrder
import MqttBroker.Hub.LaneReplay

namespace mqtt_storage.logged

open mqtt_storage.repl
open mqtt_cluster.cluster_log (Pipeline KeyState Append)
open CursorReader (Fault)

/-! ## What the duplicate test reads -/

def Readable (record : Bytes) : Prop := ∃ x, decode_queued record = .ok x

def originOf (record : Bytes) : Option PublishOrigin :=
  match decode_queued record with
  | .ok (_, _, origin) => origin
  | .error _ => none

/-- The committed records above an offset, as far as the log still has them. -/
def unread (log : Pipeline) (after : Nat) : List (Nat × Bytes) :=
  log.ks.entries.toList.filter (fun x => after < x.1 && x.1 ≤ log.ks.committed)

theorem mem_unread (log : Pipeline) (after o : Nat) (r : Bytes) :
    (o, r) ∈ unread log after ↔
      log.ks.entries[o]? = some r ∧ after < o ∧ o ≤ log.ks.committed := by
  unfold unread
  rw [List.mem_filter, BTreeMap.mem_toList]
  simp

theorem decode_encode {m : Message} {origin : Option PublishOrigin} (hfits : QueuedFits m origin)
    (expiry_at : Option U64) :
    decode_queued (encode_queued m expiry_at origin) = .ok (stored m, expiry_at, origin) := by
  have hwhole := decode_queuedCut expiry_at hfits .Origin
  rw [queuedCut_origin, List.take_length, messageAsOf_origin] at hwhole
  exact hwhole

theorem mapM_queued (xs : List (Nat × Bytes)) (hread : ∀ x ∈ xs, Readable x.2) :
    ∃ page, (xs.map (fun x => ({ offset := x.1, record := x.2 } : LogEntry))).mapM queued =
        .ok page ∧
      page.map (fun m => (m.offset, m.origin)) = xs.map (fun x => (x.1, originOf x.2)) := by
  induction xs with
  | nil => exact ⟨[], rfl, rfl⟩
  | cons x xs ih =>
    obtain ⟨page, hpage, horigins⟩ := ih (fun y hy => hread y (List.mem_cons_of_mem _ hy))
    obtain ⟨⟨message, expiry_at, origin⟩, hx⟩ := hread x List.mem_cons_self
    refine ⟨{ offset := x.1, message, expiry_at, origin } :: page, ?_, ?_⟩
    · rw [List.map_cons, List.mapM_cons, hpage]
      simp only [queued, hx]
      rfl
    · simp [horigins, originOf, hx]

theorem pending_spec {log : Pipeline} {after : Nat} (limit : Nat)
    (hread : ∀ (o : Nat) r, log.ks.entries[o]? = some r → Readable r)
    (hafter : after ≤ log.ks.committed) :
    ∃ page, pending log after limit = .ok page ∧
      page.map (fun m => (m.offset, m.origin)) =
        ((unread log after).take limit).map (fun x => (x.1, originOf x.2)) := by
  unfold pending
  rcases hkey : log.key with _ | ks
  · refine ⟨[], rfl, ?_⟩
    simp [unread, Pipeline.ks, hkey]
  · have hks : log.ks = ks := by simp [Pipeline.ks, hkey]
    have hsome : ks.read after limit = some (((unread log after).take limit).map
        (fun x => ({ offset := x.1, record := x.2 } : LogEntry))) := by
      unfold KeyState.read
      rw [if_neg (Nat.not_lt.mpr (hks ▸ hafter)), unread, hks]
    simp only [hsome]
    refine mapM_queued _ (fun x hx => ?_)
    have hmem := List.mem_of_mem_take hx
    exact hread x.1 x.2 ((mem_unread log after x.1 x.2).mp hmem).1

theorem unread_sorted (log : Pipeline) (after : Nat) :
    (unread log after).Pairwise (fun a b => a.1 < b.1) :=
  log.ks.entries.toList_sorted.filter _

theorem page_origins {log : Pipeline} {after : Nat} {page : List QueuedMessage}
    {origin : PublishOrigin} {limit : Nat}
    (hpage : page.map (fun m => (m.offset, m.origin)) =
      ((unread log after).take limit).map (fun x => (x.1, originOf x.2)))
    (hno : page.any (fun m => m.origin == some origin) = false) :
    ∀ x ∈ (unread log after).take limit, originOf x.2 ≠ some origin := by
  intro x hx heq
  have hmem : (x.1, originOf x.2) ∈ page.map (fun m => (m.offset, m.origin)) := by
    rw [hpage]
    exact List.mem_map_of_mem hx
  obtain ⟨m, hm, hmx⟩ := List.mem_map.mp hmem
  have hcopy : m.origin = some origin := by
    rw [← heq, ← (Prod.mk.inj hmx).2]
  rw [List.any_eq_false] at hno
  exact hno m hm (by simp [hcopy])

/-- A turn of the duplicate test finds a copy, goes on behind a full page, or comes to the end of
what is committed. -/
theorem holds_origin_spec {log : Pipeline} {after : Nat} (origin : PublishOrigin)
    (hread : ∀ (o : Nat) r, log.ks.entries[o]? = some r → Readable r)
    (hafter : after ≤ log.ks.committed) :
    holds_origin log origin after = .Answer (.ok true) ∨
    (∃ upTo, holds_origin log origin after = .Page upTo ∧ upTo ≤ log.ks.committed ∧
      ∀ x ∈ unread log after, x.1 ≤ upTo → originOf x.2 ≠ some origin) ∨
    (holds_origin log origin after = .Answer (.ok false) ∧ (unread log after).length < PAGE ∧
      ∀ x ∈ unread log after, originOf x.2 ≠ some origin) := by
  obtain ⟨page, hpending, hpage⟩ := pending_spec PAGE hread hafter
  unfold holds_origin
  rw [hpending]
  dsimp only
  by_cases hany : page.any (fun m => m.origin == some origin) = true
  · rw [if_pos hany]
    exact .inl rfl
  rw [if_neg hany]
  have hnone := page_origins hpage (by simpa using hany)
  have hlen : page.length = min PAGE (unread log after).length := by
    have hlen := congrArg List.length hpage
    simpa using hlen
  rcases hlast : page.getLast? with _ | last
  · refine .inr (.inr ⟨rfl, ?_⟩)
    have hnil := List.getLast?_eq_none_iff.mp hlast
    have hzero : (unread log after).length = 0 := by
      rw [hnil, List.length_nil] at hlen
      unfold PAGE at hlen
      omega
    refine ⟨by rw [hzero]; decide, fun x hx => ?_⟩
    rw [List.eq_nil_of_length_eq_zero hzero] at hx
    cases hx
  dsimp only
  by_cases hfull : page.length = PAGE
  · rw [if_pos hfull]
    -- the last message of the page is the last of the records that were taken
    have hlast' : ((unread log after).take PAGE).getLast?.map (fun x => x.1) =
        some last.offset := by
      have hmap := congrArg (fun l => l.getLast?.map Prod.fst) hpage
      simp only [List.getLast?_map, Option.map_map] at hmap
      rw [hlast] at hmap
      simpa [Function.comp_def] using hmap.symm
    obtain ⟨y, hy, hylast⟩ := Option.map_eq_some_iff.mp hlast'
    have hymem := List.mem_of_getLast? hy
    refine .inr (.inl ⟨last.offset, rfl, ?_, fun x hx hle => ?_⟩)
    · rw [← hylast]
      have hyun := List.mem_of_mem_take hymem
      exact ((mem_unread log after y.1 y.2).mp hyun).2.2
    · rw [← List.take_append_drop PAGE (unread log after)] at hx
      rcases List.mem_append.mp hx with hx | hx
      · exact hnone x hx
      · have hsorted := unread_sorted log after
        rw [← List.take_append_drop PAGE (unread log after), List.pairwise_append] at hsorted
        have hlt := hsorted.2.2 y hymem x hx
        rw [hylast] at hlt
        exact absurd hlt (Nat.not_lt.mpr hle)
  · rw [if_neg hfull]
    have hshort : (unread log after).length < PAGE := by
      rw [hlen] at hfull
      omega
    refine .inr (.inr ⟨rfl, hshort, fun x hx => hnone x ?_⟩)
    rw [List.take_of_length_le (Nat.le_of_lt hshort)]
    exact hx

end mqtt_storage.logged

namespace mqttd.hub.append_lane

open mqtt_storage
open mqtt_storage.logged
open mqtt_cluster.cluster_log (Pipeline Append KeyState)

/-! ## What is claimed of a session -/

/-- The append of a job, by its number. -/
def Fate.append? : Fate → Option Nat
  | .Appended append => some append
  | .Held | .Rejected => none

def HubCommand.held? : HubCommand → Option (AppendJob × Bool)
  | .AppendDone job outcome => some (job, outcome == .Held)
  | _ => none

def Completion.held (c : Completion) : AppendJob × Bool := (c.job, c.wait == .Finished .Held)

/-- The jobs that were answered, then those whose answers wait in the pipeline. -/
def Lane.answers (lane : Lane) : List (AppendJob × Bool) :=
  lane.posted.filterMap HubCommand.held? ++ lane.inflight.map Completion.held

/-- A job with the same publish as an earlier append is held, unless that append fails or its
record was truncated away. -/
def Once (log : Pipeline) (taken : List Taken) : Prop :=
  ∀ (k j : Nat) t u i a o, k < j → taken[k]? = some t → taken[j]? = some u →
    t.fate = .Appended i → log.appends[i]? = some a → t.job.origin = some o →
    u.job.origin = some o → u.job.dedupe = true → a.failed = false → u.low < a.offset →
    u.fate = .Held

/-- What holds in a session: a replay is held, a job that is held is answered so, and the log has
the appends of the other jobs and no more. -/
structure StoredOnce (s : Session) : Prop where
  held : Once s.queue.log s.taken
  answered : s.lane.answers = s.taken.map (fun t => (t.job, t.fate == .Held))
  appends : s.taken.filterMap (·.fate.append?) ++ (s.unpolled.map (·.1)).toList =
    List.range s.queue.log.appends.length

/-- The condition on a step: when the duplicate test reads the last page of the queue, every
earlier append of the publish has ended, or the page has a copy of it. -/
def Settled (s : Session) : SessionStep → Prop
  | .Read => ∀ job o, s.lane.worker = .Testing job o →
    (unread s.queue.log s.after).length < PAGE →
    (∀ t ∈ s.taken, ∀ i a, t.fate = .Appended i → t.job.origin = some o →
      s.queue.log.appends[i]? = some a → a.unresolved = false) ∨
    ∃ x ∈ unread s.queue.log s.after, originOf x.2 = some o
  | _ => True

def AllSettled (store : LoggedStore) (s : Session) : List SessionStep → Prop
  | [] => True
  | step :: steps => Settled s step ∧ AllSettled store (s.step store step) steps

/-! ## The log and the jobs that were taken -/

variable {store : LoggedStore} {log : Pipeline} {taken : List Taken}

/-- The earlier appends of a publish failed, or are truncated up to `low`. -/
def Clear (log : Pipeline) (taken : List Taken) (o : PublishOrigin) (low : Nat) : Prop :=
  ∀ t ∈ taken, ∀ i a, t.fate = .Appended i → t.job.origin = some o →
    log.appends[i]? = some a → a.failed = true ∨ a.offset ≤ low

structure Logged (store : LoggedStore) (log : Pipeline) (taken : List Taken) : Prop where
  sound : Pipeline.Sound store.log log
  stays : log.Stays
  readable : ∀ (o : Nat) r, log.ks.entries[o]? = some r → Readable r
  records : ∀ t ∈ taken, ∀ i, t.fate = .Appended i → (∃ d : Delivery, t.job = d.job) ∧
    ∃ a, log.appends[i]? = some a ∧ a.record = t.job.record
  once : Once log taken

theorem readable_record (d : Delivery) : Readable d.job.record :=
  ⟨_, decode_encode d.fits d.expiry_at⟩

theorem originOf_record (d : Delivery) : originOf d.job.record = d.job.origin := by
  unfold originOf
  have hread : decode_queued d.job.record = .ok (stored d.message, d.expiry_at, d.origin) :=
    decode_encode d.fits d.expiry_at
  rw [hread]
  rfl

def Takes (step : mqtt_cluster.cluster_log.Step) : Prop :=
  Quiet step ∨ ∃ (d : Delivery) (tier : _), step = .Submit d.job.record tier

theorem Takes.not_seed {step : mqtt_cluster.cluster_log.Step} (h : Takes step) :
    ∀ entries floor seq_floor, step ≠ .Seed entries floor seq_floor := by
  rintro entries floor seq_floor rfl
  rcases h with hquiet | ⟨d, tier, heq⟩
  · exact hquiet
  · cases heq

theorem Logged.lt_of_appended (h : Logged store log taken) {t : Taken} (ht : t ∈ taken) {i : Nat}
    (hfate : t.fate = .Appended i) : i < log.appends.length := by
  obtain ⟨a, ha, -⟩ := (h.records t ht i hfate).2
  exact (List.getElem?_eq_some_iff.mp ha).1

theorem clear_step (h : Logged store log taken) (step : mqtt_cluster.cluster_log.Step)
    {o : PublishOrigin} {low : Nat} (hclear : Clear log taken o low) :
    Clear (Pipeline.step store.log log step) taken o low := by
  intro t ht i b hfate horigin hb
  obtain ⟨a, ha, hoffset, hfailed⟩ :=
    Pipeline.append_of_step store.log h.sound.toCounts step (h.lt_of_appended ht hfate) hb
  rw [← hoffset]
  rcases hclear t ht i a hfate horigin ha with hfail | hlow
  · refine .inl ?_
    by_contra hno
    rw [hfailed (by simpa using hno)] at hfail
    cases hfail
  · exact .inr hlow

theorem logged_step (h : Logged store log taken) {step : mqtt_cluster.cluster_log.Step}
    (htakes : Takes step) : Logged store (Pipeline.step store.log log step) taken := by
  have hcounts := h.sound.toCounts
  refine ⟨Pipeline.sound_step store.log h.sound step,
    Pipeline.stays_step store.log hcounts h.stays step htakes.not_seed, ?_, ?_, ?_⟩
  · intro o r hr
    rcases Pipeline.entry_or_submitted store.log hcounts step htakes.not_seed hr with
      hr | ⟨tier, rfl⟩
    · exact h.readable o r hr
    · rcases htakes with hquiet | ⟨d, tier', heq⟩
      · exact absurd hquiet id
      · cases heq
        exact readable_record d
  · intro t ht i hfate
    obtain ⟨hd, a, ha, hrecord⟩ := h.records t ht i hfate
    obtain ⟨b, hb, hsame⟩ := Pipeline.step_keeps_op store.log hcounts step ha
    exact ⟨hd, b, hb, hsame.record.trans hrecord⟩
  · intro k j t u i b o hkj ht hu hfate hb hto huo hdedupe hfailed hlow
    have hlt := h.lt_of_appended (List.mem_of_getElem? ht) hfate
    obtain ⟨a, ha, hoffset, hfail⟩ := Pipeline.append_of_step store.log hcounts step hlt hb
    exact h.once k j t u i a o hkj ht hu hfate ha hto huo hdedupe (hfail hfailed) (hoffset ▸ hlow)

theorem logged_take (h : Logged store log taken) {u : Taken}
    (hrecord : ∀ i, u.fate = .Appended i → (∃ d : Delivery, u.job = d.job) ∧
      ∃ a, log.appends[i]? = some a ∧ a.record = u.job.record)
    (honce : u.fate = .Held ∨
      ∀ o, u.job.dedupe = true → u.job.origin = some o → Clear log taken o u.low) :
    Logged store log (taken ++ [u]) := by
  refine ⟨h.sound, h.stays, h.readable, ?_, ?_⟩
  · intro t ht i hfate
    rcases List.mem_append.mp ht with ht | ht
    · exact h.records t ht i hfate
    · rw [List.mem_singleton.mp ht] at hfate ⊢
      exact hrecord i hfate
  · intro k j t w i a o hkj ht hw hfate ha hto hwo hdedupe hfailed hlow
    have hj : j < (taken ++ [u]).length := (List.getElem?_eq_some_iff.mp hw).1
    rw [List.length_append, List.length_singleton] at hj
    have ht' : taken[k]? = some t := by
      rwa [List.getElem?_append_left (by omega)] at ht
    by_cases hlast : j < taken.length
    · rw [List.getElem?_append_left hlast] at hw
      exact h.once k j t w i a o hkj ht' hw hfate ha hto hwo hdedupe hfailed hlow
    · obtain rfl : j = taken.length := by omega
      rw [List.getElem?_concat_length] at hw
      cases hw
      rcases honce with hheld | hclear
      · exact hheld
      · rcases hclear o hdedupe hwo t (List.mem_of_getElem? ht') i a hfate hto ha with hf | hle
        · rw [hf] at hfailed
          cases hfailed
        · exact absurd hlow (Nat.not_lt.mpr hle)

/-! ## The lane -/

namespace Lane

variable {lane : Lane}

theorem answers_complete (lane : Lane) (job : AppendJob) (outcome : LaneOutcome) :
    (lane.complete job outcome).answers = lane.answers ++ [(job, outcome == .Held)] := by
  unfold complete
  split
  · rename_i hempty
    simp [answers, HubCommand.held?, List.isEmpty_iff.mp hempty]
  · simp [answers, Completion.held]

theorem answers_post_front (h : lane.Kept) : lane.post_front.answers = lane.answers := by
  unfold post_front
  split
  · rfl
  · rename_i c inflight hin
    split
    · rfl
    · rename_i outcome hc
      simp [answers, hin, HubCommand.held?, Completion.held, hc]
    · rename_i hc
      exact absurd hc (h.alive c (by rw [hin]; exact List.mem_cons_self))

theorem classify_not_held (result : Except StorageError Enqueued) :
    (classify_enqueue result == LaneOutcome.Held) = false := by
  unfold classify_enqueue
  split <;> rfl

theorem answers_finish (lane : Lane) (i : Nat) (result : Except StorageError Enqueued) :
    (lane.step (.Finish i (some result))).answers = lane.answers := by
  rcases finish_cases lane i result with heq | ⟨front, c, append, back, hin, hc, heq⟩
  · rw [heq]
  · rw [heq]
    have hold : c.held = (c.job, false) := by simp [Completion.held, hc]
    have hnew : Completion.held ⟨c.job, .Finished (classify_enqueue result)⟩ = (c.job, false) := by
      have hnot := classify_not_held result
      rw [beq_eq_false_iff_ne] at hnot
      simp [Completion.held, hnot]
    simp [answers, hin, hold, hnew]

end Lane

/-! ## The invariant of a session -/

def Submission (s : Session) (job : AppendJob) : Prop :=
  match s.unpolled, s.queue.call with
  | none, none => True
  | none, some (call, stage) =>
    call = { message := job.message, expiry_at := job.expiry_at, origin := job.origin } ∧
      ∀ append evicted, stage ≠ .Await append evicted
  | some (append, _), none =>
    ∃ a, s.queue.log.appends[append]? = some a ∧ a.record = job.record
  | some _, some _ => False

/-- What holds of the job in the hand of the worker: a test that goes on has found no copy so
far, and a job that is submitted after one has no earlier append to be held for. -/
def Hand (s : Session) : Prop :=
  match s.lane.worker with
  | .Testing job o =>
    (∃ d : Delivery, job = d.job) ∧ job.origin = some o ∧
      (s.queue.call = none ∧ s.unpolled = none) ∧ s.after ≤ s.queue.log.ks.committed ∧
      ∀ (off : Nat) r, 0 < off → off ≤ s.after → s.queue.log.ks.entries[off]? = some r →
        originOf r ≠ some o
  | .Submitting job =>
    (∃ d : Delivery, job = d.job) ∧
      (∀ o, job.dedupe = true → job.origin = some o → Clear s.queue.log s.taken o s.low) ∧
      s.after = 0 ∧ Submission s job
  | .Draining _ | .Running _ => False
  | .Select | .Closing | .Done => (s.queue.call = none ∧ s.unpolled = none) ∧ s.after = 0

structure Session.Kept (store : LoggedStore) (s : Session) : Prop where
  logged : Logged store s.queue.log s.taken
  lane : s.lane.Kept
  jobs : ∀ job ∈ s.lane.channel, ∃ d : Delivery, job = .Deliver d.job
  hand : Hand s
  numbers : s.taken.filterMap (·.fate.append?) ++ (s.unpolled.map (·.1)).toList =
    List.range s.queue.log.appends.length
  answers : s.lane.answers = s.taken.map (fun t => (t.job, t.fate == .Held))

namespace Session

variable {s : Session}

theorem Kept.storedOnce (h : Kept store s) : StoredOnce s := ⟨h.logged.once, h.answers, h.numbers⟩

/-! ### The log goes on -/

variable {step : mqtt_cluster.cluster_log.Step}

theorem quiet_length (log : mqtt_cluster.cluster_log.ClusterLog) (p : Pipeline)
    (hquiet : Quiet step) : (Pipeline.step log p step).appends.length = p.appends.length := by
  cases step with
  | Submit record tier => exact absurd hquiet id
  | Seed entries floor seq_floor => exact absurd hquiet id
  | Own i ok => simp [Pipeline.step]
  | Follower i f ok => simp [Pipeline.step]
  | Resolve i =>
    simp only [Pipeline.step, Pipeline.resolve]
    split
    · rfl
    · split
      · simp [Pipeline.finish]
      · split
        · rfl
        · simp [Pipeline.finish]
      · rfl
  | Truncate up_to => rfl
  | TruncateDurable up_to => rw [Pipeline.truncate_durable_appends]
  | TruncateAcked k own acked => rw [Pipeline.truncate_acked_appends]

theorem hand_below (h : Kept store s) (hquiet : Quiet step) : Hand (s.below store step) := by
  have hcounts := h.logged.sound.toCounts
  have hhand := h.hand
  unfold Hand at hhand ⊢
  have hworker : (s.below store step).lane.worker = s.lane.worker := rfl
  rw [hworker]
  rcases hw : s.lane.worker with _ | ⟨job, o⟩ | job | job | job | _ | _
  · rw [hw] at hhand
    exact hhand
  · rw [hw] at hhand
    obtain ⟨hd, ho, hidle, hafter, hpassed⟩ := hhand
    have hmono := (eases_step store.log hcounts step hquiet).committed
    refine ⟨hd, ho, hidle, Nat.le_trans hafter hmono, fun off r hpos hle hr => ?_⟩
    refine hpassed off r hpos hle ?_
    exact Pipeline.entry_of_step store.log hcounts step (Takes.not_seed (.inl hquiet))
      (Nat.le_trans hle hafter) hr
  · rw [hw] at hhand
    obtain ⟨hd, hclear, hafter, hsub⟩ := hhand
    refine ⟨hd, fun o hdedupe ho => clear_step h.logged step (hclear o hdedupe ho), hafter, ?_⟩
    unfold Submission at hsub ⊢
    have hunpolled : (s.below store step).unpolled = s.unpolled := rfl
    have hcall : (s.below store step).queue.call = s.queue.call := rfl
    rw [hunpolled, hcall]
    rcases hu : s.unpolled with _ | ⟨append, evicted⟩
    · rcases hc : s.queue.call with _ | call
      · trivial
      · rw [hu, hc] at hsub
        exact hsub
    · rcases hc : s.queue.call with _ | call
      · rw [hu, hc] at hsub
        obtain ⟨a, ha, hrecord⟩ := hsub
        obtain ⟨b, hb, hsame⟩ := Pipeline.step_keeps_op store.log hcounts step ha
        exact ⟨b, hb, hsame.record.trans hrecord⟩
      · rw [hu, hc] at hsub
        exact hsub
  · rw [hw] at hhand
    exact hhand
  · rw [hw] at hhand
    exact hhand
  · rw [hw] at hhand
    exact hhand
  · rw [hw] at hhand
    exact hhand

theorem kept_below (h : Kept store s) (hquiet : Quiet step) : Kept store (s.below store step) := by
  refine ⟨logged_step h.logged (.inl hquiet), h.lane, h.jobs, hand_below h hquiet, ?_, h.answers⟩
  have hlength : (s.below store step).queue.log.appends.length = s.queue.log.appends.length :=
    quiet_length store.log _ hquiet
  rw [hlength]
  exact h.numbers

/-! ### The lane goes on -/

theorem kept_send (h : Kept store s) (d : Delivery) :
    Kept store { s with lane := s.lane.send (.Deliver d.job) false } := by
  have hlane := Lane.kept_send h.lane (.Deliver d.job) false
  unfold Lane.send at hlane ⊢
  split
  · exact h
  · rename_i hroom
    rw [if_neg hroom] at hlane
    refine ⟨h.logged, hlane, fun job hjob => ?_, h.hand, h.numbers, h.answers⟩
    rcases List.mem_append.mp hjob with hjob | hjob
    · exact h.jobs job hjob
    · exact ⟨d, List.mem_singleton.mp hjob⟩

theorem take_delivery (d : Delivery) :
    (∃ o, d.origin = some o ∧ Lane.take (.Deliver d.job) = .Testing d.job o) ∨
      (d.dedupe = false ∨ d.origin = none) ∧ Lane.take (.Deliver d.job) = .Submitting d.job := by
  unfold Lane.take Delivery.job
  rcases d.origin with _ | o
  · exact .inr ⟨.inr rfl, by simp⟩
  · cases d.dedupe with
    | true => exact .inl ⟨o, rfl, rfl⟩
    | false => exact .inr ⟨.inl rfl, by simp⟩

theorem kept_recv (h : Kept store s) : Kept store { s with lane := s.lane.recv } := by
  have hlane := Lane.kept_recv h.lane
  have hhand := h.hand
  unfold Lane.recv at hlane ⊢
  split
  · rename_i job channel hw hc
    split
    · rename_i hdepth
      rw [hw, hc] at hlane
      dsimp only at hlane
      rw [if_pos hdepth] at hlane
      obtain ⟨d, rfl⟩ := h.jobs job (by rw [hc]; exact List.mem_cons_self)
      refine ⟨h.logged, hlane, fun job hjob => ?_, ?_, h.numbers, h.answers⟩
      · exact h.jobs job (by rw [hc]; exact List.mem_cons_of_mem _ hjob)
      · unfold Hand at hhand ⊢
        rw [hw] at hhand
        obtain ⟨hidle, hafter⟩ := hhand
        dsimp only
        rcases take_delivery d with ⟨o, ho, htake⟩ | ⟨hfirst, htake⟩
        · rw [htake]
          refine ⟨⟨d, rfl⟩, ho, hidle, by rw [hafter]; exact Nat.zero_le _, ?_⟩
          intro off r hpos hle
          rw [hafter] at hle
          omega
        · rw [htake]
          refine ⟨⟨d, rfl⟩, fun o hdedupe ho => ?_, hafter, ?_⟩
          · have hdedupe' : d.dedupe = true := hdedupe
            have ho' : d.origin = some o := ho
            rcases hfirst with hfalse | hnone
            · rw [hfalse] at hdedupe'
              cases hdedupe'
            · rw [hnone] at ho'
              cases ho'
          · unfold Submission
            simp only [hidle.1, hidle.2]
    · exact h
  · rename_i hw hc
    split
    · rename_i hcond
      rw [hw, hc] at hlane
      dsimp only at hlane
      rw [if_pos hcond] at hlane
      refine ⟨h.logged, by simpa only [hc] using hlane, h.jobs, ?_, h.numbers, h.answers⟩
      unfold Hand at hhand ⊢
      rw [hw] at hhand
      exact hhand
    · exact h
  · exact h

theorem kept_post_front (h : Kept store s) (hlane : s.lane.post_front.Kept) :
    Kept store { s with lane := s.lane.post_front } := by
  have hanswers := Lane.answers_post_front h.lane
  have hworker : s.lane.post_front.worker = s.lane.worker := by
    unfold Lane.post_front
    split
    · rfl
    · split <;> rfl
  have hchannel : s.lane.post_front.channel = s.lane.channel := by
    unfold Lane.post_front
    split
    · rfl
    · split <;> rfl
  refine ⟨h.logged, hlane, ?_, ?_, h.numbers, hanswers.trans h.answers⟩
  · rw [hchannel]
    exact h.jobs
  · have hhand := h.hand
    unfold Hand at hhand ⊢
    rw [hworker]
    exact hhand

theorem kept_next (h : Kept store s) : Kept store { s with lane := s.lane.next } := by
  have hlane := Lane.kept_next h.lane
  have hhand := h.hand
  unfold Hand at hhand
  unfold Lane.next at hlane ⊢
  split
  · rename_i hw
    rw [hw] at hlane
    exact kept_post_front h hlane
  · rename_i job hw hin
    rw [hw] at hhand
    exact absurd hhand id
  · rename_i job c inflight hw hin
    rw [hw] at hhand
    exact absurd hhand id
  · rename_i hw hin
    rw [hw, hin] at hlane
    rw [hw] at hhand
    refine ⟨h.logged, by simpa only [hin] using hlane, h.jobs, ?_, h.numbers, h.answers⟩
    unfold Hand
    exact hhand
  · rename_i c inflight hw hin
    rw [hw, hin] at hlane
    exact kept_post_front h hlane
  · exact h

theorem kept_wake (h : Kept store s) (i : Nat) : Kept store (s.wake i) := by
  unfold wake
  split
  · split
    · rename_i result hresult
      have hlane : (s.lane.step (.Finish i (some result))).Kept := Lane.kept_finish h.lane i result
      have hanswers := Lane.answers_finish s.lane i result
      exact ⟨h.logged, hlane, h.jobs, h.hand, h.numbers, hanswers.trans h.answers⟩
    · exact h
  · exact h

/-! ### The duplicate test -/

variable {job : AppendJob}

/-- A test that comes to the end of the queue with every earlier append of the publish ended has
nothing to be held for. -/
theorem clear_of_read (h : Kept store s) {o : PublishOrigin} (hw : s.lane.worker = .Testing job o)
    (hsettled : Settled s .Read) (hshort : (unread s.queue.log s.after).length < PAGE)
    (hnone : ∀ x ∈ unread s.queue.log s.after, originOf x.2 ≠ some o) :
    Clear s.queue.log s.taken o s.queue.log.ks.truncated := by
  have hhand := h.hand
  unfold Hand at hhand
  rw [hw] at hhand
  obtain ⟨-, -, -, -, hpassed⟩ := hhand
  have hended := (hsettled job o hw hshort).resolve_right (by
    rintro ⟨x, hx, hcopy⟩
    exact hnone x hx hcopy)
  intro t ht i a hfate horigin ha
  have hphase := hended t ht i a hfate horigin ha
  unfold Append.unresolved at hphase
  unfold Append.failed
  rcases hp : a.phase with _ | _ | _ | (e | off)
  · simp [hp] at hphase
  · simp [hp] at hphase
  · simp [hp] at hphase
  · exact .inl rfl
  · refine .inr ?_
    obtain ⟨hoffset, hcommitted⟩ := h.logged.sound.acked i a off ha hp
    rw [hoffset]
    by_contra hlow
    have hlow : s.queue.log.ks.truncated < off := Nat.lt_of_not_le hlow
    -- the record is there, and names the publish
    have hrecord := h.logged.stays.kept i a off ha hp hlow
    obtain ⟨⟨d, hd⟩, b, hb, hsame⟩ := h.logged.records t ht i hfate
    rw [ha] at hb
    cases hb
    have hcopy : originOf a.record = some o := by
      rw [hsame, hd, originOf_record, ← hd]
      exact horigin
    by_cases hread : off ≤ s.after
    · exact hpassed off a.record (Nat.lt_of_le_of_lt (Nat.zero_le _) hlow) hread hrecord hcopy
    · refine hnone (off, a.record) ((mem_unread _ _ _ _).mpr ⟨hrecord, ?_, hcommitted⟩) hcopy
      exact Nat.lt_of_not_le hread

theorem kept_read (h : Kept store s) (hsettled : Settled s .Read) : Kept store s.read := by
  unfold read
  split
  · rename_i job o hw
    have hhand := h.hand
    unfold Hand at hhand
    rw [hw] at hhand
    obtain ⟨hd, horigin, hidle, hafter, hpassed⟩ := hhand
    rcases holds_origin_spec o h.logged.readable hafter with
      hheld | ⟨upTo, hpage, hle, hnone⟩ | ⟨hend, hshort, hnone⟩
    · -- a copy is there
      rw [hheld]
      have hlane := Lane.kept_holds h.lane (.ok true)
      have hcomplete : s.lane.holds (.ok true) = s.lane.complete job .Held := by
        simp [Lane.holds, hw]
      have hworker : (s.lane.complete job .Held).worker = .Select := by
        unfold Lane.complete
        split <;> rfl
      have hchannel : (s.lane.complete job .Held).channel = s.lane.channel := by
        unfold Lane.complete
        split <;> rfl
      refine ⟨logged_take h.logged (by simp) (.inl rfl), hlane, ?_, ?_, ?_, ?_⟩
      · rw [hcomplete, hchannel]
        exact h.jobs
      · unfold Hand
        rw [hcomplete, hworker]
        exact ⟨hidle, rfl⟩
      · have hnumbers := h.numbers
        simpa [Fate.append?] using hnumbers
      · rw [hcomplete, Lane.answers_complete, h.answers]
        simp
    · -- a full page without one
      rw [hpage]
      refine ⟨h.logged, h.lane, h.jobs, ?_, h.numbers, h.answers⟩
      unfold Hand
      simp only [hw]
      refine ⟨hd, horigin, hidle, hle, fun off r hpos hoff hr => ?_⟩
      by_cases hold : off ≤ s.after
      · exact hpassed off r hpos hold hr
      · refine hnone (off, r) ((mem_unread _ _ _ _).mpr ⟨hr, ?_, ?_⟩) hoff
        · exact Nat.lt_of_not_le hold
        · exact Nat.le_trans hoff hle
    · -- the end of the queue
      rw [hend]
      have hclear := clear_of_read h hw hsettled hshort hnone
      have hlane := Lane.kept_holds h.lane (.ok false)
      have hholds : s.lane.holds (.ok false) = { s.lane with worker := .Submitting job } := by
        simp [Lane.holds, hw]
      dsimp only
      rw [hholds] at hlane ⊢
      refine ⟨h.logged, hlane, h.jobs, ?_, h.numbers, h.answers⟩
      refine ⟨hd, fun o' _ ho' => ?_, rfl, ?_⟩
      · rw [horigin] at ho'
        cases ho'
        exact hclear
      · unfold Submission
        simp only [hidle.1, hidle.2]
  · exact h

/-! ### The submission -/

theorem apply_cap_cases (store : LoggedStore) (q : Queue) (call : Enqueue) (hcall : q.call = none) :
    (∃ stage, (∀ append evicted, stage ≠ Stage.Await append evicted) ∧
      (q.apply_cap store call).call = some (call, stage) ∧
      (q.apply_cap store call).log = q.log) ∨
    ((q.apply_cap store call).call = none ∧
      (q.apply_cap store call).answers = q.answers ++ [.Ready (.ok .Rejected)] ∧
      (q.apply_cap store call).log = q.log) := by
  unfold Queue.apply_cap
  dsimp only
  split
  · exact .inl ⟨.Append 0, by simp, rfl, rfl⟩
  · split
    · split
      · exact .inr ⟨hcall, rfl, rfl⟩
      · exact .inl ⟨_, by simp, rfl, rfl⟩
    · exact .inl ⟨.Append 0, by simp, rfl, rfl⟩

theorem kept_submitted (h : Kept store s) (hw : s.lane.worker = .Submitting job)
    (pending : PendingEnqueue) (fate : Fate) (hfate : fate ≠ .Held) {queue : Queue}
    (hcall : queue.call = none)
    (hlogged : Logged store queue.log (s.taken ++ [⟨job, fate, s.low⟩]))
    (hnumbers : s.taken.filterMap (·.fate.append?) ++ fate.append?.toList =
      List.range queue.log.appends.length) :
    Kept store { s with
      queue
      lane := s.lane.submitted pending
      unpolled := none
      taken := s.taken ++ [⟨job, fate, s.low⟩] } := by
  have hlane := Lane.kept_submitted h.lane pending
  have hhand := h.hand
  unfold Hand at hhand
  rw [hw] at hhand
  obtain ⟨-, -, hafter, -⟩ := hhand
  -- whether the submission is ready or waits, the worker is at its select with one more answer
  have hparts : (s.lane.submitted pending).worker = .Select ∧
      (s.lane.submitted pending).channel = s.lane.channel ∧
      (s.lane.submitted pending).answers = s.lane.answers ++ [(job, false)] := by
    simp only [Lane.submitted, hw]
    split
    · rename_i result
      refine ⟨?_, ?_, ?_⟩
      · unfold Lane.complete
        split <;> rfl
      · unfold Lane.complete
        split <;> rfl
      · rw [Lane.answers_complete, Lane.classify_not_held]
    · exact ⟨rfl, rfl, by simp [Lane.answers, Completion.held]⟩
  obtain ⟨hworker, hchannel, hanswers⟩ := hparts
  refine ⟨hlogged, hlane, ?_, ?_, ?_, ?_⟩
  · rw [hchannel]
    exact h.jobs
  · unfold Hand
    rw [hworker]
    exact ⟨⟨hcall, rfl⟩, hafter⟩
  · rw [← hnumbers, List.filterMap_append]
    rcases happend : fate.append? with _ | append <;> simp [happend]
  · rw [hanswers, h.answers]
    simp [hfate]

theorem kept_start (h : Kept store s) (hw : s.lane.worker = .Submitting job)
    (hunpolled : s.unpolled = none) (hcall : s.queue.call = none) : Kept store (s.go store) := by
  have hhand := h.hand
  unfold Hand at hhand
  rw [hw] at hhand
  obtain ⟨hd, hclear, hafter, -⟩ := hhand
  have hnumbers := h.numbers
  rw [hunpolled] at hnumbers
  have hsubmit : s.queue.submit_enqueue_tagged store job.message job.expiry_at job.origin =
      s.queue.apply_cap store
        { message := job.message, expiry_at := job.expiry_at, origin := job.origin } := by
    simp [Queue.submit_enqueue_tagged, hcall]
  unfold go
  simp only [hw, hunpolled, hcall, hsubmit]
  rcases apply_cap_cases store s.queue
    { message := job.message, expiry_at := job.expiry_at, origin := job.origin } hcall with
    ⟨stage, hstage, hnow, hlog⟩ | ⟨hnow, hanswers, hlog⟩
  · simp only [hnow]
    refine ⟨?_, h.lane, h.jobs, ?_, ?_, h.answers⟩
    · rw [hlog]
      exact h.logged
    · unfold Hand
      simp only [hw]
      refine ⟨hd, ?_, hafter, ?_⟩
      · rw [hlog]
        exact hclear
      · unfold Submission
        simp only [hnow]
        exact ⟨trivial, hstage⟩
    · rw [hlog]
      exact hnumbers
  · simp only [hnow, hanswers, List.getLast?_append_cons, List.getLast?_singleton]
    refine kept_submitted h hw _ .Rejected (by simp) hnow ?_ ?_
    · rw [hlog]
      exact logged_take h.logged (by simp) (.inr hclear)
    · rw [hlog]
      simpa [Fate.append?] using hnumbers

theorem kept_go (h : Kept store s) : Kept store (s.go store) := by
  rcases hw : s.lane.worker with _ | ⟨job, o⟩ | job | job | job | _ | _
  case Submitting =>
    have hhand := h.hand
    unfold Hand at hhand
    rw [hw] at hhand
    obtain ⟨⟨d, hd⟩, hclear, hafter, hsub⟩ := hhand
    unfold Submission at hsub
    rcases hu : s.unpolled with _ | ⟨append, evicted⟩
    · rcases hc : s.queue.call with _ | ⟨call, stage⟩
      · exact kept_start h hw hu hc
      · rw [hu, hc] at hsub
        obtain ⟨hcall, hstage⟩ := hsub
        have hnumbers := h.numbers
        rw [hu] at hnumbers
        unfold go
        simp only [hw, hu, hc, Queue.go]
        rcases stage with ⟨up_to, evicted⟩ | evicted | ⟨append, evicted⟩
        · -- the oldest messages go
          dsimp only
          have htakes : Takes (.Truncate up_to) := .inl trivial
          refine ⟨logged_step h.logged htakes, h.lane, h.jobs, ?_, ?_, h.answers⟩
          · unfold Hand
            simp only [hw]
            refine ⟨⟨d, hd⟩, fun o hdedupe ho => ?_, hafter, ?_⟩
            · exact clear_step h.logged _ (hclear o hdedupe ho)
            · unfold Submission
              exact ⟨hcall, by simp⟩
          · have hlength : (Pipeline.step store.log s.queue.log
                (.Truncate up_to)).appends.length = s.queue.log.appends.length :=
              quiet_length store.log s.queue.log trivial
            rw [hlength]
            exact hnumbers
        · -- the message is submitted
          have hawaits : call.awaits = false := by rw [hcall]
          have hrecord : encode_queued call.message call.expiry_at call.origin = job.record := by
            rw [hcall]
            rfl
          simp only [hawaits, Bool.false_eq_true, if_false, List.getLast?_append_cons,
            List.getLast?_singleton, hrecord]
          have htakes : Takes (.Submit job.record (store.tier call.message)) :=
            .inr ⟨d, _, by rw [hd]⟩
          refine ⟨logged_step h.logged htakes, h.lane, h.jobs, ?_, ?_, h.answers⟩
          · unfold Hand
            simp only [hw]
            refine ⟨⟨d, hd⟩, fun o hdedupe ho => ?_, hafter, ?_⟩
            · exact clear_step h.logged (.Submit job.record (store.tier call.message))
                (hclear o hdedupe ho)
            · unfold Submission
              exact ⟨_, (Pipeline.get_snoc _ _ _ _).mpr (.inr ⟨rfl, rfl⟩), rfl⟩
          · have hlength : (s.queue.log.submit_tiered job.record
                (store.tier call.message)).appends.length = s.queue.log.appends.length + 1 := by
              simp [Pipeline.submit_tiered]
            rw [hlength, List.range_succ, ← hnumbers]
            simp
        · exact absurd rfl (hstage append evicted)
    · rcases hc : s.queue.call with _ | call
      · -- the submission is polled
        rw [hu, hc] at hsub
        have hnumbers := h.numbers
        rw [hu] at hnumbers
        unfold go
        simp only [hw, hu]
        refine kept_submitted h hw _ (.Appended append) (by simp) hc ?_ ?_
        · refine logged_take h.logged (fun i hi => ?_) (.inr hclear)
          cases hi
          exact ⟨⟨d, hd⟩, hsub⟩
        · simpa [Fate.append?] using hnumbers
      · rw [hu, hc] at hsub
        exact absurd hsub id
  all_goals
    unfold go
    simp only [hw]
    exact h

/-! ### Runs -/

theorem kept_step (h : Kept store s) {step : SessionStep} (hsettled : Settled s step) :
    Kept store (s.step store step) := by
  cases step with
  | Send d => exact kept_send h d
  | Close =>
    have hlane : (s.lane.step .Close).Kept := Lane.kept_step h.lane (by simp [Event.Panics])
    exact ⟨h.logged, hlane, h.jobs, h.hand, h.numbers, h.answers⟩
  | Recv => exact kept_recv h
  | Read => exact kept_read h hsettled
  | Go => exact kept_go h
  | Wake i => exact kept_wake h i
  | Next => exact kept_next h
  | Own i ok => exact kept_below h trivial
  | Follower i f ok => exact kept_below h trivial
  | Resolve i => exact kept_below h trivial
  | Ack up_to => exact kept_below h trivial
  | AckDurable up_to => exact kept_below h trivial
  | AckDurableAcked k own acked => exact kept_below h trivial

theorem kept_run (h : Kept store s) (steps : List SessionStep) (hsettled : AllSettled store s steps) :
    Kept store (s.run store steps) := by
  induction steps generalizing s with
  | nil => exact h
  | cons step steps ih => exact ih (kept_step h hsettled.1) hsettled.2

theorem logged_start (store : LoggedStore) (recovered : List Recovered) (floor seq_floor : Nat) :
    Logged store (Session.start recovered floor seq_floor).queue.log [] := by
  have happends : (Pipeline.seed_key {} (recovered.map Recovered.entry) floor seq_floor).appends =
      [] := Pipeline.seed_key_appends store.log {} _ floor seq_floor
  have hfold := Pipeline.seed_fold (recovered.map Recovered.entry) {}
  dsimp only at hfold
  obtain ⟨-, -, -, hfloor, hentries⟩ := hfold
  refine ⟨Pipeline.sound_step store.log (Pipeline.sound_start store.log)
    (.Seed (recovered.map Recovered.entry) floor seq_floor), ⟨?_, ?_⟩, ?_, by simp, ?_⟩
  · intro f hf
    simp only [start, Pipeline.seed_key] at hf
    split at hf
    · simp [Pipeline.ks] at hf
    · split at hf
      · simp [Pipeline.ks] at hf
      · simp [Pipeline.ks, KeyState.seed_entries, hfloor] at hf
  · intro i a o hi
    simp only [start] at hi
    rw [happends] at hi
    cases hi
  · intro o r hr
    simp only [start, Pipeline.seed_key] at hr
    split at hr
    · simp [Pipeline.ks] at hr
    · split at hr
      · simp [Pipeline.ks] at hr
      · simp only [Pipeline.ks, KeyState.seed_entries, Option.getD_some, Option.getD_none] at hr
        rcases hentries o r hr with hr | ⟨-, e, he, -, rfl⟩
        · simp at hr
        · obtain ⟨x, -, rfl⟩ := List.mem_map.mp he
          exact readable_record x.delivery
  · intro k j t u i a o hkj ht
    simp at ht

theorem kept_new (store : LoggedStore) (recovered : List Recovered) (floor seq_floor : Nat) :
    Kept store (Session.start recovered floor seq_floor) := by
  have happends : (Pipeline.seed_key {} (recovered.map Recovered.entry) floor seq_floor).appends =
      [] := Pipeline.seed_key_appends store.log {} _ floor seq_floor
  refine ⟨logged_start store recovered floor seq_floor, Lane.kept_new, by simp [start], ?_, ?_, rfl⟩
  · exact ⟨⟨rfl, rfl⟩, rfl⟩
  · simp [start, happends]

end Session

/-- In a run in which every earlier append of a publish has ended whenever the duplicate test of
a replay of it comes to the end of the queue, each replay of a publish that the session was
given is held, answered so, and appends nothing. -/
theorem a_replay_is_stored_once (store : LoggedStore) (recovered : List Recovered)
    (floor seq_floor : Nat) (steps : List SessionStep)
    (hsettled : AllSettled store (Session.start recovered floor seq_floor) steps) :
    StoredOnce ((Session.start recovered floor seq_floor).run store steps) :=
  (Session.kept_run (Session.kept_new store recovered floor seq_floor) steps hsettled).storedOnce

def ownersStore : LoggedStore := { log := mqtt_cluster.cluster_log.Pipeline.ownerOfThree }

/-- A publish of this node, first delivered and then replayed. -/
def published (dedupe : Bool) : Delivery where
  client := "s"
  message := { topic := "t", payload := [1], qos := .AtLeastOnce, retain := false }
  expiry_at := none
  origin := some ⟨"a", 1⟩
  dedupe := dedupe
  fits :=
    { topic := by decide +kernel
      payload := by decide
      properties := by decide
      property := by simp
      content_type := by simp
      response_topic := by simp
      correlation_data := by simp
      node := by
        intro o ho
        cases ho
        decide +kernel }

/-- The replay comes after the first copy is committed. -/
def replayAfterCommit : List SessionStep :=
  [.Send (published false), .Recv, .Go, .Go, .Go, .Own 0 true, .Follower 0 0 true, .Resolve 0,
    .Send (published true), .Recv, .Read]

theorem a_committed_publish_is_held :
    ((Session.start [] 0 0).run ownersStore replayAfterCommit).taken.map (·.fate) =
        [.Appended 0, .Held] ∧
      StoredOnce ((Session.start [] 0 0).run ownersStore replayAfterCommit) := by
  refine ⟨by decide +kernel, a_replay_is_stored_once ownersStore [] 0 0 replayAfterCommit ?_⟩
  have hended : ∀ a ∈ ((Session.start [] 0 0).run ownersStore
      (replayAfterCommit.take 10)).queue.log.appends, a.unresolved = false := by decide +kernel
  refine ⟨trivial, trivial, trivial, trivial, trivial, trivial, trivial, trivial, trivial, trivial,
    ?_, trivial⟩
  exact fun job o _ _ => .inl (fun t _ i a _ _ ha => hended a (List.mem_of_getElem? ha))

/-- The replay comes while the first copy waits for its quorum. -/
def replayBeforeCommit : List SessionStep :=
  [.Send (published false), .Send (published true), .Recv, .Go, .Go, .Go, .Recv, .Read, .Go, .Go,
    .Go, .Own 0 true, .Follower 0 0 true, .Resolve 0, .Own 1 true, .Follower 1 0 true, .Resolve 1]

/-- Both copies are committed. -/
theorem a_pending_publish_is_stored_twice :
    ¬ ∀ (store : LoggedStore) (recovered : List Recovered) (floor seq_floor : Nat)
      (steps : List SessionStep),
      StoredOnce ((Session.start recovered floor seq_floor).run store steps) := by
  intro hall
  have honce := (hall ownersStore [] 0 0 replayBeforeCommit).held
  let s := (Session.start [] 0 0).run ownersStore replayBeforeCommit
  have htaken : s.taken.map (fun t => (t.job, t.fate, t.low)) =
      [((published false).job, .Appended 0, 0), ((published true).job, .Appended 1, 0)] := by
    decide +kernel
  have hfirst : (s.queue.log.appends[0]?.map (fun a => (a.failed, a.offset))) =
      some (false, 1) := by decide +kernel
  obtain ⟨a, ha, hpair⟩ := Option.map_eq_some_iff.mp hfirst
  obtain ⟨hfailed, hoffset⟩ := Prod.mk.inj hpair
  rcases hs : s.taken with _ | ⟨t, _ | ⟨u, rest⟩⟩
  · simp [hs] at htaken
  · simp [hs] at htaken
  · simp only [hs, List.map_cons, List.cons.injEq, Prod.mk.injEq] at htaken
    obtain ⟨⟨htjob, htfate, -⟩, ⟨hujob, hufate, hulow⟩, -⟩ := htaken
    have hheld := honce 0 1 t u 0 a ⟨"a", 1⟩ Nat.zero_lt_one (by rw [hs]; rfl) (by rw [hs]; rfl)
      htfate ha (by rw [htjob]; rfl) (by rw [hujob]; rfl) (by rw [hujob]; rfl) hfailed
      (by rw [hulow, hoffset]; decide)
    rw [hufate] at hheld
    cases hheld

end mqttd.hub.append_lane
