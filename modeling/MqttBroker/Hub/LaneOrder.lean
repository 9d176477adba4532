-- The completions of an append lane are posted in the order in which its jobs were admitted,
-- however the waits of the pipeline end. What the lane owes is a list that no step changes but
-- an admission; the answers are always the front of it.
import MqttBroker.Hub.AppendLane

namespace mqttd.hub.append_lane

open mqtt_storage

/-! ## What is owed -/

/-- What a completion says, its outcome aside. -/
inductive Owed
  | Append (job : AppendJob)
  | Recovered (client : ClientId)
  | Qos2 (client : ClientId)
  deriving DecidableEq

def LaneJob.owes : LaneJob → List Owed
  | .Deliver job => [.Append job]
  | .Discard client => [.Recovered client, .Append (AppendJob.discard_mark client)]
  | .Remove client => [.Append (AppendJob.discard_mark client)]
  | .Qos2Op client _ => [.Qos2 client]

def HubCommand.settles : HubCommand → Owed
  | .AppendDone job _ => .Append job
  | .SessionRecovered client => .Recovered client
  | .Qos2OpDone client _ => .Qos2 client

theorem run_barrier_settles (job : LaneJob) (store : StoreAnswers) :
    (run_barrier_job job store).map HubCommand.settles = job.owes := by
  cases job <;> rfl

def Worker.inHand : Worker → List LaneJob
  | .Testing job _ | .Submitting job => [.Deliver job]
  | .Draining job | .Running job => [job]
  | .Select | .Closing | .Done => []

@[simp] theorem take_inHand (job : LaneJob) : (Lane.take job).inHand = [job] := by
  unfold Lane.take
  split
  · split <;> rfl
  · rfl

/-! ## What is left to do -/

def Wait.left : Wait → Nat
  | .Waiting _ => 2
  | .Finished _ | .Died => 1

def Worker.left : Worker → Nat
  | .Testing .. => 6
  | .Submitting _ => 5
  | .Draining _ => 4
  | .Running _ => 3
  | .Select => 2
  | .Closing => 1
  | .Done => 0

/-- How many steps a lane can take at most before it waits for the hub. -/
def Lane.left (s : Lane) : Nat :=
  5 * s.channel.length + s.worker.left + (s.inflight.map (fun c => c.wait.left)).sum

namespace Event

/-- The task of a wait panics. -/
def Panics : Event → Prop
  | .Finish _ none => True
  | _ => False

/-- A step of the worker or of the store, without a panic. -/
def Internal : Event → Prop
  | .Send .. | .Close | .Finish _ none => False
  | _ => True

end Event

namespace Lane

/-- The answers leave in the order of the admissions, and a lane that rests has given them all. -/
structure Orderly (s : Lane) : Prop where
  answers : s.posted.map HubCommand.settles <+: s.admitted.flatMap LaneJob.owes
  depth : s.inflight.length ≤ LANE_PIPELINE_DEPTH
  /-- A job that is no append starts with everything before it answered. -/
  barrier : ∀ job, s.worker = .Running job → ∃ before after,
    s.admitted = before ++ job :: after ∧
      s.posted.map HubCommand.settles = before.flatMap LaneJob.owes
  closed : s.worker = .Done →
    s.posted.map HubCommand.settles = s.admitted.flatMap LaneJob.owes
  shortens : ∀ e : Event, e.Internal → s.step e = s ∨ (s.step e).left < s.left
  rests : (∀ e : Event, e.Internal → s.step e = s) →
    s.posted.map HubCommand.settles = s.admitted.flatMap LaneJob.owes

/-! ## The invariant -/

/-- The jobs that were taken are answered or wait in the pipeline, in their order. -/
structure Kept (s : Lane) : Prop where
  order : ∃ taken, s.admitted = taken ++ (s.worker.inHand ++ s.channel) ∧
    s.posted.map HubCommand.settles ++ s.inflight.map (fun c => Owed.Append c.job) =
      taken.flatMap LaneJob.owes
  depth : s.inflight.length ≤ LANE_PIPELINE_DEPTH
  room : ∀ job, (∃ o, s.worker = .Testing job o) ∨ s.worker = .Submitting job →
    s.inflight.length < LANE_PIPELINE_DEPTH
  drained : (∃ job, s.worker = .Running job) ∨ s.worker = .Done → s.inflight = []
  closing : s.worker = .Closing ∨ s.worker = .Done → s.closed = true ∧ s.channel = []
  alive : ∀ c ∈ s.inflight, c.wait ≠ .Died

variable {s : Lane}

theorem kept_new : Kept {} := by
  refine ⟨⟨[], rfl, rfl⟩, Nat.zero_le _, ?_, ?_, ?_, ?_⟩ <;> simp

theorem kept_send (h : Kept s) (job : LaneJob) (control : Bool) : Kept (s.send job control) := by
  unfold send
  split
  · exact h
  · rename_i hroom
    obtain ⟨taken, hadm, hans⟩ := h.order
    refine ⟨⟨taken, ?_, hans⟩, h.depth, h.room, h.drained, fun hw => ?_, h.alive⟩
    · simp [hadm]
    · simp [(h.closing hw).1] at hroom

theorem kept_recv (h : Kept s) : Kept s.recv := by
  unfold recv
  split
  · rename_i job channel hw hc
    split
    · rename_i hdepth
      obtain ⟨taken, hadm, hans⟩ := h.order
      refine ⟨⟨taken, ?_, hans⟩, h.depth, fun _ _ => hdepth, ?_, ?_, h.alive⟩
      · rw [hadm, hw, hc, take_inHand]
        rfl
      · unfold take
        split
        · split <;> simp
        · simp
      · unfold take
        split
        · split <;> simp
        · simp
    · exact h
  · rename_i hw hc
    split
    · rename_i hcond
      obtain ⟨taken, hadm, hans⟩ := h.order
      refine ⟨⟨taken, ?_, hans⟩, h.depth, by simp, by simp, fun _ => ⟨hcond.2, hc⟩, h.alive⟩
      rw [hadm, hw]
      rfl
    · exact h
  · exact h

theorem kept_behind (h : Kept s) {job : AppendJob} (hhand : s.worker.inHand = [.Deliver job])
    (hroom : s.inflight.length < LANE_PIPELINE_DEPTH) {wait : Wait} (hwait : wait ≠ .Died) :
    Kept { s with worker := .Select, inflight := s.inflight ++ [⟨job, wait⟩] } := by
  obtain ⟨taken, hadm, hans⟩ := h.order
  rw [hhand] at hadm
  refine ⟨⟨taken ++ [.Deliver job], ?_, ?_⟩, ?_, by simp, by simp, by simp, ?_⟩
  · simp [hadm, Worker.inHand]
  · rw [List.map_append, ← List.append_assoc, hans]
    simp [LaneJob.owes]
  · rw [List.length_append]
    exact hroom
  · intro c hc
    rcases List.mem_append.mp hc with hc | hc
    · exact h.alive c hc
    · rw [List.mem_singleton.mp hc]
      exact hwait

/-- A completion joins the pipeline, or is posted when the pipeline is empty. -/
theorem kept_complete (h : Kept s) {job : AppendJob} (hhand : s.worker.inHand = [.Deliver job])
    (hroom : s.inflight.length < LANE_PIPELINE_DEPTH) (outcome : LaneOutcome) :
    Kept (s.complete job outcome) := by
  obtain ⟨taken, hadm, hans⟩ := h.order
  rw [hhand] at hadm
  unfold complete
  split
  · rename_i hempty
    have hnil : s.inflight = [] := List.isEmpty_iff.mp hempty
    refine ⟨⟨taken ++ [.Deliver job], ?_, ?_⟩, h.depth, by simp, by simp, by simp, h.alive⟩
    · simp [hadm, Worker.inHand]
    · rw [hnil] at hans ⊢
      simp only [List.map_nil, List.append_nil] at hans
      simp [hans, HubCommand.settles, LaneJob.owes]
  · exact kept_behind h hhand hroom (by simp)

theorem kept_holds (h : Kept s) (answer : Except StorageError Bool) : Kept (s.holds answer) := by
  unfold holds
  split
  · rename_i job o hw
    have hroom := h.room job (.inl ⟨o, hw⟩)
    have hhand : s.worker.inHand = [.Deliver job] := by rw [hw]; rfl
    split
    · exact kept_complete h hhand hroom .Held
    · obtain ⟨taken, hadm, hans⟩ := h.order
      refine ⟨⟨taken, ?_, hans⟩, h.depth, fun _ _ => hroom, by simp, by simp, h.alive⟩
      rw [hadm, hhand]
      rfl
  · exact h

theorem kept_submitted (h : Kept s) (pending : PendingEnqueue) : Kept (s.submitted pending) := by
  unfold submitted
  split
  · rename_i job hw
    have hroom := h.room job (.inr hw)
    have hhand : s.worker.inHand = [.Deliver job] := by rw [hw]; rfl
    split
    · exact kept_complete h hhand hroom _
    · exact kept_behind h hhand hroom (by simp)
  · exact h

theorem finish_cases (s : Lane) (i : Nat) (result : Except StorageError Enqueued) :
    s.step (.Finish i (some result)) = s ∨
      ∃ front c append back, s.inflight = front ++ c :: back ∧ c.wait = .Waiting append ∧
        s.step (.Finish i (some result)) = { s with
          inflight := front ++ ⟨c.job, .Finished (classify_enqueue result)⟩ :: back } := by
  simp only [step]
  rcases hi : s.inflight[i]? with _ | c
  · rw [List.modify_eq_self (List.getElem?_eq_none_iff.mp hi)]
    exact .inl rfl
  · obtain ⟨hlt, hget⟩ := List.getElem?_eq_some_iff.mp hi
    have hsplit : s.inflight = s.inflight.take i ++ c :: s.inflight.drop (i + 1) := by
      rw [← hget, List.cons_getElem_drop_succ, List.take_append_drop]
    rw [List.modify_eq_take_cons_drop hlt, hget]
    unfold Completion.finish
    rcases hw : c.wait with append | outcome | _
    · exact .inr ⟨_, c, append, _, hsplit, hw, rfl⟩
    · dsimp only
      rw [← hsplit]
      exact .inl rfl
    · dsimp only
      rw [← hsplit]
      exact .inl rfl

theorem kept_finish (h : Kept s) (i : Nat) (result : Except StorageError Enqueued) :
    Kept (s.step (.Finish i (some result))) := by
  rcases finish_cases s i result with heq | ⟨front, c, append, back, hin, -, heq⟩
  · rw [heq]
    exact h
  · rw [heq]
    obtain ⟨taken, hadm, hans⟩ := h.order
    refine ⟨⟨taken, hadm, ?_⟩, ?_, ?_, ?_, h.closing, ?_⟩
    · rw [← hans, hin]
      simp
    · have hdepth := h.depth
      rw [hin] at hdepth
      simpa using hdepth
    · intro job hw
      have hroom := h.room job hw
      rw [hin] at hroom
      simpa using hroom
    · intro hw
      have hnil := h.drained hw
      rw [hin] at hnil
      simp at hnil
    · intro d hd
      rcases List.mem_append.mp hd with hd | hd
      · exact h.alive d (by rw [hin]; exact List.mem_append_left _ hd)
      rcases List.mem_cons.mp hd with rfl | hd
      · simp
      · exact h.alive d (by rw [hin]; simp [hd])

theorem kept_post_front (h : Kept s) (hrun : ∀ job, s.worker ≠ .Running job) :
    Kept s.post_front := by
  unfold post_front
  split
  · exact h
  · rename_i c inflight hin
    obtain ⟨taken, hadm, hans⟩ := h.order
    have hdepth := h.depth
    rw [hin, List.length_cons] at hdepth
    split
    · exact h
    · rename_i outcome hc
      refine ⟨⟨taken, hadm, ?_⟩, Nat.le_of_succ_le hdepth, ?_, ?_, h.closing, ?_⟩
      · rw [← hans, hin]
        simp [HubCommand.settles]
      · intro job hw
        have hroom := h.room job hw
        rw [hin, List.length_cons] at hroom
        exact Nat.lt_of_succ_lt hroom
      · rintro (⟨job, hw⟩ | hw)
        · exact absurd hw (hrun job)
        · have hnil := h.drained (.inr hw)
          rw [hin] at hnil
          cases hnil
      · intro d hd
        exact h.alive d (by rw [hin]; exact List.mem_cons_of_mem _ hd)
    · rename_i hc
      exact absurd hc (h.alive c (by rw [hin]; exact List.mem_cons_self))

theorem kept_next (h : Kept s) : Kept s.next := by
  unfold next
  split
  · rename_i hw
    exact kept_post_front h (by simp [hw])
  · rename_i job hw hin
    obtain ⟨taken, hadm, hans⟩ := h.order
    refine ⟨⟨taken, ?_, hans⟩, h.depth, by simp, fun _ => hin, by simp, h.alive⟩
    rw [hadm, hw]
    rfl
  · rename_i hw hin
    exact kept_post_front h (by simp [hw])
  · rename_i hw hin
    obtain ⟨taken, hadm, hans⟩ := h.order
    refine ⟨⟨taken, ?_, hans⟩, h.depth, by simp, fun _ => hin, fun _ => h.closing (.inl hw), h.alive⟩
    rw [hadm, hw]
    rfl
  · rename_i hw hin
    exact kept_post_front h (by simp [hw])
  · exact h

theorem kept_ran (h : Kept s) (store : StoreAnswers) : Kept (s.ran store) := by
  unfold ran
  split
  · rename_i job hw
    have hin := h.drained (.inl ⟨job, hw⟩)
    obtain ⟨taken, hadm, hans⟩ := h.order
    refine ⟨⟨taken ++ [job], ?_, ?_⟩, h.depth, by simp, by simp, by simp, h.alive⟩
    · rw [hadm, hw]
      simp [Worker.inHand]
    · rw [hin] at hans ⊢
      simp only [List.map_nil, List.append_nil] at hans ⊢
      rw [List.map_append, hans, run_barrier_settles]
      simp
  · exact h

theorem kept_step (h : Kept s) {e : Event} (he : ¬ e.Panics) : Kept (s.step e) := by
  cases e with
  | Send job control => exact kept_send h job control
  | Close => exact ⟨h.order, h.depth, h.room, h.drained, fun hw => ⟨rfl, (h.closing hw).2⟩, h.alive⟩
  | Recv => exact kept_recv h
  | Holds answer => exact kept_holds h answer
  | Submitted pending => exact kept_submitted h pending
  | Finish i result =>
    cases result with
    | none => exact absurd trivial he
    | some result => exact kept_finish h i result
  | Next => exact kept_next h
  | Ran store => exact kept_ran h store

theorem kept_run (h : Kept s) (events : List Event) (hpanics : ∀ e ∈ events, ¬ e.Panics) :
    Kept (s.run events) := by
  induction events generalizing s with
  | nil => exact h
  | cons e events ih =>
    exact ih (kept_step h (hpanics e List.mem_cons_self))
      (fun e' he' => hpanics e' (List.mem_cons_of_mem _ he'))

/-! ## A lane that rests -/

theorem take_left (job : LaneJob) : (take job).left ≤ 6 := by
  unfold take
  split
  · split <;> simp [Worker.left]
  · simp [Worker.left]

theorem recv_shortens (s : Lane) : s.recv = s ∨ s.recv.left < s.left := by
  unfold recv
  split
  · rename_i job channel hw hc
    split
    · have htake := take_left job
      have hselect : s.worker.left = 2 := by rw [hw]; rfl
      refine .inr ?_
      simp only [left, hselect, hc, List.length_cons]
      omega
    · exact .inl rfl
  · rename_i hw hc
    split
    · refine .inr ?_
      simp only [left, hw, Worker.left]
      omega
    · exact .inl rfl
  · exact .inl rfl

theorem complete_left (s : Lane) (job : AppendJob) (outcome : LaneOutcome) :
    (s.complete job outcome).left + s.worker.left ≤ s.left + 3 := by
  unfold complete
  split
  · simp only [left, Worker.left]
    omega
  · simp only [left, Worker.left, List.map_append, List.sum_append, List.map_cons, List.map_nil,
      List.sum_cons, List.sum_nil, Wait.left]
    omega

theorem holds_shortens (s : Lane) (answer : Except StorageError Bool) :
    s.holds answer = s ∨ (s.holds answer).left < s.left := by
  unfold holds
  split
  · rename_i job o hw
    refine .inr ?_
    split
    · have hleft := complete_left s job .Held
      simp only [hw, Worker.left] at hleft
      omega
    · simp only [left, hw, Worker.left]
      omega
  · exact .inl rfl

theorem submitted_shortens (s : Lane) (pending : PendingEnqueue) :
    s.submitted pending = s ∨ (s.submitted pending).left < s.left := by
  unfold submitted
  split
  · rename_i job hw
    refine .inr ?_
    split
    · rename_i result
      have hleft := complete_left s job (classify_enqueue result)
      simp only [hw, Worker.left] at hleft
      omega
    · simp only [left, hw, Worker.left, List.map_append, List.sum_append, List.map_cons,
        List.map_nil, List.sum_cons, List.sum_nil, Wait.left]
      omega
  · exact .inl rfl

theorem finish_shortens (s : Lane) (i : Nat) (result : Except StorageError Enqueued) :
    s.step (.Finish i (some result)) = s ∨ (s.step (.Finish i (some result))).left < s.left := by
  rcases finish_cases s i result with heq | ⟨front, c, append, back, hin, hc, heq⟩
  · exact .inl heq
  · refine .inr ?_
    rw [heq]
    simp only [left, hin, hc, List.map_append, List.map_cons, List.sum_append, List.sum_cons,
      Wait.left]
    omega

theorem post_front_shortens (s : Lane) : s.post_front = s ∨ s.post_front.left < s.left := by
  unfold post_front
  split
  · exact .inl rfl
  · rename_i c inflight hin
    split
    · exact .inl rfl
    · rename_i outcome hc
      refine .inr ?_
      simp only [left, hin, hc, List.map_cons, List.sum_cons, Wait.left]
      omega
    · rename_i hc
      refine .inr ?_
      simp only [left, hin, hc, List.map_cons, List.sum_cons, Wait.left]
      omega

theorem next_shortens (s : Lane) : s.next = s ∨ s.next.left < s.left := by
  unfold next
  split
  · exact post_front_shortens s
  · rename_i job hw hin
    refine .inr ?_
    simp only [left, hw, Worker.left]
    omega
  · exact post_front_shortens s
  · rename_i hw hin
    refine .inr ?_
    simp only [left, hw, Worker.left]
    omega
  · exact post_front_shortens s
  · exact .inl rfl

theorem ran_shortens (s : Lane) (store : StoreAnswers) :
    s.ran store = s ∨ (s.ran store).left < s.left := by
  unfold ran
  split
  · rename_i job hw
    refine .inr ?_
    simp only [left, hw, Worker.left]
    omega
  · exact .inl rfl

theorem step_shortens (s : Lane) {e : Event} (he : e.Internal) :
    s.step e = s ∨ (s.step e).left < s.left := by
  cases e with
  | Send job control => exact absurd he id
  | Close => exact absurd he id
  | Recv => exact recv_shortens s
  | Holds answer => exact holds_shortens s answer
  | Submitted pending => exact submitted_shortens s pending
  | Finish i result =>
    cases result with
    | none => exact absurd he id
    | some result => exact finish_shortens s i result
  | Next => exact next_shortens s
  | Ran store => exact ran_shortens s store

/-- While the worker polls the pipeline, a lane that rests has an empty one. -/
theorem inflight_of_rests (h : Kept s) (hrests : ∀ e : Event, e.Internal → s.step e = s)
    (hpolls : s.inflight ≠ [] → s.next = s.post_front) : s.inflight = [] := by
  by_contra hne
  obtain ⟨c, inflight, hin⟩ := List.exists_cons_of_ne_nil hne
  have hnext : s.post_front = s := (hpolls hne).symm.trans (hrests .Next trivial)
  rcases hc : c.wait with append | outcome | _
  · have hfinish := hrests (.Finish 0 (some (.ok .Rejected))) trivial
    have hfront := congrArg Lane.inflight hfinish
    simp only [step, hin, Completion.finish, hc, List.modify_zero_cons, List.cons.injEq,
      and_true] at hfront
    rw [← hfront] at hc
    cases hc
  · have hposted := congrArg Lane.posted hnext
    simp [post_front, hin, hc] at hposted
  · exact h.alive c (by rw [hin]; exact List.mem_cons_self) hc

theorem answered_of_rests (h : Kept s) (hrests : ∀ e : Event, e.Internal → s.step e = s) :
    s.posted.map HubCommand.settles = s.admitted.flatMap LaneJob.owes := by
  obtain ⟨taken, hadm, hans⟩ := h.order
  -- nothing is left when the pipeline, the hand of the worker and the channel are empty
  have hall : s.inflight = [] → s.worker.inHand = [] → s.channel = [] →
      s.posted.map HubCommand.settles = s.admitted.flatMap LaneJob.owes := by
    intro hin hhand hc
    rw [hadm, hhand, hc, ← List.append_nil (s.posted.map _)]
    simpa [hin] using hans
  rcases hw : s.worker with _ | ⟨job, o⟩ | job | job | job | _ | _
  · have hin := inflight_of_rests h hrests (fun _ => by simp [next, hw])
    refine hall hin (by rw [hw]; rfl) ?_
    rcases hc : s.channel with _ | ⟨job, channel⟩
    · rfl
    · have hchannel := congrArg Lane.channel (hrests .Recv trivial)
      simp [step, recv, hw, hc, hin, LANE_PIPELINE_DEPTH] at hchannel
  · have hworker := congrArg Lane.worker (hrests (.Holds (.ok false)) trivial)
    simp [step, holds, hw] at hworker
  · have hworker := congrArg Lane.worker (hrests (.Submitted (.Waits 0)) trivial)
    simp [step, submitted, hw] at hworker
  · have hin := inflight_of_rests h hrests (fun hne => by
      obtain ⟨c, inflight, hin⟩ := List.exists_cons_of_ne_nil hne
      simp [next, hw, hin])
    have hworker := congrArg Lane.worker (hrests .Next trivial)
    simp [step, next, hw, hin] at hworker
  · have hworker := congrArg Lane.worker
      (hrests (.Ran ⟨.ok false, .ok .Rejected, false, false, false, fun _ => false,
        fun _ => false⟩) trivial)
    simp [step, ran, hw] at hworker
  · have hin := inflight_of_rests h hrests (fun hne => by
      obtain ⟨c, inflight, hin⟩ := List.exists_cons_of_ne_nil hne
      simp [next, hw, hin])
    have hworker := congrArg Lane.worker (hrests .Next trivial)
    simp [step, next, hw, hin] at hworker
  · exact hall (h.drained (.inr hw)) (by rw [hw]; rfl) (h.closing (.inr hw)).2

theorem orderly_of_kept (h : Kept s) : Orderly s := by
  obtain ⟨taken, hadm, hans⟩ := h.order
  refine ⟨?_, h.depth, fun job hw => ?_, fun hw => ?_, fun e he => step_shortens s he,
    answered_of_rests h⟩
  · refine ⟨s.inflight.map (fun c => Owed.Append c.job) ++
      (s.worker.inHand ++ s.channel).flatMap LaneJob.owes, ?_⟩
    rw [hadm, ← List.append_assoc, hans]
    simp
  · refine ⟨taken, s.channel, ?_, ?_⟩
    · rw [hadm, hw]
      rfl
    · simpa [h.drained (.inl ⟨job, hw⟩)] using hans
  · rw [hadm, hw, (h.closing (.inr hw)).2]
    simpa [h.drained (.inr hw), Worker.inHand] using hans

/-- However the waits of the pipeline end, the completions of a lane are posted in the order of
its jobs; a job that is no append starts with everything before it answered, and a lane that
rests, or whose channel closed, has answered every job. -/
theorem a_lane_answers_in_order (events : List Event) (hpanics : ∀ e ∈ events, ¬ e.Panics) :
    Orderly (run {} events) :=
  orderly_of_kept (kept_run kept_new events hpanics)

def delivery (topic : String) (work : LaneWork) : LaneJob :=
  .Deliver { client := "s", work
             message := { topic, payload := [], qos := .AtLeastOnce, retain := false } }

/-- Two appends whose waits end the other way round, and a job that runs after both. -/
def laterWaitFirst : List Event :=
  [.Send (delivery "a" (.Append none none false)) false,
    .Send (delivery "b" (.Append none none false)) false,
    .Send (delivery "c" .Passthrough) false, .Close,
    .Recv, .Submitted (.Waits 0), .Recv, .Submitted (.Waits 1), .Recv,
    .Finish 1 (some (.ok (.Stored 2 0))), .Next, .Finish 0 (some (.ok (.Stored 1 0))),
    .Next, .Next, .Next,
    .Ran ⟨.ok false, .ok .Rejected, true, true, true, fun _ => true, fun _ => true⟩,
    .Recv, .Next]

theorem a_lane_answers_three_jobs_in_order :
    (run {} laterWaitFirst).posted.map HubCommand.settles =
        [delivery "a" (.Append none none false), delivery "b" (.Append none none false),
          delivery "c" .Passthrough].flatMap LaneJob.owes ∧
      Orderly (run {} laterWaitFirst) := by
  refine ⟨by decide +kernel, a_lane_answers_in_order laterWaitFirst ?_⟩
  simp [laterWaitFirst, Event.Panics]

end Lane

end mqttd.hub.append_lane
