-- Whatever waits, waits behind a write in flight: the counts of the unwritten deliveries are
-- those of the tables, and every queue behind a key has a write on that key. A release takes a
-- queue apart and may put the rest back; the write that the rest waits for then has to be taken.
import MqttBroker.Hub.Elision

namespace mqttd.hub.write_elision

open mqtt_core BTreeMap

/-! ## What holds between two events -/

/-- What the deliveries that are held or wait weigh together. -/
def load (f : Message → Nat) (e : ElisionState) : Nat :=
  weigh (fun x => f x.message) e.by_client + weigh (fun b => f b.message) e.behind

def size (m : Message) : Nat := m.payload.length

/-- The counts are those of the deliveries, and what waits has a write in flight. -/
structure Settled (e : ElisionState) : Prop where
  entries : e.entries = load (fun _ => 1) e
  bytes : e.bytes = load size e
  waits : ∀ (key : Key) queue, e.behind[key]? = some queue →
    queue ≠ [] ∧ ∃ n, e.writing[key]? = some n ∧ 0 < n

namespace Hub

/-- The next write is refused: the node is browned out, or the lane is full. -/
def Refuses (h : Hub) : Prop := h.rest.brownout = true ∨ h.lanes h.offered = false

/-- A release that comes to a delivery which may not be held, with others behind it, has the
write of that delivery taken. -/
def Takes (key : Key) : List Behind → Hub → Prop
  | [], _ => True
  | b :: queue, h =>
    let h := h.uncount b.message
    if h.rest.online key.client ≠ some key.conn then
      Takes key queue (h.write_behind key.client none b).2
    else if h.elidable key.client b.message b.gate = .Now then
      Takes key queue (h.elide_registered key.client b.message b.message_expiry b.gate)
    else queue = [] ∨ ¬ h.Refuses

/-- The landing of a job's write, and the hub at the release that follows it. -/
def landing (h : Hub) (job : AppendJob) (after : Rest) : Option Key × Hub :=
  let (landed, h) := if job.topic_counted then h.write_landed job else (none, h)
  (landed, { h with rest := after })

def Meets (h : Hub) : Event → Prop
  | .AppendDone i failed after =>
    ∀ job key queue, h.jobs[i]? = some job →
      ({ h with jobs := h.jobs.eraseIdx i }.landing job after).1 = some key →
      ({ h with jobs := h.jobs.eraseIdx i }.landing job after).2.elision.behind[key]? =
        some queue →
      failed = false →
      Takes key queue
        (({ h with jobs := h.jobs.eraseIdx i }.landing job after).2.erase_behind key)
  | _ => True

def AllMeet (h : Hub) : List Event → Prop
  | [] => True
  | e :: rest => h.Meets e ∧ (h.step e).AllMeet rest

end Hub

/-! ## The invariant within an event -/

def OfKey (key : Key) (queue : List Behind) : Prop :=
  ∀ b ∈ queue, keyOf key.client key.conn b.message.topic = key

/-- The deliveries in `hand` are out of the tables and still counted, and the keys of `loose`
may have no write in flight. -/
structure Kept (loose : Key → Prop) (e : ElisionState) (hand : List Message) : Prop where
  entries : e.entries = load (fun _ => 1) e + hand.length
  bytes : e.bytes = load size e + (hand.map size).sum
  positive : ∀ (key : Key) n, e.writing[key]? = some n → 0 < n
  queued : ∀ (key : Key) queue, e.behind[key]? = some queue → queue ≠ []
  behind : ∀ (key : Key) queue, e.behind[key]? = some queue →
    loose key ∨ ∃ n, e.writing[key]? = some n
  window : ∀ (key : Key) queue, e.behind[key]? = some queue → e.window.isSome = true
  topics : ∀ (key : Key) queue, e.behind[key]? = some queue → OfKey key queue

variable {loose : Key → Prop} {e e' : ElisionState} {hand : List Message} {h h' : Hub}
  {client : ClientId} {key : Key}

theorem Kept.settled (hk : Kept (fun _ => False) e []) : Settled e := by
  refine ⟨by simpa using hk.entries, by simpa using hk.bytes, fun key queue hq => ?_⟩
  obtain ⟨n, hn⟩ := (hk.behind key queue hq).resolve_left id
  exact ⟨hk.queued key queue hq, n, hn, hk.positive key n hn⟩

/-- A change that leaves the tables and the counts, and takes no write off. -/
structure Submits (e e' : ElisionState) : Prop where
  by_client : e'.by_client = e.by_client
  behind : e'.behind = e.behind
  entries : e'.entries = e.entries
  bytes : e'.bytes = e.bytes
  window : e'.window = e.window
  positive : (∀ (key : Key) n, e.writing[key]? = some n → 0 < n) →
    ∀ (key : Key) n, e'.writing[key]? = some n → 0 < n
  writing : ∀ (key : Key) n, e.writing[key]? = some n → ∃ n', e'.writing[key]? = some n'

theorem submits_of_writing (hby : e'.by_client = e.by_client) (hbehind : e'.behind = e.behind)
    (hentries : e'.entries = e.entries) (hbytes : e'.bytes = e.bytes)
    (hwindow : e'.window = e.window) (hwriting : e'.writing = e.writing) : Submits e e' := by
  refine ⟨hby, hbehind, hentries, hbytes, hwindow, fun hpos key n hn => ?_, fun key n hn => ⟨n, ?_⟩⟩
  · rw [hwriting] at hn
    exact hpos key n hn
  · rw [hwriting]
    exact hn

theorem Submits.refl (e : ElisionState) : Submits e e :=
  submits_of_writing rfl rfl rfl rfl rfl rfl

theorem Submits.trans {e'' : ElisionState} (h : Submits e e') (h' : Submits e' e'') :
    Submits e e'' where
  by_client := h'.by_client.trans h.by_client
  behind := h'.behind.trans h.behind
  entries := h'.entries.trans h.entries
  bytes := h'.bytes.trans h.bytes
  window := h'.window.trans h.window
  positive hpos := h'.positive (h.positive hpos)
  writing key n hn := by
    obtain ⟨n', hn'⟩ := h.writing key n hn
    exact h'.writing key n' hn'

theorem load_congr (hby : e'.by_client = e.by_client) (hbehind : e'.behind = e.behind)
    (f : Message → Nat) : load f e' = load f e := by
  unfold load
  rw [hby, hbehind]

theorem Kept.submits (hk : Kept loose e hand) (hs : Submits e e') : Kept loose e' hand := by
  have hload := load_congr hs.by_client hs.behind
  refine ⟨?_, ?_, hs.positive hk.positive, ?_, ?_, ?_, ?_⟩
  · rw [hs.entries, hload]
    exact hk.entries
  · rw [hs.bytes, hload]
    exact hk.bytes
  · rw [hs.behind]
    exact hk.queued
  · intro key queue hq
    rw [hs.behind] at hq
    refine (hk.behind key queue hq).imp_right ?_
    rintro ⟨n, hn⟩
    exact hs.writing key n hn
  · rw [hs.behind, hs.window]
    exact hk.window
  · rw [hs.behind]
    exact hk.topics

theorem Kept.weaken {loose' : Key → Prop} (hk : Kept loose e hand)
    (himp : ∀ k queue, e.behind[k]? = some queue → loose k → loose' k) : Kept loose' e hand :=
  { hk with behind := fun k queue hq => (hk.behind k queue hq).imp_left (himp k queue hq) }

namespace Hub

/-! ## Submissions -/

theorem submits_lane_job (h : Hub) (job : AppendJob) :
    (h.submit_lane_job job).2.elision = h.elision := by
  unfold submit_lane_job
  split <;> rfl

theorem submits_count_writing (h : Hub) (key : Key) :
    Submits h.elision (h.count_writing key).elision := by
  refine ⟨rfl, rfl, rfl, rfl, rfl, ?_, ?_⟩
  · intro hpos k n hn
    simp only [count_writing, get_insert] at hn
    split at hn
    · cases hn
      omega
    · exact hpos k n hn
  · intro k n hn
    simp only [count_writing, get_insert]
    split
    · exact ⟨_, rfl⟩
    · exact ⟨n, hn⟩

theorem submit_counted_cases (h : Hub) (job : AppendJob) :
    (h.submit_counted job).2.elision = h.elision ∨
    (job.topic_counted = true ∧
      (h.submit_counted job).2.elision = (h.count_writing (jobKey job)).elision) := by
  have hlane := submits_lane_job h job
  unfold submit_counted
  rcases hs : h.submit_lane_job job with ⟨out, h'⟩
  rw [hs] at hlane
  have hsame : h'.elision = h.elision := hlane
  cases out with
  | Queued =>
    dsimp only
    split
    · rename_i hcounted
      refine .inr ⟨hcounted, ?_⟩
      unfold count_writing
      rw [hsame]
    · exact .inl hsame
  | Refused => exact .inl hsame
  | Full => exact .inl hsame

theorem submits_counted (h : Hub) (job : AppendJob) :
    Submits h.elision (h.submit_counted job).2.elision := by
  rcases submit_counted_cases h job with heq | ⟨-, heq⟩
  · rw [heq]
    exact Submits.refl _
  · rw [heq]
    exact submits_count_writing h _

theorem submit_uncounted (h : Hub) {job : AppendJob} (hj : job.topic_counted = false) :
    (h.submit_counted job).2.elision = h.elision := by
  rcases submit_counted_cases h job with heq | ⟨hcounted, -⟩
  · exact heq
  · rw [hj] at hcounted
    cases hcounted

theorem submits_append (h : Hub) (client : ClientId) (m : Message) (expiry : Option Nat)
    (gate : AppendGate) (conn : Option Nat) :
    Submits h.elision (h.submit_append client m expiry gate conn).2.elision := by
  unfold submit_append
  split
  · exact Submits.refl _
  · exact submits_counted h _

theorem append_offline (h : Hub) (client : ClientId) (m : Message) (expiry : Option Nat)
    (gate : AppendGate) :
    (h.submit_append client m expiry gate none).2.elision = h.elision := by
  unfold submit_append
  split
  · rfl
  · exact submit_uncounted h (by simp)

theorem fallback_elision (h : Hub) (client : ClientId) (m : Message) (expiry : Option Nat)
    (gate : AppendGate) (delivered : Option UInt16) :
    (h.fallback_write client m expiry gate delivered).2.elision = h.elision := by
  unfold fallback_write
  split
  · rfl
  · exact submit_uncounted h (by simp)

theorem submits_note_fallback (h : Hub) : Submits h.elision h.note_fallback.elision :=
  submits_of_writing rfl rfl rfl rfl rfl rfl

theorem submits_write_behind (h : Hub) (client : ClientId) (conn : Option Nat) (b : Behind) :
    Submits h.elision (h.write_behind client conn b).2.elision :=
  (submits_note_fallback h).trans (submits_append _ _ _ _ _ _)

/-! ## Deliveries in hand -/

theorem kept_uncount {m : Message} (hk : Kept loose h.elision (m :: hand)) :
    Kept loose (h.uncount m).elision hand := by
  have hentries := hk.entries
  have hbytes := hk.bytes
  rw [List.length_cons] at hentries
  rw [List.map_cons, List.sum_cons] at hbytes
  refine ⟨?_, ?_, hk.positive, hk.queued, hk.behind, hk.window, hk.topics⟩
  · show h.elision.entries - 1 = load (fun _ => 1) h.elision + hand.length
    omega
  · show h.elision.bytes - size m = load size h.elision + (hand.map size).sum
    omega

/-- A delivery that is held is counted and in the table. -/
theorem kept_hold (hk : Kept loose h.elision hand) (client : ClientId) (x : Elided) :
    Kept loose (h.hold client x).elision hand := by
  have hload (f : Message → Nat) :
      load f (h.hold client x).elision = load f h.elision + f x.message := by
    simp only [load, hold, weigh_push]
    omega
  have hentries := hk.entries
  have hbytes := hk.bytes
  refine ⟨?_, ?_, hk.positive, hk.queued, hk.behind, hk.window, hk.topics⟩
  · rw [hload]
    show h.elision.entries + 1 = _
    omega
  · rw [hload]
    show h.elision.bytes + size x.message = _
    omega

theorem kept_elide_registered (hk : Kept loose h.elision hand) (client : ClientId) (m : Message)
    (expiry : Option Nat) (gate : AppendGate) :
    Kept loose (h.elide_registered client m expiry gate).elision hand := by
  unfold elide_registered
  have hsend : (h.send_qos_publish client).2.elision = h.elision := rfl
  rcases hs : h.send_qos_publish client with ⟨_ | pkid, h'⟩
  · rw [hs] at hsend
    dsimp only
    rw [fallback_elision, hsend]
    exact hk
  · rw [hs] at hsend
    have hk' : Kept loose h'.elision hand := by
      rw [hsend]
      exact hk
    exact kept_hold hk' client _

theorem kept_set_queue (hk : Kept loose h.elision hand) {queue taken left : List Elided}
    (hq : h.elision.by_client[client]? = some queue) (hperm : queue.Perm (taken ++ left)) :
    Kept loose (h.set_queue client left).elision (taken.map (·.message) ++ hand) := by
  have hsum (f : Message → Nat) : (queue.map (fun x => f x.message)).sum =
      (taken.map (fun x => f x.message)).sum + (left.map (fun x => f x.message)).sum := by
    rw [(hperm.map _).sum_eq, List.map_append, List.sum_append]
  have hload (f : Message → Nat) : load f h.elision =
      load f (h.set_queue client left).elision + (taken.map (fun x => f x.message)).sum := by
    have herase := weigh_erase (g := fun x : Elided => f x.message) hq
    rw [hsum] at herase
    simp only [load, set_queue, herase]
    cases left with
    | nil =>
      simp only [List.isEmpty_nil, if_true, List.map_nil, List.sum_nil]
      omega
    | cons x left =>
      simp only [List.isEmpty_cons, Bool.false_eq_true, if_false, weigh_insert]
      omega
  have hentries := hk.entries
  have hbytes := hk.bytes
  refine ⟨?_, ?_, hk.positive, hk.queued, hk.behind, hk.window, hk.topics⟩
  · show h.elision.entries = _
    have := hload (fun _ => 1)
    simp at this ⊢
    omega
  · show h.elision.bytes = _
    have := hload size
    rw [List.map_append, List.sum_append, List.map_map]
    simp only [Function.comp_def]
    omega

theorem kept_fall_back (client : ClientId) (queue : List Elided) :
    ∀ {h : Hub}, Kept loose h.elision (queue.map (·.message) ++ hand) →
      Kept loose (fall_back client queue h).elision hand := by
  induction queue with
  | nil => exact fun hk => hk
  | cons x queue ih =>
    intro h hk
    unfold fall_back
    refine ih ?_
    rw [fallback_elision]
    exact (kept_uncount hk).submits (submits_note_fallback _)

theorem kept_flush_elided (hk : Kept loose h.elision hand) (client : ClientId) :
    Kept loose (h.flush_elided client).elision hand := by
  unfold flush_elided
  split
  · exact hk
  · rename_i queue hq
    have hperm : queue.Perm (queue ++ []) := by simp
    exact kept_fall_back client queue (kept_set_queue hk hq hperm)

theorem kept_flush_held_topic (hk : Kept loose h.elision hand) (client : ClientId)
    (topic : String) : Kept loose (h.flush_held_topic client topic).elision hand := by
  unfold flush_held_topic
  split
  · exact hk
  · rename_i queue hq
    split
    · refine kept_fall_back client _ (kept_set_queue hk hq ?_)
      exact (List.filter_append_perm _ queue).symm
    · exact hk

theorem kept_elided_acked (hk : Kept loose h.elision hand) (client : ClientId) (pkid : UInt16) :
    Kept loose (h.elided_acked client pkid).elision hand := by
  unfold elided_acked
  split
  · exact hk
  · rename_i queue hq
    split
    · exact hk
    · rename_i i hi
      split
      · exact hk
      · rename_i x hx
        have hperm : queue.Perm ([x] ++ queue.eraseIdx i) := by
          obtain ⟨hlt, rfl⟩ := List.getElem?_eq_some_iff.mp hx
          exact (List.getElem_cons_eraseIdx_perm hlt).symm
        have hset := kept_set_queue hk hq hperm
        exact (kept_uncount hset).submits (submits_of_writing rfl rfl rfl rfl rfl rfl)

/-! ## What waits -/

theorem kept_erase_behind (hk : Kept loose h.elision []) {queue : List Behind}
    (hq : h.elision.behind[key]? = some queue) :
    Kept (fun k => loose k ∧ k ≠ key) (h.erase_behind key).elision (queue.map (·.message)) := by
  have hload (f : Message → Nat) : load f h.elision =
      load f (h.erase_behind key).elision + (queue.map (fun b => f b.message)).sum := by
    simp only [load, erase_behind, weigh_erase (g := fun b : Behind => f b.message) hq]
    omega
  have hget {k : Key} {q : List Behind} (hkq : (h.erase_behind key).elision.behind[k]? = some q) :
      k ≠ key ∧ h.elision.behind[k]? = some q := by
    simp only [erase_behind, get_erase] at hkq
    split at hkq
    · cases hkq
    · rename_i hne
      exact ⟨fun heq => hne heq.symm, hkq⟩
  have hentries := hk.entries
  have hbytes := hk.bytes
  refine ⟨?_, ?_, hk.positive, ?_, ?_, ?_, ?_⟩
  · show h.elision.entries = _
    have := hload (fun _ => 1)
    simp at this hentries ⊢
    omega
  · show h.elision.bytes = _
    have := hload size
    rw [List.map_map]
    simp only [Function.comp_def]
    simp at hbytes
    omega
  · intro k q hkq
    exact hk.queued k q (hget hkq).2
  · intro k q hkq
    exact (hk.behind k q (hget hkq).2).imp_left (fun hl => ⟨hl, (hget hkq).1⟩)
  · intro k q hkq
    exact hk.window k q (hget hkq).2
  · intro k q hkq
    exact hk.topics k q (hget hkq).2

theorem kept_write_all (client : ClientId) (conn : Option Nat) (queue : List Behind) :
    ∀ {h : Hub}, Kept loose h.elision (queue.map (·.message)) →
      Kept loose (write_all client conn queue h).elision [] := by
  induction queue with
  | nil => exact fun hk => hk
  | cons b queue ih =>
    intro h hk
    unfold write_all
    exact ih ((kept_uncount hk).submits (submits_write_behind _ _ _ _))

theorem kept_flush_behind (hk : Kept loose h.elision []) (key : Key) (conn : Option Nat) :
    Kept (fun k => loose k ∧ k ≠ key) (h.flush_behind key conn).elision [] := by
  unfold flush_behind
  split
  · rename_i hnone
    refine hk.weaken (fun k queue hq hl => ⟨hl, ?_⟩)
    rintro rfl
    rw [hnone] at hq
    cases hq
  · rename_i queue hq
    exact kept_write_all _ conn queue (kept_erase_behind hk hq)

theorem write_all_behind (client : ClientId) (conn : Option Nat) (queue : List Behind) (h : Hub) :
    (write_all client conn queue h).elision.behind = h.elision.behind := by
  induction queue generalizing h with
  | nil => rfl
  | cons b queue ih =>
    unfold write_all
    rw [ih]
    exact (submits_write_behind (h.uncount b.message) client conn b).behind

theorem flush_behind_of_some {conn : Option Nat} {k : Key} {queue : List Behind}
    (hq : (h.flush_behind key conn).elision.behind[k]? = some queue) :
    h.elision.behind[k]? = some queue := by
  unfold flush_behind at hq
  split at hq
  · exact hq
  · rw [write_all_behind] at hq
    simp only [erase_behind, get_erase] at hq
    split at hq
    · cases hq
    · exact hq

theorem flush_keys_of_some (conn : Hub → Key → Option Nat) (keys : List Key) {k : Key}
    {queue : List Behind} :
    ∀ {h : Hub}, (keys.foldl (fun h key => h.flush_behind key (conn h key)) h).elision.behind[k]? =
      some queue → h.elision.behind[k]? = some queue := by
  induction keys with
  | nil => exact fun hq => hq
  | cons key keys ih => exact fun hq => flush_behind_of_some (ih hq)

theorem kept_flush_keys (conn : Hub → Key → Option Nat) (keys : List Key) :
    ∀ {h : Hub}, Kept loose h.elision [] →
      Kept (fun k => loose k ∧ k ∉ keys)
        (keys.foldl (fun h key => h.flush_behind key (conn h key)) h).elision [] := by
  induction keys generalizing loose with
  | nil => exact fun hk => hk.weaken (fun k _ _ hl => ⟨hl, List.not_mem_nil⟩)
  | cons key keys ih =>
    intro h hk
    refine (ih (kept_flush_behind hk key (conn h key))).weaken ?_
    rintro k - - ⟨⟨hl, hne⟩, hout⟩
    exact ⟨hl, by simp [hne, hout]⟩

/-! ## A release -/

theorem kept_insert_behind {queue : List Behind}
    (hk : Kept loose h.elision (queue.map (·.message))) (hnone : h.elision.behind[key]? = none)
    (hqueue : queue ≠ []) (hwrite : loose key ∨ ∃ n, h.elision.writing[key]? = some n)
    (hwindow : h.elision.window.isSome = true) (hkey : OfKey key queue) :
    Kept loose { h.elision with behind := h.elision.behind.insert key queue } [] := by
  have hload (f : Message → Nat) :
      load f { h.elision with behind := h.elision.behind.insert key queue } =
        load f h.elision + (queue.map (fun b => f b.message)).sum := by
    simp only [load, weigh_insert, erase_of_none hnone]
    omega
  have hentries := hk.entries
  have hbytes := hk.bytes
  refine ⟨?_, ?_, hk.positive, ?_, ?_, ?_, ?_⟩
  · rw [hload]
    simpa using hentries
  · rw [hload]
    simpa [Function.comp_def] using hbytes
  all_goals
    intro k q hq
    simp only [get_insert] at hq
    split at hq
  · cases hq
    exact hqueue
  · exact hk.queued k q hq
  · rename_i heq
    exact heq ▸ hwrite
  · exact hk.behind k q hq
  · exact hwindow
  · exact hk.window k q hq
  · rename_i heq
    cases hq
    exact heq ▸ hkey
  · exact hk.topics k q hq

/-- A hold on the wire leaves what waits and what is being written. -/
theorem elide_leaves (h : Hub) (client : ClientId) (m : Message) (expiry : Option Nat)
    (gate : AppendGate) :
    (h.elide_registered client m expiry gate).elision.behind = h.elision.behind ∧
    (h.elide_registered client m expiry gate).elision.writing = h.elision.writing ∧
    (h.elide_registered client m expiry gate).elision.window = h.elision.window := by
  unfold elide_registered
  have hsend : (h.send_qos_publish client).2.elision = h.elision := rfl
  rcases hs : h.send_qos_publish client with ⟨_ | pkid, h'⟩
  · rw [hs] at hsend
    dsimp only
    rw [fallback_elision, hsend]
    exact ⟨rfl, rfl, rfl⟩
  · rw [hs] at hsend
    have hsame : h'.elision = h.elision := hsend
    simp only [hold, hsame]
    exact ⟨trivial, trivial, trivial⟩

theorem write_offline_leaves (h : Hub) (client : ClientId) (b : Behind) :
    (h.write_behind client none b).2.elision.writing = h.elision.writing := by
  unfold write_behind
  rw [append_offline]
  rfl

theorem write_taken (hno : ¬ h.Refuses) (hwindow : h.elision.window.isSome = true)
    (client : ClientId) (conn : Nat) (b : Behind) : ∃ n, (h.write_behind client (some conn) b).2.elision.writing[
      keyOf client conn b.message.topic]? = some n := by
  unfold Refuses at hno
  obtain ⟨hbrown, hlane⟩ := not_or.mp hno
  simp only [Bool.not_eq_true] at hbrown
  simp only [Bool.not_eq_false] at hlane
  simp [write_behind, submit_append, note_fallback, hbrown, submit_append_job, submit_counted,
    submit_lane_job, hlane, hwindow, count_writing, jobKey]

theorem write_refused (hre : h.Refuses) (client : ClientId) (conn : Option Nat) (b : Behind) :
    (h.write_behind client conn b).2.elision.writing = h.elision.writing := by
  unfold Refuses at hre
  unfold write_behind submit_append
  cases hbrown : h.rest.brownout with
  | true => simp [note_fallback, hbrown]
  | false =>
    have hlane := hre.resolve_left (by simp [hbrown])
    simp [note_fallback, hbrown, submit_append_job, submit_counted, submit_lane_job, hlane]

theorem kept_release_loop (failed : Bool) (queue : List Behind) :
    ∀ {h : Hub}, Kept loose h.elision (queue.map (·.message)) →
      h.elision.behind[key]? = none → h.elision.window.isSome = true → OfKey key queue →
      (failed = false → Takes key queue h) →
      Kept loose (release_loop key failed queue h).elision [] := by
  induction queue with
  | nil => exact fun hk _ _ _ _ => hk
  | cons b queue ih =>
    intro h hk hnone hwindow hkey htakes
    have hkey' : OfKey key queue := fun x hx => hkey x (List.mem_cons_of_mem b hx)
    have hk' : Kept loose (h.uncount b.message).elision (queue.map (·.message)) := kept_uncount hk
    unfold release_loop
    unfold Takes at htakes
    dsimp only at htakes ⊢
    cases failed with
    | true =>
      exact ih (hk'.submits (submits_note_fallback _)) hnone hwindow hkey' (fun hf => by cases hf)
    | false =>
      have htake := htakes rfl
      simp only [Bool.false_eq_true, if_false]
      by_cases hon : (h.uncount b.message).rest.online key.client ≠ some key.conn
      · rw [if_pos hon] at htake ⊢
        have hsub := submits_write_behind (h.uncount b.message) key.client none b
        refine ih (hk'.submits hsub) ?_ ?_ hkey' (fun _ => htake)
        · rw [hsub.behind]
          exact hnone
        · rw [hsub.window]
          exact hwindow
      · rw [if_neg hon] at htake ⊢
        by_cases hel : (h.uncount b.message).elidable key.client b.message b.gate = .Now
        · rw [if_pos hel] at htake ⊢
          obtain ⟨hbehind, -, hwin⟩ := elide_leaves (h.uncount b.message) key.client b.message
            b.message_expiry b.gate
          refine ih (kept_elide_registered hk' _ _ _ _) ?_ ?_ hkey' (fun _ => htake)
          · rw [hbehind]
            exact hnone
          · rw [hwin]
            exact hwindow
        · rw [if_neg hel] at htake ⊢
          have hsub := submits_write_behind (h.uncount b.message) key.client (some key.conn) b
          cases queue with
          | nil => exact hk'.submits hsub
          | cons c queue =>
            have hno := htake.resolve_left (by simp)
            refine kept_insert_behind (hk'.submits hsub) ?_ (by simp) (.inr ?_) ?_ hkey'
            · rw [hsub.behind]
              exact hnone
            · have hwrite := write_taken hno hwindow key.client key.conn b
              rwa [hkey b List.mem_cons_self] at hwrite
            · rw [hsub.window]
              exact hwindow

theorem release_loop_refused (queue : List Behind) :
    ∀ {h : Hub}, h.elision.writing[key]? = none → ¬ Takes key queue h →
      ∃ left, (release_loop key false queue h).elision.behind[key]? = some left ∧
        (release_loop key false queue h).elision.writing[key]? = none := by
  induction queue with
  | nil => exact fun _ hno => absurd trivial hno
  | cons b queue ih =>
    intro h hnone hno
    unfold Takes at hno
    unfold release_loop
    dsimp only at hno ⊢
    simp only [Bool.false_eq_true, if_false]
    by_cases hon : (h.uncount b.message).rest.online key.client ≠ some key.conn
    · rw [if_pos hon] at hno ⊢
      refine ih ?_ hno
      rw [write_offline_leaves]
      exact hnone
    · rw [if_neg hon] at hno ⊢
      by_cases hel : (h.uncount b.message).elidable key.client b.message b.gate = .Now
      · rw [if_pos hel] at hno ⊢
        refine ih ?_ hno
        rw [(elide_leaves _ _ _ _ _).2.1]
        exact hnone
      · rw [if_neg hel] at hno ⊢
        obtain ⟨hqueue, hre⟩ := not_or.mp hno
        rw [not_not] at hre
        have hwriting := write_refused hre key.client (some key.conn) b
        cases queue with
        | nil => exact absurd rfl hqueue
        | cons c queue =>
          refine ⟨c :: queue, by simp, ?_⟩
          simp only [List.isEmpty_cons, Bool.false_eq_true, if_false]
          rw [hwriting]
          exact hnone

/-! ## The events -/

/-- Nothing is loose between two events. -/
abbrev Sound (h : Hub) : Prop := Kept (fun _ => False) h.elision []

theorem sound_of_none {P : Key → Prop} (hk : Kept (fun k => False ∧ P k) h.elision []) :
    h.Sound :=
  hk.weaken (fun _ _ _ hl => hl.1)

theorem sound_flush_behind (hs : h.Sound) (key : Key) (conn : Option Nat) :
    (h.flush_behind key conn).Sound :=
  sound_of_none (kept_flush_behind hs key conn)

theorem sound_flush_elided_topic (hs : h.Sound) (client : ClientId) (topic : String) :
    (h.flush_elided_topic client topic).Sound := by
  unfold flush_elided_topic flush_behind_topic
  have hheld := kept_flush_held_topic hs client topic
  split
  · exact hheld
  · exact sound_flush_behind hheld _ _

/-- A delivery waits where a write on its session, connection and topic is in flight. -/
theorem elidable_behind {m : Message} {gate : AppendGate} {conn : Nat}
    (hon : h.rest.online client = some conn) (hb : h.elidable client m gate = .Behind) :
    h.elision.window.isSome = true ∧
      ∃ n, h.elision.writing[keyOf client conn m.topic]? = some n := by
  unfold elidable at hb
  dsimp only at hb
  split at hb
  · cases hb
  rename_i hfirst
  refine ⟨?_, ?_⟩
  · cases hw : h.elision.window with
    | none => simp [hw] at hfirst
    | some w => rfl
  split at hb
  · cases hb
  split at hb
  · cases hb
  split at hb
  · cases hb
  split at hb
  · cases hb
  split at hb
  · split at hb
    · rename_i hbehind
      rw [hon] at hbehind
      simp only [Option.any_some, Bool.and_eq_true] at hbehind
      obtain ⟨-, hcontains⟩ := hbehind
      rw [Std.ExtTreeMap.contains_iff_mem] at hcontains
      exact ⟨_, Std.ExtTreeMap.getElem?_eq_some_getElem hcontains⟩
    · cases hb
  · cases hb

theorem keyOf_parts (client : ClientId) (conn : Nat) (topic topic' : String) :
    keyOf (keyOf client conn topic').client (keyOf client conn topic').conn topic =
      keyOf client conn topic := rfl

theorem sound_queue_behind (hs : h.Sound) (client : ClientId) (conn : Nat) (b : Behind)
    (hwindow : h.elision.window.isSome = true)
    (hwrite : ∃ n, h.elision.writing[keyOf client conn b.message.topic]? = some n) :
    (h.queue_behind client conn b).Sound := by
  have hload (f : Message → Nat) :
      load f (h.queue_behind client conn b).elision = load f h.elision + f b.message := by
    simp only [load, queue_behind, weigh_push]
    omega
  have hentries := hs.entries
  have hbytes := hs.bytes
  refine ⟨?_, ?_, hs.positive, ?_, ?_, ?_, ?_⟩
  · rw [hload]
    show h.elision.entries + 1 = _
    omega
  · rw [hload]
    show h.elision.bytes + size b.message = _
    omega
  all_goals
    intro k q hq
    simp only [queue_behind, get_insert] at hq
    split at hq
  · cases hq
    simp
  · exact hs.queued k q hq
  · rename_i heq
    exact .inr (heq ▸ hwrite)
  · exact hs.behind k q hq
  · exact hwindow
  · exact hs.window k q hq
  · rename_i heq
    cases hq
    subst heq
    intro x hx
    rcases List.mem_append.mp hx with hx | hx
    · rcases hget : h.elision.behind[keyOf client conn b.message.topic]? with _ | old
      · simp [hget] at hx
      · rw [hget] at hx
        exact hs.topics _ old hget x hx
    · rw [List.mem_singleton.mp hx]
      exact keyOf_parts _ _ _ _
  · exact hs.topics k q hq

theorem sound_deliver (hs : h.Sound) (client : ClientId) (is_persistent : Bool) (m : Message)
    (expiry : Option Nat) (gate : AppendGate) :
    (h.deliver_to_client client is_persistent m expiry gate).Sound := by
  unfold deliver_to_client
  split
  · exact hs
  dsimp only
  split
  · rename_i conn hon
    split
    · split
      · exact kept_elide_registered hs client m expiry gate
      · rename_i hel
        obtain ⟨hwindow, hwrite⟩ := elidable_behind hon hel
        exact sound_queue_behind hs client conn _ hwindow hwrite
      · have hflush := sound_flush_elided_topic hs client m.topic
        have hsub := submits_append (h.flush_elided_topic client m.topic) client m expiry gate
          (some conn)
        have hsound := hflush.submits hsub
        rcases happend : (h.flush_elided_topic client m.topic).submit_append client m expiry gate
          (some conn) with ⟨out, h'⟩
        rw [happend] at hsound
        cases out with
        | Queued => exact hsound
        | Full => exact hsound
        | Refused =>
          dsimp only
          split
          · exact hsound.submits (submits_counted _ _)
          · exact hsound
    · split
      · exact hs.submits (submits_counted _ _)
      · exact hs
  · split
    · exact hs.submits (submits_append _ _ _ _ _ _)
    · exact hs

/-- A connection goes: its writes are no longer counted, and its queues are flushed. -/
theorem sound_forget_writing (hs : h.Sound) (client : ClientId) (conn_id : Nat) :
    (h.forget_writing client conn_id).Sound := by
  unfold forget_writing
  dsimp only
  have hfilter : Kept (fun k => (k.client == client && k.conn == conn_id) = true)
      { h.elision with writing := h.elision.writing.filter (fun key _ =>
        !(key.client == client && key.conn == conn_id)) } [] := by
    refine ⟨hs.entries, hs.bytes, ?_, hs.queued, ?_, hs.window, hs.topics⟩
    · intro k n hn
      rw [get_filter] at hn
      obtain ⟨hn, -⟩ := Option.filter_eq_some_iff.mp hn
      exact hs.positive k n hn
    · intro k q hq
      by_cases hgone : (k.client == client && k.conn == conn_id) = true
      · exact .inl hgone
      · obtain ⟨n, hn⟩ := (hs.behind k q hq).resolve_left id
        refine .inr ⟨n, ?_⟩
        rw [get_filter, hn]
        simp [hgone]
  refine (kept_flush_keys (fun _ _ => none) _ hfilter).weaken ?_
  rintro k q hq ⟨hgone, hout⟩
  have hwas := flush_keys_of_some _ _ hq
  refine hout (List.mem_filter.mpr ⟨?_, hgone⟩)
  exact (BTreeMap.mem_keys _ k).mpr ⟨q, hwas⟩

theorem sound_flush_all_behind (hs : h.Sound) : h.flush_all_behind.Sound :=
  sound_of_none (kept_flush_keys _ _ hs)

theorem sound_expire_loop (deadlines : List (Nat × ClientId)) :
    ∀ {h : Hub}, h.Sound → (expire_loop deadlines h).Sound := by
  induction deadlines with
  | nil => exact fun hs => hs.submits (submits_of_writing rfl rfl rfl rfl rfl rfl)
  | cons d left ih =>
    intro h hs
    unfold expire_loop
    split
    · exact hs.submits (submits_of_writing rfl rfl rfl rfl rfl rfl)
    · split
      · refine ih (Kept.submits (kept_flush_elided hs d.2) ?_)
        exact submits_of_writing rfl rfl rfl rfl rfl rfl
      · exact ih hs

theorem sound_flush_clients (clients : List ClientId) :
    ∀ {h : Hub}, h.Sound → (clients.foldl flush_elided h).Sound := by
  induction clients with
  | nil => exact fun hs => hs
  | cons client clients ih => exact fun hs => ih (kept_flush_elided hs client)

theorem sound_expire_elided (hs : h.Sound) : h.expire_elided.Sound := by
  unfold expire_elided
  split
  · exact hs.submits (submits_of_writing rfl rfl rfl rfl rfl rfl)
  · split
    · have hall : (h.elision.by_client.keys.foldl flush_elided h).flush_all_behind.Sound :=
        sound_flush_all_behind (sound_flush_clients _ hs)
      exact hall.submits (submits_of_writing rfl rfl rfl rfl rfl rfl)
    · exact sound_expire_loop _ hs

theorem kept_landing (hs : h.Sound) (job : AppendJob) (after : Rest) :
    ((h.landing job after).1 = none ∧ (h.landing job after).2.Sound) ∨
    ∃ key, (h.landing job after).1 = some key ∧
      Kept (fun k => k = key) (h.landing job after).2.elision [] ∧
      (h.landing job after).2.elision.writing[key]? = none := by
  unfold landing
  by_cases hcounted : job.topic_counted = true
  · rw [if_pos hcounted]
    unfold write_landed
    dsimp only
    rcases hn : h.elision.writing[jobKey job]? with _ | n
    · exact .inl ⟨rfl, hs⟩
    · dsimp only
      split
      · rename_i hpos
        refine .inl ⟨rfl, hs.submits ⟨rfl, rfl, rfl, rfl, rfl, ?_, ?_⟩⟩
        · intro hall k n' hn'
          simp only [get_insert] at hn'
          split at hn'
          · cases hn'
            exact hpos
          · exact hall k n' hn'
        · intro k n' hn'
          simp only [get_insert]
          split
          · exact ⟨_, rfl⟩
          · exact ⟨n', hn'⟩
      · have herased : Kept (fun k => k = jobKey job)
            { h.elision with writing := h.elision.writing.erase (jobKey job) } [] := by
          refine ⟨hs.entries, hs.bytes, ?_, hs.queued, ?_, hs.window, hs.topics⟩
          · intro k n' hn'
            rw [get_erase] at hn'
            split at hn'
            · cases hn'
            · exact hs.positive k n' hn'
          · intro k q hq
            by_cases hk : k = jobKey job
            · exact .inl hk
            · obtain ⟨n', hn'⟩ := (hs.behind k q hq).resolve_left id
              refine .inr ⟨n', ?_⟩
              rw [get_erase, if_neg (Ne.symm hk)]
              exact hn'
        by_cases hcontains : h.elision.behind.contains (jobKey job) = true
        · rw [if_pos hcontains]
          refine .inr ⟨jobKey job, rfl, herased, ?_⟩
          rw [get_erase, if_pos rfl]
        · rw [if_neg hcontains]
          refine .inl ⟨rfl, herased.weaken ?_⟩
          rintro k q hq rfl
          refine hcontains ?_
          rw [Std.ExtTreeMap.contains_iff_mem, ← Std.ExtTreeMap.isSome_getElem?_iff_mem]
          have hq' : h.elision.behind[jobKey job]? = some q := hq
          rw [hq']
          rfl
  · rw [if_neg hcounted]
    exact .inl ⟨rfl, hs⟩

theorem append_done_eq (h : Hub) (job : AppendJob) (failed : Bool) (after : Rest) :
    h.append_done job failed after = match (h.landing job after).1 with
      | some key => (h.landing job after).2.release_behind key failed
      | none => (h.landing job after).2 := by
  unfold append_done landing
  rcases (if job.topic_counted then h.write_landed job else (none, h)) with ⟨_ | key, h'⟩
  · rfl
  · rfl

theorem sound_release_behind {failed : Bool} (hk : Kept (fun k => k = key) h.elision [])
    (htakes : ∀ queue, h.elision.behind[key]? = some queue → failed = false →
      Takes key queue (h.erase_behind key)) : (h.release_behind key failed).Sound := by
  unfold release_behind
  split
  · rename_i hnone
    refine hk.weaken ?_
    rintro k q hq rfl
    rw [hnone] at hq
    cases hq
  · rename_i queue hq
    have herased := kept_erase_behind hk hq
    have hnone : (h.erase_behind key).elision.behind[key]? = none := by
      simp [erase_behind]
    refine (kept_release_loop failed queue herased hnone (hk.window key queue hq)
      (hk.topics key queue hq) (htakes queue hq)).weaken ?_
    rintro k q - ⟨heq, hne⟩
    exact hne heq

/-! ## Runs -/

variable {event : Event}

theorem sound_step (hs : h.Sound) (hm : h.Meets event) : (h.step event).Sound := by
  cases event with
  | Deliver client is_persistent m expiry gate => exact sound_deliver hs _ _ _ _ _
  | AppendDone i failed after =>
    unfold step
    dsimp only
    rcases hjob : h.jobs[i]? with _ | job
    · exact hs
    · dsimp only
      have hs' : Sound { h with jobs := h.jobs.eraseIdx i } := hs
      rw [append_done_eq]
      rcases kept_landing hs' job after with ⟨hnone, hsound⟩ | ⟨key, hkey, hk, -⟩
      · rw [hnone]
        exact hsound
      · rw [hkey]
        exact sound_release_behind hk (fun queue hq hf => hm job key queue hjob hkey hq hf)
  | PubAck client pkid => exact kept_elided_acked hs client pkid
  | Detach client conn_id after =>
    refine sound_forget_writing (Kept.submits (kept_flush_elided hs client) ?_) client conn_id
    exact submits_of_writing rfl rfl rfl rfl rfl rfl
  | Expire => exact sound_expire_elided hs
  | Other after => exact hs

/-- A release whose write is refused breaks it. -/
theorem meets_of_settled (hs : h.Sound) (hsettled : Settled (h.step event).elision) :
    h.Meets event := by
  cases event with
  | AppendDone i failed after =>
    rintro job key queue hjob hkey hq rfl
    by_contra hno
    have hs' : Sound { h with jobs := h.jobs.eraseIdx i } := hs
    have hwriting : (({ h with jobs := h.jobs.eraseIdx i }.landing job
        after).2.erase_behind key).elision.writing[key]? = none := by
      rcases kept_landing hs' job after with ⟨hnone, -⟩ | ⟨key', hkey', -, hwriting⟩
      · rw [hkey] at hnone
        cases hnone
      · rw [hkey] at hkey'
        cases hkey'
        exact hwriting
    obtain ⟨left, hleft, hnone⟩ := release_loop_refused queue hwriting hno
    have hstep : h.step (.AppendDone i false after) = release_loop key false queue
        (({ h with jobs := h.jobs.eraseIdx i }.landing job after).2.erase_behind key) := by
      unfold step
      simp only [hjob]
      rw [append_done_eq, hkey]
      dsimp only
      unfold release_behind
      rw [hq]
    rw [hstep] at hsettled
    obtain ⟨n, hn, -⟩ := (hsettled.waits key left hleft).2
    rw [hnone] at hn
    cases hn
  | _ => trivial

theorem sound_new (window : Option Nat) (rest : Rest) (lanes : Nat → Bool) (sends : Nat → Sent) :
    (new window rest lanes sends).Sound := by
  refine ⟨?_, ?_, ?_, ?_, ?_, ?_, ?_⟩
  all_goals simp [new, load]

theorem Sound.run_iff (hs : h.Sound) (events : List Event) :
    h.AllMeet events ↔ ∀ done left, events = done ++ left → Settled (h.run done).elision := by
  induction events generalizing h with
  | nil =>
    refine iff_of_true trivial (fun done left heq => ?_)
    obtain ⟨rfl, -⟩ := List.append_eq_nil_iff.mp heq.symm
    exact hs.settled
  | cons e rest ih =>
    constructor
    · rintro ⟨hm, hrest⟩ done left heq
      cases done with
      | nil => exact hs.settled
      | cons d done =>
        obtain ⟨rfl, rfl⟩ := List.cons_eq_cons.mp heq
        exact (ih (sound_step hs hm)).mp hrest done left rfl
    · intro hall
      have hm : h.Meets e := meets_of_settled hs (hall [e] rest rfl)
      refine ⟨hm, (ih (sound_step hs hm)).mpr (fun done left heq => ?_)⟩
      exact hall (e :: done) left (by rw [heq, List.cons_append])

/-- Through every state of a run the counts are those of the tables and whatever waits, waits
behind a write in flight, exactly when each release has the write taken that the rest of its
queue waits for. -/
theorem what_waits_has_a_write_iff (window : Option Nat) (rest : Rest) (lanes : Nat → Bool)
    (sends : Nat → Sent) (events : List Event) :
    (new window rest lanes sends).AllMeet events ↔
      ∀ done left, events = done ++ left →
        Settled ((new window rest lanes sends).run done).elision :=
  Sound.run_iff (sound_new window rest lanes sends) events

/-- A session on one connection. It can take deliveries in flight unless its quota is full. -/
def oneSession (quota_full brownout : Bool) : Rest where
  now := 0
  brownout := brownout
  draining := false
  takeover_window_open := false
  connecting := fun _ => false
  online := fun client => if client = "s" then some 1 else none
  inflight := fun _ => some
    { quota_full, backlog_empty := true, records_pending := 0, block_remaining := 8
      banked_base := none }
  other_work := fun _ => false

def toSession (id : Nat) : Event :=
  .Deliver "s" true
    { topic := "t", payload := [1], qos := .AtLeastOnce, retain := false, app := {}
      expires_at := none } none (.Pending id)

/-- The first delivery is written, two wait behind it, and it lands in a brownout. -/
def landsInBrownout : List Event :=
  [toSession 1, .Other (oneSession false false), toSession 2, toSession 3,
    .Other (oneSession false true), .AppendDone 0 false (oneSession false true)]

/-- The write of the second delivery is refused, and the third waits behind nothing. -/
theorem a_refused_release_leaves_one_waiting :
    ¬ ∀ (window : Option Nat) (rest : Rest) (lanes : Nat → Bool) (sends : Nat → Sent)
      (events : List Event), Settled ((new window rest lanes sends).run events).elision := by
  intro hall
  have hsettled := hall (some 100) (oneSession true false) (fun _ => true)
    (fun _ => { pkid := none, closed := false, inflight := none }) landsInBrownout
  let h := (new (some 100) (oneSession true false) (fun _ => true)
    (fun _ => { pkid := none, closed := false, inflight := none })).run landsInBrownout
  have hwaits : h.elision.behind[keyOf "s" 1 "t"]?.isSome = true := by decide +kernel
  have hwriting : h.elision.writing[keyOf "s" 1 "t"]? = none := by decide +kernel
  obtain ⟨queue, hqueue⟩ := Option.isSome_iff_exists.mp hwaits
  obtain ⟨-, n, hn, -⟩ := hsettled.waits _ queue hqueue
  rw [hwriting] at hn
  cases hn

end Hub

end mqttd.hub.write_elision
