-- Repeated forwards of a number are applied once, as long as the origin does not use this
-- number while it is remembered for another message: what is under way or among the last
-- recorded is answered again or dropped.
import Mathlib.Data.Finset.Card
import MqttBroker.Hub.ForwardWindow

namespace mqttd.hub.forwarding

open mqttd.hub.shards (PublishRefusal DurableOutcome)

/-! ## The window -/

namespace ForwardWindow

/-- The map and the list hold the same numbers, each once, and no more than the bound. -/
structure Tidy (w : ForwardWindow) : Prop where
  once : w.order.Nodup
  same : ∀ seq, seq ∈ w.order ↔ ∃ s, w.seen[seq]? = some s
  bound : w.order.length ≤ FORWARD_WINDOW

theorem tidy_empty : Tidy {} := by
  refine ⟨by simp, ?_, by simp⟩
  intro seq
  simp

theorem tidy_answered {w : ForwardWindow} (h : Tidy w) (seq : Nat) (verdict : ForwardVerdict) :
    Tidy (w.answered seq verdict) := by
  unfold answered
  split
  · next s hs =>
    refine ⟨h.once, ?_, h.bound⟩
    intro seq'
    rw [h.same seq']
    simp only [BTreeMap.get_insert]
    by_cases heq : seq = seq'
    · subst heq
      simp [hs]
    · simp [heq]
  · exact h

/-- A number that is remembered keeps its place. -/
theorem record_known {w : ForwardWindow} {seq : Nat} {s : SeenForward}
    (hs : w.seen[seq]? = some s) (fingerprint : Nat) :
    w.record seq fingerprint = { w with seen := w.seen.insert seq ⟨fingerprint, none⟩ } := by
  unfold record
  simp only [hs, Option.isSome_some, if_true]

/-- A new number goes to the end, and the oldest is forgotten beyond the bound. -/
theorem record_new {w : ForwardWindow} (h : Tidy w) {seq : Nat} (hs : w.seen[seq]? = none)
    (fingerprint : Nat) :
    (w.record seq fingerprint).order.reverse = (seq :: w.order.reverse).take FORWARD_WINDOW ∧
      ∀ seq', (w.record seq fingerprint).seen[seq']? =
        if seq' = seq then some ⟨fingerprint, none⟩
        else if seq' ∈ (w.record seq fingerprint).order then w.seen[seq']? else none := by
  have hnew : seq ∉ w.order := by
    rw [h.same seq, hs]
    simp
  have hforgotten : ∀ seq', seq' ∉ w.order → w.seen[seq']? = none := by
    intro seq' hnot
    cases hw : w.seen[seq']? with
    | none => rfl
    | some s => exact absurd ((h.same seq').mpr ⟨s, hw⟩) hnot
  have hlength : w.order.reverse.length ≤ FORWARD_WINDOW := by simpa using h.bound
  unfold record
  simp only [hs, Option.isSome_none, Bool.false_eq_true, if_false]
  split
  · next hfull =>
    cases horder : w.order with
    | nil =>
      rw [horder] at hfull
      simp [FORWARD_WINDOW] at hfull
    | cons oldest rest =>
      have hlen : rest.length + 1 = FORWARD_WINDOW := by
        have hb := h.bound
        rw [horder] at hb hfull
        simp only [List.length_cons, List.length_append, List.length_nil] at hb hfull
        omega
      have hold : oldest ∉ rest := by
        have honce := h.once
        rw [horder, List.nodup_cons] at honce
        exact honce.1
      have hne : oldest ≠ seq := by
        intro heq
        exact hnew (by simp [horder, heq])
      dsimp only [List.cons_append]
      refine ⟨?_, ?_⟩
      · rw [List.reverse_append, List.reverse_cons, ← hlen]
        simp
      · intro seq'
        simp only [BTreeMap.get_erase, BTreeMap.get_insert, List.mem_append, List.mem_singleton]
        by_cases heq : seq' = seq
        · subst heq
          simp [hne]
        · by_cases ho : oldest = seq'
          · subst ho
            simp [heq, hold]
          · have hmem : seq' ∈ w.order ↔ seq' ∈ rest := by
              rw [horder, List.mem_cons]
              simp [Ne.symm ho]
            by_cases hrest : seq' ∈ rest
            · simp [heq, ho, Ne.symm heq, hrest]
            · simp [heq, ho, Ne.symm heq, hrest, hforgotten seq' (hmem.not.mpr hrest)]
  · next hroom =>
    have hroom : w.order.length + 1 ≤ FORWARD_WINDOW := by
      simp only [List.length_append, List.length_cons, List.length_nil] at hroom
      omega
    refine ⟨?_, ?_⟩
    · rw [List.reverse_append, List.take_of_length_le]
      · rfl
      · simpa using hroom
    · intro seq'
      simp only [BTreeMap.get_insert, List.mem_append, List.mem_singleton]
      by_cases heq : seq' = seq
      · simp [heq]
      · by_cases hmem : seq' ∈ w.order
        · simp [heq, Ne.symm heq, hmem]
        · simp [heq, Ne.symm heq, hmem, hforgotten seq' hmem]

theorem tidy_record {w : ForwardWindow} (h : Tidy w) (seq fingerprint : Nat) :
    Tidy (w.record seq fingerprint) := by
  cases hs : w.seen[seq]? with
  | some s =>
    rw [record_known hs]
    refine ⟨h.once, ?_, h.bound⟩
    intro seq'
    rw [h.same seq']
    simp only [BTreeMap.get_insert]
    by_cases heq : seq = seq'
    · subst heq
      simp [hs]
    · simp [heq]
  | none =>
    obtain ⟨horder, hseen⟩ := record_new h hs fingerprint
    have hnew : seq ∉ w.order := by
      rw [h.same seq, hs]
      simp
    have honce : (seq :: w.order.reverse).Nodup := by
      rw [List.nodup_cons, List.mem_reverse, List.nodup_reverse]
      exact ⟨hnew, h.once⟩
    have hsub : ∀ seq', seq' ∈ (w.record seq fingerprint).order → seq' = seq ∨ seq' ∈ w.order := by
      intro seq' hmem
      rw [← List.mem_reverse, horder] at hmem
      simpa using List.mem_of_mem_take hmem
    have hself : seq ∈ (w.record seq fingerprint).order := by
      rw [← List.mem_reverse, horder]
      simp [FORWARD_WINDOW]
    refine ⟨?_, ?_, ?_⟩
    · rw [← List.nodup_reverse, horder]
      exact honce.sublist (List.take_sublist _ _)
    · intro seq'
      rw [hseen seq']
      by_cases heq : seq' = seq
      · simp [heq, hself]
      · constructor
        · intro hmem
          rcases hsub seq' hmem with hs' | hold
          · exact absurd hs' heq
          · simp only [heq, if_false, hmem, if_true]
            exact (h.same seq').mp hold
        · rintro ⟨s, hs'⟩
          rw [if_neg heq] at hs'
          split at hs'
          · next hmem => exact hmem
          · cases hs'
    · rw [← List.length_reverse, horder]
      simp

/-- The numbers that a window remembers, the newest first, after one more was recorded. -/
theorem order_record {w : ForwardWindow} (h : Tidy w) (seq fingerprint : Nat) :
    seq ∈ w.order ∧ (w.record seq fingerprint).order = w.order ∨
      seq ∉ w.order ∧
        (w.record seq fingerprint).order.reverse = (seq :: w.order.reverse).take FORWARD_WINDOW := by
  cases hs : w.seen[seq]? with
  | some s => exact .inl ⟨(h.same seq).mpr ⟨s, hs⟩, by rw [record_known hs]⟩
  | none =>
    refine .inr ⟨?_, (record_new h hs fingerprint).1⟩
    rw [h.same seq, hs]
    simp

end ForwardWindow

namespace Receiver

def WellKept (r : Receiver) : Prop := ∀ w, r.window = some w → w.Tidy

variable {r : Receiver}

theorem WellKept.tidy (h : WellKept r) : (r.window.getD {}).Tidy := by
  cases hw : r.window with
  | none => exact ForwardWindow.tidy_empty
  | some w => exact h w hw

theorem seen_eq (r : Receiver) (seq : Nat) : r.seen seq = (r.window.getD {}).seen[seq]? := by
  unfold seen
  cases r.window with
  | none => simp
  | some w => simp

theorem WellKept.answer (h : WellKept r) (seq : Nat) (verdict : ForwardVerdict) :
    WellKept (r.answer_forward seq verdict) := by
  intro w hw
  obtain ⟨w', hw', rfl⟩ := Option.map_eq_some_iff.mp hw
  exact ForwardWindow.tidy_answered (h w' hw') seq verdict

theorem WellKept.record (h : WellKept r) (seq fingerprint : Nat) :
    WellKept (r.record seq fingerprint) := by
  rintro w ⟨⟩
  exact ForwardWindow.tidy_record h.tidy seq fingerprint

variable {r' : Receiver}

theorem WellKept.congr (h : WellKept r) (hw : r'.window = r.window) : WellKept r' := by
  intro w hw'
  exact h w (hw.symm.trans hw')

theorem window_submit (r : Receiver) (seq fingerprint appends : Nat) (congested : Bool) :
    (r.submit seq fingerprint appends congested).window = r.window := by
  unfold submit
  split
  · rfl
  · rfl

theorem WellKept.finish (h : WellKept r) (seq : Nat) (sync : DurableOutcome)
    (relaxed reached : Bool) : WellKept (r.finish_peer_verdict seq sync relaxed reached) := by
  unfold finish_peer_verdict
  split
  · exact h.answer seq _
  · dsimp only
    split
    · apply WellKept.answer
      exact h.congr rfl
    · exact h.congr rfl

/-- A forward that arrives is answered again, dropped because it is under way, or recorded and
applied. -/
theorem arrive_cases (r : Receiver) (seq fingerprint : Nat) (a : Applied) :
    (∃ s verdict, r.seen seq = some s ∧ s.fingerprint = fingerprint ∧ s.verdict = some verdict ∧
      r.arrive seq fingerprint a = r.answer_forward seq verdict) ∨
    (r.forward_in_flight seq = true ∧ r.arrive seq fingerprint a = r) ∨
    ((r.seen seq = none → r.forward_in_flight seq = false) ∧
      (∀ s, r.seen seq = some s → s.fingerprint = fingerprint →
        s.verdict = none ∧ r.forward_in_flight seq = false) ∧
      r.arrive seq fingerprint a =
        (r.record seq fingerprint).apply seq fingerprint a) := by
  unfold Receiver.arrive forward_is_repeat
  cases hs : r.seen seq with
  | none =>
    cases hf : r.forward_in_flight seq with
    | true => simp
    | false => simp
  | some s =>
    by_cases hp : s.fingerprint = fingerprint
    · cases hv : s.verdict with
      | some verdict => simp [hp, hv]
      | none =>
        cases hf : r.forward_in_flight seq with
        | true => simp [hp, hv]
        | false => simp [hp, hv]
    · simp [hp]

theorem WellKept.arrive (h : WellKept r) (seq fingerprint : Nat) (a : Applied) :
    WellKept (r.arrive seq fingerprint a) := by
  have happly : WellKept ((r.record seq fingerprint).apply seq fingerprint a) := by
    have hr := h.record seq fingerprint
    have hsubmit : ∀ appends congested,
        WellKept ((r.record seq fingerprint).submit seq fingerprint appends congested) :=
      fun appends congested => hr.congr (window_submit _ _ _ _ _)
    cases a with
    | Absent verdict => exact hr.answer seq verdict
    | Fanned appends congested sync relaxed reached =>
      exact (hsubmit appends congested).finish seq sync relaxed reached
    | Held appends congested => exact (hsubmit appends congested).congr rfl
  rcases arrive_cases r seq fingerprint a with ⟨_, verdict, _, _, _, heq⟩ | ⟨_, heq⟩ | ⟨_, _, heq⟩
  · rw [heq]
    exact h.answer seq verdict
  · rw [heq]
    exact h
  · rw [heq]
    exact happly

theorem WellKept.complete (h : WellKept r) (seq : Nat) (g : RemoteAppendGate) :
    WellKept (r.complete seq g) := by
  unfold Receiver.complete
  dsimp only
  split
  · exact h.congr rfl
  · apply WellKept.answer
    exact h.congr rfl

theorem WellKept.landed (h : WellKept r) (seq : Nat) (out : DurableOutcome) (lane reached : Bool) :
    WellKept (r.landed seq out lane reached) := by
  unfold Receiver.landed
  split
  · exact h
  · dsimp only
    split
    · apply WellKept.complete
      exact h.congr rfl
    · exact h.congr rfl

theorem WellKept.settle_held (h : WellKept r) (seq appends : Nat) (congested : Bool)
    (out : DurableOutcome) : WellKept (r.settle_held seq appends congested out) := by
  unfold Receiver.settle_held
  split
  · exact h
  · dsimp only
    split
    · apply WellKept.answer
      exact h.congr rfl
    · split
      · apply WellKept.answer
        exact h.congr rfl
      · exact h.congr rfl

theorem WellKept.run (h : WellKept r) (steps : List Step) : WellKept (r.run steps) := by
  induction steps generalizing r with
  | nil => exact h
  | cons s steps ih =>
    apply ih
    cases s with
    | Arrive seq fingerprint a => exact h.arrive seq fingerprint a
    | Landed seq out lane reached => exact h.landed seq out lane reached
    | SettleHeld seq appends congested out => exact h.settle_held seq appends congested out
    | Link link => exact h.congr rfl

/-! ## What was recorded and what was answered -/

/-- The forwards that were applied, the last one first. -/
def recordings (r : Receiver) : List (Nat × Nat) :=
  r.history.filterMap (fun m => match m with
    | .Applied seq fingerprint => some (seq, fingerprint)
    | .Answered _ _ => none)

/-- The fingerprint that a number was last recorded with. -/
def lastFingerprint (recs : List (Nat × Nat)) (seq : Nat) : Option Nat :=
  (recs.find? (fun e => e.1 == seq)).map Prod.snd

def lastVerdict : List Mark → Nat → Option ForwardVerdict
  | [], _ => none
  | .Applied s _ :: rest, seq => if s = seq then none else lastVerdict rest seq
  | .Answered s verdict :: rest, seq => if s = seq then some verdict else lastVerdict rest seq

/-- A forward of this number and fingerprint is still being applied. -/
def StillApplying (r : Receiver) (seq fingerprint : Nat) : Prop :=
  ∃ g, r.remote_append_pending[seq]? = some g ∧ fingerprint ∈ g.applying

/-- A forward of this number and fingerprint was recorded, and fewer different numbers than the
window holds were recorded since. -/
def AmongLast (r : Receiver) (seq fingerprint : Nat) : Prop :=
  ∃ newer older, r.recordings = newer ++ (seq, fingerprint) :: older ∧
    (newer.map Prod.fst).toFinset.card < FORWARD_WINDOW

/-- Whatever forward of the number was recorded, the window has the number and behind it only
such as were recorded since, or as many were recorded since as it holds. -/
def Placed (n : Nat) (order : List Nat) (recs : List (Nat × Nat)) : Prop :=
  ∀ newer fingerprint older, recs = newer ++ (n, fingerprint) :: older →
    (n ∉ newer.map Prod.fst ∧ ∃ back front, order.reverse = back ++ n :: front ∧
      ∀ seq ∈ back, seq ∈ newer.map Prod.fst) ∨
    FORWARD_WINDOW ≤ (newer.map Prod.fst).toFinset.card

/-- What holds of a number `n`: the window remembers it as long as it is among the last that
were recorded, with the fingerprint and the answer of its last forward; an unanswered one has a
gate that will answer, but for the one that is being applied; and its gate stands for the last
forward. -/
structure Sound (n : Nat) (r : Receiver) (spared : Option Nat) : Prop where
  kept : WellKept r
  placed : Placed n (r.window.getD {}).order r.recordings
  fingerprint : ∀ s, r.seen n = some s → lastFingerprint r.recordings n = some s.fingerprint
  verdict : ∀ s, r.seen n = some s → s.verdict = lastVerdict r.history n
  flight : ∀ s, spared ≠ some n → r.seen n = some s → s.verdict = none →
    ∃ g, r.remote_append_pending[n]? = some g ∧ g.answered = false
  applying : ∀ g, r.remote_append_pending[n]? = some g →
    ∀ fingerprint ∈ g.applying, lastFingerprint r.recordings n = some fingerprint

variable {n : Nat}

theorem sound_new : Sound n {} none := by
  refine ⟨?_, ?_, ?_, ?_, ?_, ?_⟩
  · rintro w ⟨⟩
  · intro newer fingerprint older hrecs
    simp [recordings] at hrecs
  · simp [seen]
  · simp [seen]
  · simp [seen]
  · simp

theorem Sound.spare (h : Sound n r none) (seq : Nat) : Sound n r (some seq) :=
  { h with flight := fun s _ => h.flight s (by simp) }

theorem seen_answer (r : Receiver) (seq seq' : Nat) (verdict : ForwardVerdict) :
    (r.answer_forward seq verdict).seen seq' =
      if seq' = seq then (r.seen seq).map (fun s => { s with verdict := some verdict })
      else r.seen seq' := by
  unfold seen answer_forward
  cases r.window with
  | none => simp
  | some w =>
    simp only [Option.map_some, Option.bind_some, ForwardWindow.answered]
    cases hs : w.seen[seq]? with
    | none =>
      by_cases heq : seq' = seq
      · simp [heq, hs]
      · simp [heq]
    | some s =>
      simp only [BTreeMap.get_insert]
      by_cases heq : seq' = seq
      · simp [heq]
      · simp [heq, Ne.symm heq]

theorem order_answer (r : Receiver) (seq : Nat) (verdict : ForwardVerdict) :
    ((r.answer_forward seq verdict).window.getD {}).order = (r.window.getD {}).order := by
  unfold answer_forward
  cases r.window with
  | none => rfl
  | some w =>
    simp only [Option.map_some, Option.getD_some, ForwardWindow.answered]
    split
    · rfl
    · rfl

variable {seq : Nat}

/-- The gates change for one number only. An unanswered forward of it keeps an unanswered
gate, and its gate stands for the last forward. -/
theorem Sound.gates (h : Sound n r (some seq)) (hwindow : r'.window = r.window)
    (hhistory : r'.history = r.history)
    (hother : n ≠ seq → r'.remote_append_pending[n]? = r.remote_append_pending[n]?)
    (hflight : n = seq → ∀ s, r.seen n = some s → s.verdict = none →
      ∃ g, r'.remote_append_pending[n]? = some g ∧ g.answered = false)
    (hgate : n = seq → ∀ g, r'.remote_append_pending[n]? = some g →
      ∀ fingerprint ∈ g.applying, lastFingerprint r.recordings n = some fingerprint) :
    Sound n r' none := by
  have hseen : r'.seen n = r.seen n := by simp only [seen, hwindow]
  have hrecs : r'.recordings = r.recordings := by simp [recordings, hhistory]
  refine ⟨h.kept.congr hwindow, ?_, ?_, ?_, ?_, ?_⟩
  · rw [hrecs, hwindow]
    exact h.placed
  · rw [hrecs, hseen]
    exact h.fingerprint
  · rw [hhistory, hseen]
    exact h.verdict
  · intro s _ hs hnone
    rw [hseen] at hs
    by_cases heq : n = seq
    · exact hflight heq s hs hnone
    · rw [hother heq]
      exact h.flight s (by simpa using Ne.symm heq) hs hnone
  · intro g hg
    rw [hrecs]
    by_cases heq : n = seq
    · exact hgate heq g hg
    · exact h.applying g ((hother heq).symm.trans hg)

/-- An answer is given, and the gate of its number may change or go with it. -/
theorem Sound.answer (h : Sound n r (some seq)) (verdict : ForwardVerdict)
    (hwindow : r'.window = r.window) (hhistory : r'.history = r.history)
    (hother : n ≠ seq → r'.remote_append_pending[n]? = r.remote_append_pending[n]?)
    (hgate : n = seq → ∀ g, r'.remote_append_pending[n]? = some g →
      ∀ fingerprint ∈ g.applying, lastFingerprint r.recordings n = some fingerprint) :
    Sound n (r'.answer_forward seq verdict) none := by
  have hseen : ∀ seq', r'.seen seq' = r.seen seq' := by
    intro seq'
    simp only [seen, hwindow]
  have hrecs : (r'.answer_forward seq verdict).recordings = r.recordings := by
    simp [recordings, answer_forward, hhistory]
  have hhist : (r'.answer_forward seq verdict).history = .Answered seq verdict :: r.history := by
    simp [answer_forward, hhistory]
  have hcases : ∀ s, (r'.answer_forward seq verdict).seen n = some s →
      (n = seq ∧ s.verdict = some verdict ∧ ∃ s', r.seen n = some s' ∧
        s'.fingerprint = s.fingerprint) ∨ (n ≠ seq ∧ r.seen n = some s) := by
    intro s hs
    rw [seen_answer, hseen, hseen] at hs
    split at hs
    · next heq =>
      obtain ⟨s', hs', rfl⟩ := Option.map_eq_some_iff.mp hs
      exact .inl ⟨heq, rfl, s', heq ▸ hs', rfl⟩
    · next hne => exact .inr ⟨hne, hs⟩
  refine ⟨(h.kept.congr hwindow).answer seq verdict, ?_, ?_, ?_, ?_, ?_⟩
  · rw [order_answer, hrecs, hwindow]
    exact h.placed
  · intro s hs
    rw [hrecs]
    rcases hcases s hs with ⟨-, -, s', hs', hfp⟩ | ⟨-, hs'⟩
    · rw [← hfp]
      exact h.fingerprint s' hs'
    · exact h.fingerprint s hs'
  · intro s hs
    rw [hhist, lastVerdict]
    rcases hcases s hs with ⟨heq, hv, -⟩ | ⟨hne, hs'⟩
    · rw [if_pos heq.symm]
      exact hv
    · rw [if_neg (Ne.symm hne)]
      exact h.verdict s hs'
  · intro s _ hs hnone
    rcases hcases s hs with ⟨-, hv, -⟩ | ⟨hne, hs'⟩
    · cases hv.symm.trans hnone
    · obtain ⟨g, hg, ha⟩ := h.flight s (by simpa using Ne.symm hne) hs' hnone
      exact ⟨g, (hother hne).trans hg, ha⟩
  · intro g hg
    rw [hrecs]
    by_cases heq : n = seq
    · exact hgate heq g hg
    · exact h.applying g ((hother heq).symm.trans hg)

theorem seen_record (h : WellKept r) (seq fingerprint : Nat) {s : SeenForward}
    (hs : (r.record seq fingerprint).seen n = some s) :
    (n = seq ∧ s = ⟨fingerprint, none⟩) ∨ (n ≠ seq ∧ r.seen n = some s) := by
  change ((r.window.getD {}).record seq fingerprint).seen[n]? = some s at hs
  rw [seen_eq]
  cases hknown : (r.window.getD {}).seen[seq]? with
  | some old =>
    rw [ForwardWindow.record_known hknown, BTreeMap.get_insert] at hs
    split at hs
    · next heq => exact .inl ⟨heq.symm, (Option.some.inj hs).symm⟩
    · next hne => exact .inr ⟨Ne.symm hne, hs⟩
  | none =>
    rw [(ForwardWindow.record_new h.tidy hknown fingerprint).2 n] at hs
    split at hs
    · next heq => exact .inl ⟨heq, (Option.some.inj hs).symm⟩
    · next hne =>
      split at hs
      · exact .inr ⟨hne, hs⟩
      · cases hs

/-- A new number pushes another back by one place while the window has room behind it. -/
theorem take_with_room (seq n : Nat) {back : List Nat} (front : List Nat)
    (hroom : back.length + 1 < FORWARD_WINDOW) :
    (seq :: (back ++ n :: front)).take FORWARD_WINDOW =
      (seq :: back) ++ n :: front.take (FORWARD_WINDOW - (back.length + 1) - 1) := by
  obtain ⟨room, hroom⟩ := Nat.exists_eq_add_of_lt hroom
  rw [← List.cons_append, List.take_append, List.take_of_length_le (by simp; omega),
    show FORWARD_WINDOW - (seq :: back).length = room + 1 by simp; omega,
    show FORWARD_WINDOW - (back.length + 1) - 1 = room by omega]
  rfl

/-- A window full of numbers that were recorded since a forward has seen that many since. -/
theorem card_of_full {back newer : List Nat} (honce : back.Nodup)
    (hback : ∀ x ∈ back, x ∈ newer) (hfull : FORWARD_WINDOW ≤ back.length) :
    FORWARD_WINDOW ≤ newer.toFinset.card :=
  calc FORWARD_WINDOW ≤ back.length := hfull
    _ = back.toFinset.card := (List.toFinset_card_of_nodup honce).symm
    _ ≤ newer.toFinset.card := Finset.card_le_card
      fun x hx => List.mem_toFinset.mpr (hback x (List.mem_toFinset.mp hx))

/-- A number keeps its place when another is recorded, until as many were recorded since as the
window holds. One that is not remembered goes to the end. -/
theorem placed_record {w : ForwardWindow} {recs : List (Nat × Nat)} (hw : w.Tidy)
    (h : Placed n w.order recs) (seq fingerprint : Nat) (hs : n = seq → n ∉ w.order) :
    Placed n (w.record seq fingerprint).order ((seq, fingerprint) :: recs) := by
  intro newer fp older hrecs
  cases newer with
  | nil =>
    obtain ⟨heq, -⟩ := List.cons.inj hrecs
    obtain ⟨rfl, -⟩ := Prod.mk.inj heq
    refine .inl ⟨by simp, [], (w.order.reverse).take (FORWARD_WINDOW - 1), ?_, by simp⟩
    rcases ForwardWindow.order_record hw seq fingerprint with ⟨hin, -⟩ | ⟨-, horder⟩
    · exact absurd hin (hs rfl)
    · rw [horder]
      rfl
  | cons last newer =>
    obtain ⟨rfl, hrest⟩ := List.cons.inj hrecs
    rw [List.map_cons]
    rcases h newer fp older hrest with ⟨hnot, back, front, horder, hback⟩ | hfull
    · have hin : n ∈ w.order := by
        rw [← List.mem_reverse, horder]
        simp
      have hne : n ≠ seq := fun heq => hs heq hin
      have hback' : ∀ x ∈ seq :: back, x ∈ seq :: newer.map Prod.fst := by
        intro x hx
        rcases List.mem_cons.mp hx with rfl | hx
        · exact List.mem_cons_self
        · exact List.mem_cons_of_mem _ (hback x hx)
      rcases ForwardWindow.order_record hw seq fingerprint with ⟨-, hsame⟩ | ⟨hnew, horder'⟩
      · refine .inl ⟨by simp [hne, hnot], back, front, hsame ▸ horder, fun x hx => ?_⟩
        exact hback' x (List.mem_cons_of_mem _ hx)
      rw [horder] at horder'
      by_cases hroom : back.length + 1 < FORWARD_WINDOW
      · refine .inl ⟨by simp [hne, hnot], seq :: back,
          front.take (FORWARD_WINDOW - (back.length + 1) - 1), ?_, hback'⟩
        exact horder'.trans (take_with_room seq n front hroom)
      · have honce : (seq :: back ++ n :: front).Nodup := by
          rw [List.cons_append, ← horder, List.nodup_cons, List.mem_reverse, List.nodup_reverse]
          exact ⟨hnew, hw.once⟩
        exact .inr (card_of_full honce.of_append_left hback' (by simp; omega))
    · rw [List.toFinset_cons]
      exact .inr (hfull.trans (Finset.card_le_card (Finset.subset_insert _ _)))

theorem Sound.record (h : Sound n r none)
    (hs : n = seq → r.seen n = none ∧ r.remote_append_pending[n]? = none) (fingerprint : Nat) :
    Sound n (r.record seq fingerprint) (some seq) := by
  have hrecs : (r.record seq fingerprint).recordings = (seq, fingerprint) :: r.recordings := by
    simp [recordings, Receiver.record]
  have hlast : n ≠ seq → lastFingerprint (r.record seq fingerprint).recordings n =
      lastFingerprint r.recordings n := by
    intro hne
    rw [hrecs]
    simp [lastFingerprint, Ne.symm hne]
  refine ⟨h.kept.record seq fingerprint, ?_, ?_, ?_, ?_, ?_⟩
  · rw [hrecs]
    refine placed_record h.kept.tidy h.placed seq fingerprint (fun heq hin => ?_)
    obtain ⟨s, hs'⟩ := (h.kept.tidy.same n).mp hin
    rw [← seen_eq, (hs heq).1] at hs'
    cases hs'
  · intro s hs'
    rcases seen_record h.kept seq fingerprint hs' with ⟨rfl, rfl⟩ | ⟨hne, hold⟩
    · rw [hrecs]
      simp [lastFingerprint]
    · rw [hlast hne]
      exact h.fingerprint s hold
  · intro s hs'
    change _ = lastVerdict (.Applied seq fingerprint :: r.history) n
    rw [lastVerdict]
    rcases seen_record h.kept seq fingerprint hs' with ⟨rfl, rfl⟩ | ⟨hne, hold⟩
    · simp
    · rw [if_neg (Ne.symm hne)]
      exact h.verdict s hold
  · intro s hspared hs' hnone
    rcases seen_record h.kept seq fingerprint hs' with ⟨rfl, rfl⟩ | ⟨hne, hold⟩
    · exact absurd rfl hspared
    · exact h.flight s (by simp) hold hnone
  · intro g hg
    by_cases heq : n = seq
    · cases (hs heq).2.symm.trans hg
    · rw [hlast heq]
      exact h.applying g hg

variable {g : RemoteAppendGate}

theorem get_insert_other (m : BTreeMap Nat RemoteAppendGate) (h : n ≠ seq) :
    (m.insert seq g)[n]? = m[n]? := by
  rw [BTreeMap.get_insert, if_neg (Ne.symm h)]

theorem get_insert_this (m : BTreeMap Nat RemoteAppendGate) (h : n = seq) :
    (m.insert seq g)[n]? = some g := by
  rw [BTreeMap.get_insert, if_pos h.symm]

theorem Sound.put (h : Sound n r (some seq)) (hwindow : r'.window = r.window)
    (hhistory : r'.history = r.history)
    (hpending : r'.remote_append_pending = r.remote_append_pending.insert seq g)
    (hanswered : n = seq → ∀ s, r.seen n = some s → s.verdict = none → g.answered = false)
    (happlying : n = seq → ∀ fingerprint ∈ g.applying,
      lastFingerprint r.recordings n = some fingerprint) : Sound n r' none := by
  apply h.gates hwindow hhistory
  · rw [hpending]
    exact get_insert_other _
  · intro heq s hs hnone
    refine ⟨g, ?_, hanswered heq s hs hnone⟩
    rw [hpending]
    exact get_insert_this _ heq
  · intro heq g' hg'
    rw [hpending, get_insert_this _ heq] at hg'
    cases hg'
    exact happlying heq

theorem Sound.alter (h : Sound n r none) {g' : RemoteAppendGate}
    (hg : r.remote_append_pending[seq]? = some g) (hwindow : r'.window = r.window)
    (hhistory : r'.history = r.history)
    (hpending : r'.remote_append_pending = r.remote_append_pending.insert seq g')
    (hanswered : g'.answered = g.answered) (happlying : g'.applying = g.applying) :
    Sound n r' none := by
  apply (h.spare seq).put hwindow hhistory hpending
  · rintro rfl s hs hnone
    obtain ⟨g0, hg0, ha⟩ := h.flight s (by simp) hs hnone
    cases hg.symm.trans hg0
    exact hanswered.trans ha
  · rintro rfl
    rw [happlying]
    exact h.applying g hg

theorem Sound.close (h : Sound n r (some seq)) (verdict : ForwardVerdict)
    (hwindow : r'.window = r.window) (hhistory : r'.history = r.history)
    (hpending : r'.remote_append_pending = r.remote_append_pending.erase seq) :
    Sound n (r'.answer_forward seq verdict) none := by
  apply h.answer verdict hwindow hhistory
  · intro hne
    rw [hpending, BTreeMap.get_erase, if_neg (Ne.symm hne)]
  · intro heq g hg
    rw [hpending, BTreeMap.get_erase, if_pos heq.symm] at hg
    cases hg

/-! ## The steps -/

theorem Sound.finish (h : Sound n r none) (seq : Nat) (sync : DurableOutcome)
    (relaxed reached : Bool) : Sound n (r.finish_peer_verdict seq sync relaxed reached) none := by
  unfold finish_peer_verdict
  cases hg : r.remote_append_pending[seq]? with
  | none => exact (h.spare seq).answer _ rfl rfl (fun _ => rfl) (fun _ => h.applying)
  | some g =>
    dsimp only
    split
    · refine (h.spare seq).answer _ rfl rfl (get_insert_other _) ?_
      rintro rfl g' hg'
      rw [get_insert_this _ rfl] at hg'
      cases hg'
      exact h.applying g hg
    · next hearly =>
      refine h.alter hg rfl rfl rfl ?_ ?_
      · simp only [Bool.not_eq_true] at hearly
        simp [hearly]
      · rfl

variable {fingerprint : Nat}

theorem history_submit (r : Receiver) (seq fingerprint appends : Nat) (congested : Bool) :
    (r.submit seq fingerprint appends congested).history = r.history := by
  unfold submit
  split
  · rfl
  · rfl

theorem get_submit_other (r : Receiver) (h : n ≠ seq) (fingerprint appends : Nat)
    (congested : Bool) : (r.submit seq fingerprint appends congested).remote_append_pending[n]? =
      r.remote_append_pending[n]? := by
  unfold submit
  split
  · rfl
  · exact get_insert_other _ h

/-- The gate that a held forward goes on with is unanswered and stands for it alone. -/
theorem get_submit_this (hg : r.remote_append_pending[n]? = none) (fingerprint appends : Nat)
    (congested : Bool) :
    let g := ((r.submit n fingerprint appends congested).remote_append_pending[n]?).getD
      { reached := true }
    g.answered = false ∧ ∀ f ∈ g.applying, f = fingerprint := by
  unfold submit
  split
  · simp [hg]
  · rw [get_insert_this _ rfl]
    simp [hg]

/-- A forward that was recorded is applied: it is answered, or a gate will answer it. -/
theorem Sound.apply (h : Sound n r (some seq))
    (hs : n = seq → r.remote_append_pending[n]? = none ∧
      lastFingerprint r.recordings n = some fingerprint) (a : Applied) :
    Sound n (r.apply seq fingerprint a) none := by
  have happlying : n = seq → ∀ fps : List Nat, (∀ f ∈ fps, f = fingerprint) →
      ∀ f ∈ fps, lastFingerprint r.recordings n = some f := by
    intro heq fps hall f hf
    rw [hall f hf]
    exact (hs heq).2
  have hsubmit : ∀ appends congested, appends ≠ 0 →
      Sound n (r.submit seq fingerprint appends congested) none := by
    intro appends congested hsome
    unfold submit
    rw [if_neg hsome]
    refine h.put rfl rfl rfl ?_ ?_
    · rintro rfl
      simp [(hs rfl).1]
    · rintro rfl
      exact happlying rfl _ (by simp [(hs rfl).1])
  have hnow : ∀ verdict, Sound n (r.answer_forward seq verdict) none := by
    intro verdict
    refine h.answer verdict rfl rfl (fun _ => rfl) ?_
    intro heq g hg
    cases (hs heq).1.symm.trans hg
  cases a with
  | Absent verdict => exact hnow verdict
  | Fanned appends congested sync relaxed reached =>
    by_cases hnone : appends = 0
    · simp only [Receiver.apply, submit, hnone, if_true]
      by_cases heq : n = seq
      · simp only [finish_peer_verdict, ← heq, (hs heq).1]
        exact heq ▸ hnow _
      · have hfull : Sound n r none :=
          { h with flight := fun s _ => h.flight s (by simpa using Ne.symm heq) }
        exact hfull.finish seq sync relaxed reached
    · exact (hsubmit appends congested hnone).finish seq sync relaxed reached
  | Held appends congested =>
    simp only [Receiver.apply, hold_forward]
    refine h.gates (window_submit _ _ _ _ _) (history_submit _ _ _ _ _) ?_ ?_ ?_
    · intro hne
      rw [get_insert_other _ hne, get_submit_other _ hne]
    · rintro rfl s _ _
      refine ⟨_, get_insert_this _ rfl, ?_⟩
      exact (get_submit_this (hs rfl).1 fingerprint appends congested).1
    · rintro rfl g hg
      rw [get_insert_this _ rfl] at hg
      cases hg
      apply happlying rfl
      intro f hf
      rcases List.mem_cons.mp hf with rfl | hf
      · rfl
      · exact (get_submit_this (hs rfl).1 fingerprint appends congested).2 f hf

/-- The origin does not use number `n` while it is remembered for another message. -/
def Fine (n : Nat) (r : Receiver) : Step → Prop
  | .Arrive seq fingerprint _ =>
    n = seq → ∀ s, r.seen n = some s → s.fingerprint = fingerprint
  | .Landed _ _ _ _ => True
  | .SettleHeld _ _ _ _ => True
  | .Link _ => True

theorem Sound.arrive (h : Sound n r none)
    (hfine : n = seq → ∀ s, r.seen n = some s → s.fingerprint = fingerprint) (a : Applied) :
    Sound n (r.arrive seq fingerprint a) none := by
  rcases arrive_cases r seq fingerprint a with
    ⟨_, verdict, _, _, _, heq⟩ | ⟨_, heq⟩ | ⟨hnot, hsame, heq⟩
  · rw [heq]
    exact (h.spare seq).answer verdict rfl rfl (fun _ => rfl) (fun _ => h.applying)
  · rw [heq]
    exact h
  · -- what is remembered of this number is the same message, so nothing is
    have hs : n = seq → r.seen n = none ∧ r.remote_append_pending[n]? = none := by
      rintro rfl
      have hseen : r.seen n = none := by
        cases hs : r.seen n with
        | none => rfl
        | some s =>
          obtain ⟨hv, hf⟩ := hsame s hs (hfine rfl s hs)
          obtain ⟨g, hg, _⟩ := h.flight s (by simp) hs hv
          simp [forward_in_flight, hg] at hf
      exact ⟨hseen, Option.isNone_iff_eq_none.mp (Option.isSome_eq_false_iff.mp (hnot hseen))⟩
    rw [heq]
    refine (h.record hs fingerprint).apply (fun hn => ⟨(hs hn).2, ?_⟩) a
    simp [recordings, Receiver.record, lastFingerprint, hn]

theorem Sound.landed (h : Sound n r none) (seq : Nat) (out : DurableOutcome)
    (lane reached : Bool) : Sound n (r.landed seq out lane reached) none := by
  unfold Receiver.landed
  cases hg : r.remote_append_pending[seq]? with
  | none => exact h
  | some g =>
    dsimp only
    split
    · unfold Receiver.complete
      dsimp only
      split
      · next hanswered =>
        refine (h.spare seq).gates rfl rfl ?_ ?_ ?_
        · intro hne
          rw [BTreeMap.get_erase, if_neg (Ne.symm hne), get_insert_other _ hne]
        · rintro rfl s hs hnone
          obtain ⟨g0, hg0, ha⟩ := h.flight s (by simp) hs hnone
          cases hg.symm.trans hg0
          rw [hanswered] at ha
          cases ha
        · intro heq g' hg'
          rw [BTreeMap.get_erase, if_pos heq.symm] at hg'
          cases hg'
      · refine (h.spare seq).answer _ rfl rfl ?_ ?_
        · intro hne
          rw [BTreeMap.get_erase, if_neg (Ne.symm hne), get_insert_other _ hne]
        · intro heq g' hg'
          rw [BTreeMap.get_erase, if_pos heq.symm] at hg'
          cases hg'
    · exact h.alter hg rfl rfl rfl rfl rfl

theorem Sound.settle_held (h : Sound n r none) (seq appends : Nat) (congested : Bool)
    (out : DurableOutcome) : Sound n (r.settle_held seq appends congested out) none := by
  unfold Receiver.settle_held
  split
  · exact h
  · dsimp only
    -- the hand-over may open the gate again
    generalize hheld : r.held_forwards.erase seq = held
    have hagain : Sound n { r with
        held_forwards := held
        remote_append_pending := if appends = 0 then r.remote_append_pending
          else r.remote_append_pending.insert seq
            { (r.remote_append_pending[seq]?).getD {} with
              awaiting := ((r.remote_append_pending[seq]?).getD {}).awaiting + appends
              congested := ((r.remote_append_pending[seq]?).getD {}).congested || congested } }
        none := by
      split
      · exact (h.spare seq).gates rfl rfl (fun _ => rfl) (fun _ s => h.flight s (by simp))
          (fun _ => h.applying)
      · cases hg : r.remote_append_pending[seq]? with
        | none =>
          refine (h.spare seq).put rfl rfl rfl ?_ ?_
          · simp
          · simp
        | some g => exact h.alter hg rfl rfl rfl rfl rfl
    split
    · exact (hagain.spare seq).answer _ rfl rfl (fun _ => rfl) (fun _ => hagain.applying)
    · next g hg =>
      split
      · exact (hagain.spare seq).close _ rfl rfl rfl
      · exact hagain.alter hg rfl rfl rfl rfl rfl

/-- Every forward of number `n` in a run is fine where it arrives. -/
def AllFine (n : Nat) : Receiver → List Step → Prop
  | _, [] => True
  | r, s :: steps => Fine n r s ∧ AllFine n (r.step s) steps

theorem Sound.run (h : Sound n r none) (steps : List Step) (hfine : AllFine n r steps) :
    Sound n (r.run steps) none := by
  induction steps generalizing r with
  | nil => exact h
  | cons s steps ih =>
    obtain ⟨hs, hrest⟩ := hfine
    refine ih ?_ hrest
    cases s with
    | Arrive seq fingerprint a => exact h.arrive hs a
    | Landed seq out lane reached => exact h.landed seq out lane reached
    | SettleHeld seq appends congested out => exact h.settle_held seq appends congested out
    | Link link =>
      exact ⟨h.kept.congr rfl, h.placed, h.fingerprint, h.verdict, h.flight, h.applying⟩

/-! ## Repeats -/

theorem seen_of_among_last (h : Sound n r none) (hlast : AmongLast r n fingerprint) :
    ∃ s, r.seen n = some s ∧ s.fingerprint = fingerprint := by
  obtain ⟨newer, older, hrecs, hcard⟩ := hlast
  rcases h.placed newer fingerprint older hrecs with ⟨hnot, back, front, horder, -⟩ | hfull
  · have hmem : n ∈ (r.window.getD {}).order := by
      rw [← List.mem_reverse, horder]
      simp
    obtain ⟨s, hs⟩ := (h.kept.tidy.same n).mp hmem
    rw [← seen_eq] at hs
    have hskip : newer.find? (fun e => e.1 == n) = none := by
      rw [List.find?_eq_none]
      intro e he heq
      apply hnot
      rw [← eq_of_beq heq]
      exact List.mem_map_of_mem he
    have hfp : lastFingerprint r.recordings n = some fingerprint := by
      simp [lastFingerprint, hrecs, List.find?_append, hskip]
    refine ⟨s, hs, ?_⟩
    have hsame := h.fingerprint s hs
    rw [hfp] at hsame
    exact (Option.some.inj hsame).symm
  · exact absurd hcard (Nat.not_lt.mpr hfull)

theorem repeat_of_dealt_with (h : Sound n r none)
    (hdealt : StillApplying r n fingerprint ∨ AmongLast r n fingerprint) :
    (r.forward_is_repeat n fingerprint).1 = true := by
  have hremembered : ∀ s, r.seen n = some s → s.fingerprint = fingerprint →
      (r.forward_is_repeat n fingerprint).1 = true := by
    intro s hs hfp
    unfold forward_is_repeat
    simp only [hs, hfp, if_true]
    cases hv : s.verdict with
    | some verdict => rfl
    | none =>
      obtain ⟨g, hg, _⟩ := h.flight s (by simp) hs hv
      simp [forward_in_flight, hg]
  rcases hdealt with ⟨g, hg, hin⟩ | hlast
  · cases hs : r.seen n with
    | none => simp [forward_is_repeat, hs, forward_in_flight, hg]
    | some s =>
      apply hremembered s hs
      have hsame := h.fingerprint s hs
      rw [h.applying g hg fingerprint hin] at hsame
      exact (Option.some.inj hsame).symm
  · obtain ⟨s, hs, hfp⟩ := seen_of_among_last h hlast
    exact hremembered s hs hfp

theorem recordings_repeat (hrepeat : (r.forward_is_repeat seq fingerprint).1 = true) (a : Applied) :
    (r.arrive seq fingerprint a).recordings = r.recordings := by
  have harrive : r.arrive seq fingerprint a = (r.forward_is_repeat seq fingerprint).2 := by
    simp only [Receiver.arrive, hrepeat, if_true]
  rw [harrive]
  revert hrepeat
  unfold forward_is_repeat
  split
  · split
    · split
      · intro _
        simp [recordings, answer_forward]
      · split
        · simp
        · simp
    · simp
  · split
    · simp
    · simp

/-- The window holds the same numbers in its map and in its list, each once and within the
bound, in every run. In a run where no forward of a number comes while this number is remembered
for another message, a forward of it that is still being applied, or is among the last recorded,
is not applied again, and it is answered with the recorded verdict where there is one. Other
numbers may be used as the origin likes. -/
theorem repeated_forwards_are_applied_once (steps : List Step) :
    (∀ w, (run {} steps).window = some w →
      w.order.Nodup ∧ w.order.length ≤ FORWARD_WINDOW ∧
      ∀ seq, seq ∈ w.order ↔ ∃ s, w.seen[seq]? = some s) ∧
    (∀ seq, AllFine seq {} steps → ∀ fingerprint a,
      (StillApplying (run {} steps) seq fingerprint ∨ AmongLast (run {} steps) seq fingerprint →
        ((run {} steps).forward_is_repeat seq fingerprint).1 = true ∧
        ((run {} steps).arrive seq fingerprint a).recordings = (run {} steps).recordings) ∧
      (AmongLast (run {} steps) seq fingerprint →
        ∀ verdict, lastVerdict (run {} steps).history seq = some verdict →
          (run {} steps).arrive seq fingerprint a =
            (run {} steps).answer_forward seq verdict)) := by
  refine ⟨?_, ?_⟩
  · intro w hw
    have hkept : WellKept {} := (@sound_new 0).kept
    have htidy := hkept.run steps w hw
    exact ⟨htidy.once, htidy.bound, htidy.same⟩
  · intro seq hfine fingerprint a
    have h := sound_new.run steps hfine
    refine ⟨?_, ?_⟩
    · intro hdealt
      have hrepeat := repeat_of_dealt_with h hdealt
      exact ⟨hrepeat, recordings_repeat hrepeat a⟩
    · intro hlast verdict hverdict
      obtain ⟨s, hs, hfp⟩ := seen_of_among_last h hlast
      have hv : s.verdict = some verdict := (h.verdict s hs).trans hverdict
      simp [Receiver.arrive, forward_is_repeat, hs, hfp, hv]

/-- A forward with one append, which landed, and its repeat. Number 8 is used twice meanwhile. -/
def onceAndAgain : List Step :=
  [.Link (some 13), .Arrive 8 3 (.Fanned 1 false .Ok false true),
    .Arrive 7 1 (.Fanned 1 false .Ok false true), .Arrive 8 4 (.Fanned 0 false .Ok false true),
    .Landed 7 .Ok true false, .Arrive 7 1 (.Fanned 1 false .Ok false true)]

theorem a_repeat_is_answered_again :
    ((run {} onceAndAgain).forward_is_repeat 7 1).1 = true ∧
      (run {} onceAndAgain).arrive 7 1 (.Absent .Failed) =
        (run {} onceAndAgain).answer_forward 7 .Reached := by
  have hseen : ∀ m ∈ [2, 5], ∀ s, seen (run {} (onceAndAgain.take m)) 7 = some s →
      s.fingerprint = 1 := by
    intro m hm s hs
    have hone : ∀ m ∈ [2, 5], ((seen (run {} (onceAndAgain.take m)) 7).map
        SeenForward.fingerprint).all (fun f => f = 1) = true := by decide +kernel
    have hfp := hone m hm
    rw [hs] at hfp
    simpa using hfp
  have hfine : AllFine 7 {} onceAndAgain :=
    ⟨trivial, by rintro ⟨⟩, fun _ => hseen 2 (by simp), by rintro ⟨⟩, trivial,
      fun _ => hseen 5 (by simp), trivial⟩
  have hlast : AmongLast (run {} onceAndAgain) 7 1 := by
    refine ⟨[(8, 4)], [(8, 3)], ?_, ?_⟩
    · decide +kernel
    · simp [FORWARD_WINDOW]
  have h := (repeated_forwards_are_applied_once onceAndAgain).2 7 hfine 1 (.Absent .Failed)
  refine ⟨(h.1 (.inr hlast)).1, h.2 hlast .Reached ?_⟩
  decide +kernel

/-- A number comes back with another message while its first one is under way. -/
def reused : List Step :=
  [.Arrive 7 1 (.Fanned 1 false .Ok false true), .Arrive 7 2 (.Fanned 0 false .Ok false true)]

/-- The first message is then taken for a new one, though it is still being applied. -/
theorem a_forward_under_way_is_applied_again :
    StillApplying (run {} reused) 7 1 ∧
      ((run {} reused).forward_is_repeat 7 1).1 = false ∧
      ((run {} reused).arrive 7 1 (.Fanned 1 false .Ok false true)).recordings =
        [(7, 1), (7, 2), (7, 1)] := by
  have hgate : (run {} reused).remote_append_pending[7]?.map (·.applying) = some [1] := by
    decide +kernel
  obtain ⟨g, hg, happlying⟩ := Option.map_eq_some_iff.mp hgate
  refine ⟨⟨g, hg, ?_⟩, ?_, ?_⟩
  · rw [happlying]
    simp
  · decide +kernel
  · decide +kernel

end Receiver

end mqttd.hub.forwarding
