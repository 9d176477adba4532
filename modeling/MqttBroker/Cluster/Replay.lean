-- The anti-replay primitives of the gossip (`replay.rs`): the sliding window over the sequence
-- numbers of one sender, and the allocator of a node's own numbers, which reserves them in
-- blocks and resumes above the last block it made durable.
import Mathlib.Data.List.Induction
import MqttBroker.Lib.BitMask

namespace mqtt_cluster.replay

open BitMask

/-! ## The window -/

structure ReplayWindow where
  high : UInt64 := 0
  /-- Bit `i` stands for the number `high - i`. -/
  bitmap : UInt64 := 0
  seeded : Bool := false
  deriving DecidableEq

def WINDOW : UInt64 := 64

namespace ReplayWindow

def new : ReplayWindow := {}

/-- Whether `seq` is fresh, and the window after it. -/
def check_and_set (w : ReplayWindow) (seq : UInt64) : Bool × ReplayWindow :=
  if !w.seeded then (true, { seeded := true, high := seq, bitmap := 1 })
  else if w.high < seq then
    let shift := seq - w.high
    (true, { w with
      bitmap := if WINDOW ≤ shift then 1 else (w.bitmap <<< shift) ||| 1
      high := seq })
  else
    let offset := w.high - seq
    if WINDOW ≤ offset then (false, w)
    else
      let mask := (1 : UInt64) <<< offset
      if w.bitmap &&& mask ≠ 0 then (false, w)
      else (true, { w with bitmap := w.bitmap ||| mask })

/-- The window after the numbers `seqs`. -/
def after (seqs : List UInt64) : ReplayWindow :=
  seqs.foldl (fun w seq => (w.check_and_set seq).2) new

/-- Those of the numbers that `w` and the windows after it accept, in order. -/
def accepted (w : ReplayWindow) : List UInt64 → List UInt64
  | [] => []
  | seq :: rest =>
    let (fresh, next) := w.check_and_set seq
    if fresh then seq :: accepted next rest else accepted next rest

theorem after_snoc (seqs : List UInt64) (seq : UInt64) :
    after (seqs ++ [seq]) = ((after seqs).check_and_set seq).2 := by simp [after]

theorem accepted_append (w : ReplayWindow) (xs ys : List UInt64) :
    accepted w (xs ++ ys) =
      accepted w xs ++ accepted (xs.foldl (fun w seq => (w.check_and_set seq).2) w) ys := by
  induction xs generalizing w with
  | nil => rfl
  | cons x xs ih =>
    simp only [List.cons_append, accepted, List.foldl_cons, ih]
    split <;> rfl

theorem accepted_snoc (seqs : List UInt64) (seq : UInt64) :
    accepted new (seqs ++ [seq]) = accepted new seqs ++
      if ((after seqs).check_and_set seq).1 then [seq] else [] := by
  rw [accepted_append]
  rfl

/-- The highest of the numbers in `taken`. -/
def Highest (taken : List UInt64) (high : UInt64) : Prop :=
  high ∈ taken ∧ ∀ seq ∈ taken, seq ≤ high

/-- What the window holds of the numbers `taken` so far. -/
structure Holds (w : ReplayWindow) (taken : List UInt64) : Prop where
  seeded : w.seeded = false ↔ taken = []
  high : w.seeded = true → Highest taken w.high
  mask : ∀ i < 64, Has w.bitmap i ↔ ∃ seq ∈ taken, seq.toNat + i = w.high.toNat

/-- A number is fresh for a window that has taken `taken`. -/
def Fresh (taken : List UInt64) (seq : UInt64) : Prop :=
  taken = [] ∨ ∃ high, Highest taken high ∧
    (high < seq ∨ seq ≤ high ∧ high.toNat - seq.toNat ≤ 63 ∧ seq ∉ taken)

variable {w : ReplayWindow} {taken : List UInt64}

theorem holds_new : Holds new [] := by
  refine ⟨by simp [new], by simp [new], ?_⟩
  intro i _
  simp [new]

theorem Highest.unique {a b : UInt64} (ha : Highest taken a) (hb : Highest taken b) : a = b :=
  UInt64.le_antisymm (hb.2 a ha.1) (ha.2 b hb.1)

theorem Holds.bit (h : Holds w taken) {seq : UInt64} (hle : seq ≤ w.high)
    (hin : w.high.toNat - seq.toNat < 64) :
    Has w.bitmap (w.high.toNat - seq.toNat) ↔ seq ∈ taken := by
  rw [UInt64.le_iff_toNat_le] at hle
  rw [h.mask _ hin]
  constructor
  · rintro ⟨other, hmem, heq⟩
    have : other = seq := UInt64.toNat_inj.mp (by omega)
    exact this ▸ hmem
  · intro hmem
    exact ⟨seq, hmem, by omega⟩

theorem Holds.fresh (h : Holds w taken) (hs : w.seeded = true) (seq : UInt64) :
    Fresh taken seq ↔
      w.high < seq ∨ seq ≤ w.high ∧ w.high.toNat - seq.toNat ≤ 63 ∧ seq ∉ taken := by
  have hne : taken ≠ [] := fun hnil => by simp [h.seeded.mpr hnil] at hs
  constructor
  · rintro (hnil | ⟨high, hhigh, hcase⟩)
    · exact absurd hnil hne
    · rwa [hhigh.unique (h.high hs)] at hcase
  · intro hcase
    exact .inr ⟨w.high, h.high hs, hcase⟩

theorem Holds.mask_jump (h : Holds w taken) (hs : w.seeded = true) {seq : UInt64}
    (habove : w.high < seq) {i : Nat} (hi : i < 64) :
    Has (if WINDOW ≤ seq - w.high then 1 else (w.bitmap <<< (seq - w.high)) ||| 1) i ↔
      ∃ s ∈ taken ++ [seq], s.toNat + i = seq.toNat := by
  have hle : w.high ≤ seq := UInt64.le_of_lt habove
  have hshift : (seq - w.high).toNat = seq.toNat - w.high.toNat := UInt64.toNat_sub_of_le _ _ hle
  rw [UInt64.lt_iff_toNat_lt] at habove
  have hmax : ∀ s ∈ taken, s.toNat ≤ w.high.toNat := fun s hs' =>
    UInt64.le_iff_toNat_le.mp ((h.high hs).2 s hs')
  have hnew : (∃ s ∈ taken ++ [seq], s.toNat + i = seq.toNat) ↔
      (∃ s ∈ taken, s.toNat + i = seq.toNat) ∨ i = 0 := by
    simp only [List.mem_append, List.mem_singleton, or_and_right, exists_or, exists_eq_left]
    simp
  rw [hnew]
  clear hnew
  have hwindow : WINDOW ≤ seq - w.high ↔ 64 ≤ seq.toNat - w.high.toNat := by
    rw [UInt64.le_iff_toNat_le, hshift]
    rfl
  split
  · rename_i hfar
    rw [hwindow] at hfar
    -- the new number leaves everything below the window
    have hnone : ¬ ∃ s ∈ taken, s.toNat + i = seq.toNat := by
      rintro ⟨s, hmem, heq⟩
      have := hmax s hmem
      omega
    simp [hnone]
  · rename_i hnear
    rw [hwindow] at hnear
    rw [has_or, has_one, has_shift _ (by omega), hshift]
    apply or_congr_left
    constructor
    · rintro ⟨_, hge, hbit⟩
      obtain ⟨s, hmem, heq⟩ := (h.mask _ (by omega)).mp hbit
      exact ⟨s, hmem, by omega⟩
    · rintro ⟨s, hmem, heq⟩
      have := hmax s hmem
      exact ⟨hi, by omega, (h.mask _ (by omega)).mpr ⟨s, hmem, by omega⟩⟩

theorem Holds.mask_set (h : Holds w taken) {seq : UInt64} (hle : seq ≤ w.high)
    (hin : (w.high - seq).toNat < 64) {i : Nat} (hi : i < 64) :
    Has (w.bitmap ||| 1 <<< (w.high - seq)) i ↔
      ∃ s ∈ taken ++ [seq], s.toNat + i = w.high.toNat := by
  have hoff : (w.high - seq).toNat = w.high.toNat - seq.toNat := UInt64.toNat_sub_of_le _ _ hle
  rw [UInt64.le_iff_toNat_le] at hle
  rw [has_or, has_bit hin, h.mask i hi, hoff]
  simp only [List.mem_append, List.mem_singleton, or_and_right, exists_or, exists_eq_left]
  apply or_congr_right
  omega

theorem Highest.snoc {high seq : UInt64} (h : Highest taken high) (hle : seq ≤ high) :
    Highest (taken ++ [seq]) high := by
  refine ⟨List.mem_append_left _ h.1, ?_⟩
  intro s hs
  rcases List.mem_append.mp hs with hs | hs
  · exact h.2 s hs
  · exact (List.mem_singleton.mp hs) ▸ hle

theorem Highest.jump {high seq : UInt64} (h : Highest taken high) (hlt : high < seq) :
    Highest (taken ++ [seq]) seq := by
  refine ⟨by simp, ?_⟩
  intro s hs
  rcases List.mem_append.mp hs with hs | hs
  · exact UInt64.le_trans (h.2 s hs) (UInt64.le_of_lt hlt)
  · exact (List.mem_singleton.mp hs) ▸ UInt64.le_refl _

theorem holds_check_and_set (h : Holds w taken) (seq : UInt64) :
    ((w.check_and_set seq).1 = true ↔ Fresh taken seq) ∧
      Holds (w.check_and_set seq).2
        (taken ++ if (w.check_and_set seq).1 then [seq] else []) := by
  cases hs : w.seeded with
  | false =>
    have hnil : taken = [] := h.seeded.mp hs
    subst hnil
    refine ⟨by simp [check_and_set, hs, Fresh], ?_⟩
    refine ⟨by simp [check_and_set, hs], by simp [check_and_set, hs, Highest], ?_⟩
    intro i _
    simp [check_and_set, hs]
  | true =>
    rw [h.fresh hs]
    by_cases habove : w.high < seq
    · simp only [check_and_set, hs, habove, Bool.not_true, Bool.false_eq_true, if_false, if_true,
        true_or, true_and]
      refine ⟨by simp, fun _ => (h.high hs).jump habove, ?_⟩
      intro i hi
      exact h.mask_jump hs habove hi
    · have hle : seq ≤ w.high := UInt64.not_lt.mp habove
      have hoff : (w.high - seq).toNat = w.high.toNat - seq.toNat :=
        UInt64.toNat_sub_of_le _ _ hle
      have hwindow : WINDOW ≤ w.high - seq ↔ 64 ≤ w.high.toNat - seq.toNat := by
        rw [UInt64.le_iff_toNat_le, hoff]
        rfl
      by_cases hfar : WINDOW ≤ w.high - seq
      · have hold : ¬ w.high.toNat - seq.toNat ≤ 63 := by
          rw [hwindow] at hfar
          omega
        simp [check_and_set, hs, habove, hfar, hold, h]
      · have hin : w.high.toNat - seq.toNat < 64 := by
          rw [hwindow] at hfar
          omega
        have hbit := and_bit w.bitmap (hoff ▸ hin)
        rw [hoff, h.bit hle hin] at hbit
        by_cases hseen : seq ∈ taken
        · simp [check_and_set, hs, habove, hfar, hbit.mpr hseen, hseen, h]
        · have hclear : w.bitmap &&& (1 <<< (w.high - seq)) = 0 :=
            not_not.mp (mt hbit.mp hseen)
          simp only [check_and_set, hs, habove, hfar, hclear, hseen, hle, Bool.not_true,
            Bool.false_eq_true, if_false, if_true, ne_eq, not_true_eq_false, not_false_eq_true,
            false_or, true_and, and_true, true_iff]
          refine ⟨by omega, by simp, fun _ => (h.high hs).snoc hle, ?_⟩
          intro i hi
          exact h.mask_set hle (hoff ▸ hin) hi

theorem holds_after (seqs : List UInt64) : Holds (after seqs) (accepted new seqs) := by
  induction seqs using List.reverseRecOn with
  | nil => exact holds_new
  | append_singleton seqs seq ih =>
    rw [after_snoc, accepted_snoc]
    exact (holds_check_and_set ih seq).2

theorem Fresh.not_mem {seq : UInt64} (h : Fresh taken seq) : seq ∉ taken := by
  rcases h with hnil | ⟨high, hhigh, habove | ⟨_, _, hnot⟩⟩
  · simp [hnil]
  · intro hmem
    exact absurd habove (UInt64.not_lt.mpr (hhigh.2 seq hmem))
  · exact hnot

theorem nodup_accepted (seqs : List UInt64) : (accepted new seqs).Nodup := by
  induction seqs using List.reverseRecOn with
  | nil => exact List.nodup_nil
  | append_singleton seqs seq ih =>
    rw [accepted_snoc]
    split
    · rename_i hfresh
      have hnot := ((holds_check_and_set (holds_after seqs) seq).1.mp hfresh).not_mem
      exact List.nodup_append.mpr ⟨ih, by simp, by
        intro a ha b hb
        rw [List.mem_singleton.mp hb]
        rintro rfl
        exact hnot ha⟩
    · rwa [List.append_nil]

/-- After any numbers, the window accepts the next one iff it is fresh for those accepted, it
has accepted no number twice, and its mask says which of the last numbers were accepted. -/
theorem the_replay_window_is_exact (seqs : List UInt64) :
    (∀ seq, ((after seqs).check_and_set seq).1 = true ↔
      (after seqs).seeded = false ∨ ∃ high, Highest (accepted new seqs) high ∧
        (high < seq ∨ seq ≤ high ∧ high.toNat - seq.toNat ≤ 63 ∧ seq ∉ accepted new seqs)) ∧
    (accepted new seqs).Nodup ∧
    ((after seqs).seeded = true → Highest (accepted new seqs) (after seqs).high) ∧
    ∀ i < 64, Has (after seqs).bitmap i ↔
      ∃ seq ∈ accepted new seqs, seq.toNat + i = (after seqs).high.toNat := by
  have h := holds_after seqs
  refine ⟨?_, nodup_accepted seqs, h.high, h.mask⟩
  intro seq
  rw [h.seeded]
  exact (holds_check_and_set h seq).1

end ReplayWindow

/-! ## The allocator -/

/-- The allocator in memory. Its store is apart: the bound that was last made durable. -/
structure SequenceAllocator where
  next : UInt64
  reserved_until : UInt64
  block : UInt64
  deriving DecidableEq

namespace SequenceAllocator

/-- An empty block stops the program. -/
def «open» (reserved block : UInt64) : Option SequenceAllocator :=
  if 0 < block then some { next := reserved, reserved_until := reserved, block } else none

/-- The bound that `allocate` persists before it goes on, when its block is used up. -/
def reserve (a : SequenceAllocator) : Option UInt64 :=
  if a.reserved_until ≤ a.next then some (a.next + a.block) else none

/-- The number handed out, the allocator after it, and the durable bound. -/
def allocate (a : SequenceAllocator) (reserved : UInt64) :
    UInt64 × SequenceAllocator × UInt64 :=
  (a.next, { a with next := a.next + 1, reserved_until := a.reserve.getD a.reserved_until },
    a.reserve.getD reserved)

/-- The bound that `allocate` would reserve does not pass the width. -/
def InRange (a : SequenceAllocator) : Prop :=
  a.reserved_until ≤ a.next → a.next.toNat + a.block.toNat < 2 ^ 64

instance (a : SequenceAllocator) : Decidable a.InRange :=
  inferInstanceAs (Decidable (_ → _))

end SequenceAllocator

/-- A node: what is durable, the allocator while the process lives, and every number that
`allocate` has returned. -/
structure Node where
  reserved : UInt64
  allocator : Option SequenceAllocator := none
  returned : List UInt64 := []
  deriving DecidableEq

inductive Event
  | Open (block : UInt64)
  | Allocate
  | Crash
  /-- The process dies in the persist of an `allocate`, with the new bound durable or not. -/
  | CrashInPersist (durable : Bool)
  deriving DecidableEq

/-- The event reaches the additions of `allocate`. -/
def Event.allocates : Event → Bool
  | .Allocate | .CrashInPersist _ => true
  | .Open _ | .Crash => false

namespace Node

def step (n : Node) : Event → Node
  | .Open block => { n with allocator := SequenceAllocator.open n.reserved block }
  | .Allocate =>
    match n.allocator with
    | none => n
    | some a =>
      let (seq, a, reserved) := a.allocate n.reserved
      { reserved, allocator := some a, returned := n.returned ++ [seq] }
  | .Crash => { n with allocator := none }
  | .CrashInPersist durable =>
    let persisted := (n.allocator.bind SequenceAllocator.reserve).getD n.reserved
    { n with allocator := none, reserved := if durable then persisted else n.reserved }

def run (n : Node) (events : List Event) : Node := events.foldl step n

/-- No number of the run passes the width. -/
def InRange (n : Node) : List Event → Prop
  | [] => True
  | e :: events => (e.allocates = true → ∀ a ∈ n.allocator, a.InRange) ∧ (n.step e).InRange events

instance decInRange : (n : Node) → (events : List Event) → Decidable (n.InRange events)
  | _, [] => inferInstanceAs (Decidable True)
  | n, e :: events =>
    have := decInRange (n.step e) events
    inferInstanceAs (Decidable (_ ∧ _))

/-- The numbers returned so far lie below what is durable, and below the next of a live
allocator, whose block is what is durable. -/
structure Kept (n : Node) : Prop where
  increasing : n.returned.Pairwise (· < ·)
  durable : ∀ seq ∈ n.returned, seq < n.reserved
  next : ∀ a ∈ n.allocator, ∀ seq ∈ n.returned, seq < a.next
  block : ∀ a ∈ n.allocator, a.next ≤ a.reserved_until ∧ a.reserved_until = n.reserved ∧ 0 < a.block

variable {n : Node} {a : SequenceAllocator}

theorem lt_of_reserve (hblock : 0 < a.block) (hrange : a.InRange) {bound : UInt64}
    (h : a.reserve = some bound) : a.next < bound := by
  unfold SequenceAllocator.reserve at h
  split at h
  · rename_i hused
    have hsum := hrange hused
    obtain rfl := Option.some_inj.mp h
    rw [UInt64.lt_iff_toNat_lt] at hblock ⊢
    rw [UInt64.toNat_add, Nat.mod_eq_of_lt hsum]
    have : (0 : UInt64).toNat = 0 := rfl
    omega
  · cases h

theorem next_lt_bound (hblock : 0 < a.block) (hrange : a.InRange) :
    a.next < a.reserve.getD a.reserved_until := by
  cases hres : a.reserve with
  | some bound => exact lt_of_reserve hblock hrange hres
  | none =>
    unfold SequenceAllocator.reserve at hres
    split at hres
    · cases hres
    · rename_i hused
      exact UInt64.not_le.mp hused

theorem kept_allocate (h : Kept n) (ha : n.allocator = some a) (hrange : a.InRange) :
    Kept (n.step .Allocate) := by
  obtain ⟨hnext, hbound, hblock⟩ := h.block a ha
  have hbelow := h.next a ha
  have hlt := next_lt_bound hblock hrange
  have hsucc : (a.next + 1).toNat = a.next.toNat + 1 := by
    have hwidth := UInt64.toNat_lt (a.reserve.getD a.reserved_until)
    rw [UInt64.lt_iff_toNat_lt] at hlt
    rw [UInt64.toNat_add]
    exact Nat.mod_eq_of_lt (Nat.lt_of_le_of_lt hlt hwidth)
  have hup : a.next < a.next + 1 := by
    rw [UInt64.lt_iff_toNat_lt, hsucc]
    omega
  simp only [step, ha, SequenceAllocator.allocate, ← hbound]
  refine ⟨?_, ?_, ?_, ?_⟩
  · refine List.pairwise_append.mpr ⟨h.increasing, by simp, ?_⟩
    intro seq hseq x hx
    rw [List.mem_singleton.mp hx]
    exact hbelow seq hseq
  · intro seq hseq
    rcases List.mem_append.mp hseq with hseq | hseq
    · exact UInt64.lt_trans (hbelow seq hseq) hlt
    · exact (List.mem_singleton.mp hseq) ▸ hlt
  · rintro _ ⟨rfl⟩ seq hseq
    rcases List.mem_append.mp hseq with hseq | hseq
    · exact UInt64.lt_trans (hbelow seq hseq) hup
    · exact (List.mem_singleton.mp hseq) ▸ hup
  · rintro _ ⟨rfl⟩
    refine ⟨?_, rfl, hblock⟩
    rw [UInt64.lt_iff_toNat_lt] at hlt
    rw [UInt64.le_iff_toNat_le, hsucc]
    exact hlt

theorem kept_crash_in_persist (h : Kept n) (hrange : ∀ a ∈ n.allocator, a.InRange)
    (durable : Bool) : Kept (n.step (.CrashInPersist durable)) := by
  refine ⟨h.increasing, ?_, by simp [step], by simp [step]⟩
  intro seq hseq
  simp only [step]
  split
  · cases hpers : n.allocator.bind SequenceAllocator.reserve with
    | none => exact h.durable seq hseq
    | some bound =>
      obtain ⟨a, ha, hres⟩ := Option.bind_eq_some_iff.mp hpers
      have hlt := lt_of_reserve (h.block a ha).2.2 (hrange a ha) hres
      exact UInt64.lt_trans (h.next a ha seq hseq) hlt
  · exact h.durable seq hseq

theorem kept_open (h : Kept n) (block : UInt64) : Kept (n.step (.Open block)) := by
  refine ⟨h.increasing, h.durable, ?_, ?_⟩
  all_goals
    intro a ha
    simp only [step, SequenceAllocator.open, Option.mem_def] at ha
    split at ha
    · rename_i hblock
      obtain rfl := Option.some_inj.mp ha
      first
        | exact h.durable
        | exact ⟨UInt64.le_refl _, rfl, hblock⟩
    · cases ha

theorem kept_step_event (h : Kept n) (e : Event)
    (hrange : e.allocates = true → ∀ a ∈ n.allocator, a.InRange) :
    Kept (n.step e) := by
  cases e with
  | Open block => exact kept_open h block
  | Allocate =>
    cases ha : n.allocator with
    | none => simpa [step, ha] using h
    | some a => exact kept_allocate h ha (hrange rfl a ha)
  | Crash => exact ⟨h.increasing, h.durable, by simp [step], by simp [step]⟩
  | CrashInPersist durable => exact kept_crash_in_persist h (hrange rfl) durable

theorem kept_run_events (events : List Event) (h : Kept n) (hrange : n.InRange events) :
    Kept (n.run events) := by
  induction events generalizing n with
  | nil => exact h
  | cons e events ih => exact ih (kept_step_event h e hrange.1) hrange.2

theorem kept_node (reserved : UInt64) : Kept { reserved } := by
  refine ⟨List.Pairwise.nil, ?_, ?_, ?_⟩ <;> simp

/-- Whatever the blocks, and wherever the crashes fall, a node whose numbers do not pass the
width returns ever greater numbers, and so none of them twice. -/
theorem sequence_numbers_are_never_reissued (reserved : UInt64) (events : List Event)
    (hrange : InRange { reserved } events) :
    (run { reserved } events).returned.Pairwise (· < ·) ∧
      (run { reserved } events).returned.Nodup := by
  have h := (kept_run_events events (kept_node reserved) hrange).increasing
  refine ⟨h, h.imp ?_⟩
  intro a b hlt
  exact UInt64.ne_of_lt hlt

/-- Two processes with different blocks, and a crash between their persists. -/
theorem two_processes_never_reissue :
    (run { reserved := 0 } [.Open 2, .Allocate, .Allocate, .Allocate, .CrashInPersist true,
      .Open 5, .Allocate, .CrashInPersist false, .Open 1, .Allocate]).returned.Pairwise (· < ·) ∧
    (run { reserved := 0 } [.Open 2, .Allocate, .Allocate, .Allocate, .CrashInPersist true,
      .Open 5, .Allocate, .CrashInPersist false, .Open 1, .Allocate]).returned.Nodup := by
  apply sequence_numbers_are_never_reissued
  decide

end Node

end mqtt_cluster.replay
