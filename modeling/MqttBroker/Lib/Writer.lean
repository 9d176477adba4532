-- Writers into a buffer that fail with what they wrote so far, and results that come exactly
-- under a condition.
import MqttBroker.Lib.Wire

namespace Wire

variable {ε α β : Type}

/-! ## Exactly when a result comes -/

/-- The computation ends well exactly under `P`, and then with a value that has `Q`. -/
structure Yields (x : Except ε α) (P : Prop) (Q : α → Prop) : Prop where
  ok : P → ∃ a, x = .ok a ∧ Q a
  error : ¬ P → ∃ e, x = .error e

variable {a : α} {Q : α → Prop}

theorem yields_ok (h : Q a) : Yields (.ok a : Except ε α) True Q :=
  ⟨fun _ => ⟨a, rfl, h⟩, fun hnot => absurd trivial hnot⟩

variable {x : Except ε α} {P P' : Prop}

theorem Yields.iff (h : Yields x P Q) (hiff : P' ↔ P) : Yields x P' Q :=
  ⟨fun hp => h.ok (hiff.mp hp), fun hn => h.error (mt hiff.mpr hn)⟩

variable {Q' : β → Prop}

theorem Yields.bind {f : α → Except ε β} (hx : Yields x P Q) (hf : ∀ a, Q a → Yields (f a) P' Q') :
    Yields (x >>= f) (P ∧ P') Q' := by
  constructor
  · rintro ⟨hp, hp'⟩
    obtain ⟨a, rfl, ha⟩ := hx.ok hp
    exact (hf a ha).ok hp'
  · intro hnot
    by_cases hp : P
    · obtain ⟨a, rfl, ha⟩ := hx.ok hp
      exact (hf a ha).error fun hp' => hnot ⟨hp, hp'⟩
    · obtain ⟨e, rfl⟩ := hx.error hp
      exact ⟨e, rfl⟩

/-- A step that ends the computation, or leaves a value made from its own. -/
theorem Yields.map {f : α → β} (hx : Yields x P Q) (hf : ∀ a, Q a → Q' (f a)) :
    Yields (do let a ← x; return f a) P Q' :=
  (hx.bind fun a ha => yields_ok (hf a ha)).iff (by simp)

theorem yields_check {c : Prop} [Decidable c] {e : ε} (hx : Yields x P Q) :
    Yields (if c then .error e else x) (¬ c ∧ P) Q := by
  by_cases hc : c
  · rw [if_pos hc]
    exact ⟨fun h => absurd hc h.1, fun _ => ⟨e, rfl⟩⟩
  · rw [if_neg hc]
    exact hx.iff (and_iff_right hc)

/-- Two computations that end well under one condition end badly together too. -/
theorem Yields.error_iff {y : Except ε β} (hx : Yields x P Q) (hy : Yields y P Q') :
    (∃ e, x = .error e) ↔ ∃ e, y = .error e := by
  by_cases hp : P
  · obtain ⟨a, rfl, -⟩ := hx.ok hp
    obtain ⟨b, rfl, -⟩ := hy.ok hp
    simp
  · exact iff_of_true (hx.error hp) (hy.error hp)

theorem Yields.of_eq (h : Yields x P Q) (hx : x = .ok a) : P ∧ Q a := by
  by_cases hp : P
  · obtain ⟨b, hb, hQ⟩ := h.ok hp
    rw [hx] at hb
    cases hb
    exact ⟨hp, hQ⟩
  · obtain ⟨e, he⟩ := h.error hp
    rw [hx] at he
    cases he

/-- Bytes written, and the number of them, under one condition. -/
theorem Yields.length_iff {x : Except ε Nat} {y : Except ε Bytes} {n : Nat}
    (hx : Yields x P (· = n)) (hy : Yields y P (·.length = n)) (k : Nat) :
    x = .ok k ↔ ∃ bytes, y = .ok bytes ∧ bytes.length = k := by
  constructor
  · intro h
    obtain ⟨hp, rfl⟩ := hx.of_eq h
    exact hy.ok hp
  · rintro ⟨bytes, h, rfl⟩
    obtain ⟨hp, hlen⟩ := hy.of_eq h
    obtain ⟨a, rfl, rfl⟩ := hx.ok hp
    rw [hlen]

variable {put : α → Except ε Bytes}

/-- One value after another, all of them fit to be written. -/
theorem yields_putMany {Fits : α → Prop} {size : α → Nat}
    (h : ∀ a, Yields (put a) (Fits a) (·.length = size a)) (l : List α) :
    Yields (putMany put l) (∀ a ∈ l, Fits a) (·.length = (l.map size).sum) := by
  induction l with
  | nil =>
    have hnil : Yields (putMany put [] : Except ε Bytes) True (·.length = 0) := yields_ok rfl
    exact hnil.iff (by simp)
  | cons a l ih =>
    refine Yields.iff ((h a).bind fun b hb => ih.map fun c hc => ?_) List.forall_mem_cons
    simp [hb, hc]

/-! ## Writing into a buffer -/

/-- A sink appends to a buffer, and may fail with some of it written. -/
abbrev Sink (ε : Type) := ExceptT ε (StateM Bytes)

/-- The buffer after the sink, and whether it failed. -/
def Sink.into (w : Sink ε Unit) (out : Bytes) : Except ε Unit × Bytes := w.run.run out

def append (bytes : Bytes) : Sink ε Unit := modify (· ++ bytes)

/-- The sink appends the bytes of `x`, or fails as `x` does behind what it has written. -/
def Appends (w : Sink ε Unit) (x : Except ε Bytes) : Prop :=
  ∀ out, match x with
    | .ok bytes => w.into out = (.ok (), out ++ bytes)
    | .error e => ∃ torn, w.into out = (.error e, out ++ torn)

theorem appends_append (bytes : Bytes) : Appends (append bytes : Sink ε Unit) (.ok bytes) :=
  fun _ => rfl

theorem appends_throw (e : ε) : Appends (throw e) (.error e) := fun out => ⟨[], by
  rw [List.append_nil]
  rfl⟩

theorem appends_pure : Appends (pure () : Sink ε Unit) (.ok []) := by
  intro out
  show Sink.into (pure ()) out = (.ok (), out ++ [])
  rw [List.append_nil]
  rfl

/-- The bytes of one result, and behind them those of another. -/
def both (x y : Except ε Bytes) : Except ε Bytes := do
  let a ← x
  let b ← y
  return a ++ b

@[simp] theorem both_ok (a b : Bytes) : both (.ok a : Except ε Bytes) (.ok b) = .ok (a ++ b) := rfl

theorem Appends.seq {w v : Sink ε Unit} {x y : Except ε Bytes} (hw : Appends w x)
    (hv : Appends v y) : Appends (do w; v) (both x y) := by
  intro out
  have hinto : Sink.into (do w; v) out = match w.into out with
      | (.ok (), mid) => v.into mid
      | (.error e, mid) => (.error e, mid) := by
    show ((w.run >>= ExceptT.bindCont fun _ => v) : StateM Bytes _).run out = _
    rw [StateT.run_bind]
    unfold Sink.into
    rcases w.run.run out with ⟨e | u, mid⟩ <;> rfl
  cases x with
  | error e =>
    obtain ⟨torn, h⟩ := hw out
    exact ⟨torn, by rw [hinto, h]⟩
  | ok a =>
    have h : w.into out = (.ok (), out ++ a) := hw out
    cases y with
    | error e =>
      obtain ⟨torn, h'⟩ := hv (out ++ a)
      exact ⟨a ++ torn, by rw [hinto, h, ← List.append_assoc]; exact h'⟩
    | ok b =>
      have h' : v.into (out ++ a) = (.ok (), out ++ a ++ b) := hv (out ++ a)
      show Sink.into (do w; v) out = (.ok (), out ++ (a ++ b))
      rw [hinto, h, ← List.append_assoc]
      exact h'

theorem appends_forM {w : α → Sink ε Unit} (h : ∀ a, Appends (w a) (put a)) (l : List α) :
    Appends (l.forM w) (putMany put l) := by
  induction l with
  | nil => exact appends_pure
  | cons a l ih => exact (h a).seq ih

end Wire
