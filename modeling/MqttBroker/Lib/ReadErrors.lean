-- Which error a reader ends with: where in a chain of reads one error can come from.
import MqttBroker.Lib.Wire

namespace Wire

variable {ε α β γ : Type} {e : ε} {bytes : Bytes}

/-- The reader fails on the bytes, with this error. -/
def Fails (m : Reader ε α) (bytes : Bytes) (e : ε) : Prop := m.run bytes = .error e

/-- The reader never fails with this error. -/
def Spares (e : ε) (m : Reader ε α) : Prop := ∀ bytes, ¬ Fails m bytes e

/-- The reader takes the front of the bytes, and what it leaves has the property. -/
def After (m : Reader ε α) (P : α → Bytes → Prop) (bytes : Bytes) : Prop :=
  ∃ a left, Gives m bytes a left ∧ P a left

variable {m : Reader ε α} {f : α → Reader ε β}

theorem fails_bind :
    Fails (m >>= f) bytes e ↔
      Fails m bytes e ∨ After m (fun a left => Fails (f a) left e) bytes := by
  unfold Fails After Gives
  rw [StateT.run_bind]
  rcases h : m.run bytes with x | ⟨a, left⟩
  · simp [bind, Except.bind]
  · simp [bind, Except.bind]

theorem spares_pure (a : α) : Spares e (pure a : Reader ε α) := by
  intro bytes h
  cases h

variable {x : ε}

theorem spares_throw (h : x ≠ e) : Spares e (throw x : Reader ε α) := by
  rintro bytes ⟨⟩
  exact h rfl

variable {c : Prop}

theorem spares_check [Decidable c] (h : x ≠ e) : Spares e (check c x) := by
  unfold check
  split
  · exact spares_pure ()
  · exact spares_throw h

theorem spares_orThrow {o : Option α} (h : x ≠ e) : Spares e (orThrow o x) := by
  cases o with
  | none => exact spares_throw h
  | some a => exact spares_pure a

theorem spares_isEmpty : Spares e (isEmpty : Reader ε Bool) := by
  intro bytes h
  cases h

theorem Spares.bind (hm : Spares e m) (hf : ∀ a, Spares e (f a)) : Spares e (m >>= f) := by
  intro bytes h
  rcases fails_bind.mp h with h | ⟨a, left, -, h⟩
  · exact hm bytes h
  · exact hf a left h

theorem Spares.ite [Decidable c] {n : Reader ε α} (hm : Spares e m) (hn : Spares e n) :
    Spares e (if c then m else n) := by
  split
  · exact hm
  · exact hn

theorem Spares.many {item : Reader ε α} (h : Spares e item) : Spares e (many item) := by
  have hloop (fuel : Nat) : Spares e (manyLoop item fuel) := by
    induction fuel with
    | zero => exact spares_pure []
    | succ fuel ih =>
      apply spares_isEmpty.bind
      intro empty
      exact (spares_pure []).ite (h.bind fun a => ih.bind fun l => spares_pure _)
  exact fun bytes => hloop bytes.length bytes

theorem after_bind {P : β → Bytes → Prop} :
    After (m >>= f) P bytes ↔ After m (fun a => After (f a) P) bytes := by
  constructor
  · rintro ⟨b, left', hb, hP⟩
    obtain ⟨a, left, ha, hb⟩ := gives_bind.mp hb
    exact ⟨a, left, ha, b, left', hb, hP⟩
  · rintro ⟨a, left, ha, b, left', hb, hP⟩
    exact ⟨b, left', ha.bind hb, hP⟩

theorem after_congr {P Q : α → Bytes → Prop} (h : ∀ a left, P a left ↔ Q a left) :
    After m P bytes ↔ After m Q bytes :=
  exists_congr fun a => exists_congr fun left => and_congr_right fun _ => h a left

/-- A read that cannot fail so, in front of a chain and of what is said of that chain. -/
theorem fails_step {g : α → Reader ε γ} {P : γ → Bytes → Prop} (hm : Spares e m)
    (h : ∀ a left, Fails (f a) left e ↔ After (g a) P left) :
    Fails (m >>= f) bytes e ↔ After (m >>= g) P bytes := by
  rw [fails_bind, or_iff_right (hm bytes), after_bind]
  exact after_congr h

@[simp] theorem after_pure {a : α} {P : α → Bytes → Prop} :
    After (pure a : Reader ε α) P bytes ↔ P a bytes := by
  simp [After]

theorem fails_last (hf : ∀ a, Spares e (f a)) : Fails (m >>= f) bytes e ↔ Fails m bytes e := by
  rw [fails_bind, or_iff_left]
  rintro ⟨a, left, -, h⟩
  exact hf a left h

end Wire
