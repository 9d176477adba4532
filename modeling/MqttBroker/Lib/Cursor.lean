-- Readers with a position in a buffer, for programs that index slices: a read past
-- the end of a slice is a panic, and not an error. A reader is calm when it never
-- panics, and it reads a value when it takes exactly the bytes of that value.
import Mathlib.Data.List.Basic

namespace CursorReader

abbrev Bytes := List UInt8

structure Cursor where
  buf : Bytes
  pos : Nat
  deriving DecidableEq

/-- Why a read ended without a value. -/
inductive Fault (ε : Type)
  | Error (e : ε)
  | Panic
  deriving DecidableEq

abbrev Reader (ε : Type) := StateT Cursor (Except (Fault ε))

variable {ε α β : Type}

/-- The error of the program. -/
def fail (e : ε) : Reader ε α := throw (.Error e)

/-- The bytes of the buffer between two places. -/
def slice (first last : Nat) : Reader ε Bytes := fun r =>
  if first ≤ last ∧ last ≤ r.buf.length then .ok ((r.buf.drop first).take (last - first), r)
  else .error .Panic

/-- One element of a slice. -/
def index (l : List α) (i : Nat) : Reader ε α :=
  match l[i]? with
  | some a => pure a
  | none => throw .Panic

/-- As many values as a count says. -/
def times (item : Reader ε α) : Nat → Reader ε (List α)
  | 0 => pure []
  | n + 1 => do
    let a ← item
    let l ← times item n
    return a :: l

/-! ## What is read -/

/-- After the bytes before it and with the bytes after it, the reader takes its bytes and
gives the value. -/
def Reads (m : Reader ε α) (before bytes : Bytes) (a : α) (after : Bytes) : Prop :=
  m.run ⟨before ++ (bytes ++ after), before.length⟩ =
    .ok (a, ⟨before ++ (bytes ++ after), before.length + bytes.length⟩)

theorem Reads.pure (a : α) (before after : Bytes) :
    Reads (Pure.pure a : Reader ε α) before [] a after := rfl

variable {m : Reader ε α} {f : α → Reader ε β} {before after : Bytes} {a : α} {b : β}

theorem Reads.bind {first second : Bytes} (hm : Reads m before first a (second ++ after))
    (hf : Reads (f a) (before ++ first) second b after) :
    Reads (m >>= f) before (first ++ second) b after := by
  unfold Reads at hm hf ⊢
  rw [StateT.run_bind, List.append_assoc, hm]
  simp only [List.append_assoc, List.length_append] at hf ⊢
  rw [← Nat.add_assoc]
  exact hf

variable {bytes : Bytes}

theorem Reads.bind_nil (hm : Reads m before [] a (bytes ++ after))
    (hf : Reads (f a) before bytes b after) : Reads (m >>= f) before bytes b after := by
  have h : Reads (m >>= f) before ([] ++ bytes) b after := hm.bind (by simpa using hf)
  simpa using h

/-- The value is changed at the end. -/
theorem Reads.map (f : α → β) (hm : Reads m before bytes a after) :
    Reads (do return f (← m)) before bytes (f a) after := by
  have h : Reads (m >>= fun a => (Pure.pure (f a) : Reader ε β)) before (bytes ++ []) (f a)
      after := Reads.bind (by simpa using hm) (.pure (f a) _ after)
  simpa using h

variable {item : Reader ε α}

theorem reads_times {put : α → Bytes} {l : List α}
    (h : ∀ a ∈ l, ∀ before after, Reads item before (put a) a after) (before after : Bytes) :
    Reads (times item l.length) before (l.flatMap put) l after := by
  induction l generalizing before with
  | nil => exact .pure [] before after
  | cons a l ih =>
    rw [List.length_cons, times, List.flatMap_cons]
    refine (h a (by simp) before _).bind ?_
    exact (ih (fun b hb => h b (List.mem_cons_of_mem _ hb)) (before ++ put a)).map (fun l => a :: l)

/-! ## No panics -/

/-- From a place in the buffer, the reader ends at a place in the same buffer or with an
error. -/
def Calm (m : Reader ε α) : Prop := ∀ r : Cursor, r.pos ≤ r.buf.length →
  (∃ a pos, m.run r = .ok (a, ⟨r.buf, pos⟩) ∧ pos ≤ r.buf.length) ∨
    ∃ e, m.run r = .error (.Error e)

theorem calm_pure (a : α) : Calm (Pure.pure a : Reader ε α) :=
  fun r hr => .inl ⟨a, r.pos, rfl, hr⟩

theorem calm_fail (e : ε) : Calm (fail e : Reader ε α) := fun _ _ => .inr ⟨e, rfl⟩

theorem Calm.bind (hm : Calm m) (hf : ∀ a, Calm (f a)) : Calm (m >>= f) := by
  intro r hr
  rw [StateT.run_bind]
  rcases hm r hr with ⟨a, pos, hrun, hpos⟩ | ⟨e, hrun⟩
  · rw [hrun]
    exact hf a ⟨r.buf, pos⟩ hpos
  · rw [hrun]
    exact .inr ⟨e, rfl⟩

theorem calm_ite {c : Prop} [Decidable c] {n : Reader ε α} (hm : Calm m) (hn : Calm n) :
    Calm (if c then m else n) := by
  split
  · exact hm
  · exact hn

theorem calm_times (h : Calm item) (n : Nat) : Calm (times item n) := by
  induction n with
  | zero => exact calm_pure []
  | succ n ih => exact h.bind (fun a => ih.bind (fun l => calm_pure (a :: l)))

end CursorReader
