-- A register that takes tagged writes and clears. One way to run a list of them
-- guards each write with the tag it finds; the other bars each write with the
-- tag from before the list. `Agrees` says exactly when the two end the same.
import Mathlib.Order.Lattice
import Mathlib.Data.List.Basic
import Mathlib.Order.Lattice.Nat

namespace TaggedRegister

/-! ## The events since the last clear -/

section clear

variable {β σ : Type}

/-- One more event: whether a clear was seen, and the writes since the last one. -/
def sinceClearStep (st : Bool × List β) : Option β → Bool × List β
  | none => (true, [])
  | some x => (st.1, st.2 ++ [x])

/-- Whether the events have a clear, and the writes since the last one. -/
def sinceClear (evs : List (Option β)) : Bool × List β := evs.foldl sinceClearStep (false, [])

theorem foldl_sinceClear (step : σ → Option β → σ) (z : σ) (hstep : ∀ v, step v none = z) (v : σ)
    (evs : List (Option β)) :
    evs.foldl step v = (sinceClear evs).2.foldl (fun v x => step v (some x))
      (if (sinceClear evs).1 then z else v) := by
  induction evs using List.reverseRecOn with
  | nil => rfl
  | append_singleton evs e ih =>
    rw [List.foldl_append, ih]
    simp only [List.foldl_cons, List.foldl_nil, sinceClear, List.foldl_append]
    cases e with
    | none => simp [sinceClearStep, hstep]
    | some x =>
      simp only [sinceClearStep, List.foldl_append]
      rfl

end clear

/-! ## The two runs -/

variable {τ α : Type} [LinearOrder τ]

/-- A write below the tag has no effect. -/
def below (bar : Option (τ × α)) (x : τ × α) : Bool := bar.any (fun h => decide (x.1 < h.1))

/-- A clear, or a write unless it is below the tag of the register. -/
def guarded (v : Option (τ × α)) : Option (τ × α) → Option (τ × α)
  | none => none
  | some x => if below v x then v else some x

/-- A clear, or a write unless it is below the tag of `bar`. -/
def barred (bar v : Option (τ × α)) : Option (τ × α) → Option (τ × α)
  | none => none
  | some x => if below bar x then v else some x

/-- The last write that is not below the bar has the highest tag of the writes since the last
clear; with no such write, there is none since a clear. -/
def Agrees (bar : Option (τ × α)) (evs : List (Option (τ × α))) : Prop :=
  match ((sinceClear evs).2.filter (fun x => !below bar x)).getLast? with
  | some x => ∀ y ∈ (sinceClear evs).2, y.1 ≤ x.1
  | none => (sinceClear evs).1 = true → (sinceClear evs).2 = []

theorem guarded_some (v : Option (τ × α)) (x : τ × α) :
    guarded v (some x) = if below v x then v else some x := rfl

theorem below_iff (bar : Option (τ × α)) (x : τ × α) :
    below bar x = true ↔ ∃ h, bar = some h ∧ x.1 < h.1 := by
  simp [below, Option.any_eq_true]

/-! ## The barred run keeps the last write that passes -/

theorem foldl_barred (bar v : Option (τ × α)) (xs : List (τ × α)) :
    xs.foldl (fun v x => barred bar v (some x)) v =
      (xs.filter (fun x => !below bar x)).getLast?.or v := by
  induction xs using List.reverseRecOn with
  | nil => rfl
  | append_singleton xs x ih =>
    rw [List.foldl_append, ih, List.filter_append]
    simp only [List.foldl_cons, List.foldl_nil, barred]
    by_cases hx : below bar x = true
    · simp [hx]
    · simp [hx]

/-! ## The guarded run keeps the last write of the highest tag -/

/-- What a guarded run ends with is at least every write and what it started with. -/
theorem foldl_guarded_ge (v : Option (τ × α)) (xs : List (τ × α)) :
    (∀ y ∈ xs, ∃ z, xs.foldl (fun v x => guarded v (some x)) v = some z ∧ y.1 ≤ z.1) ∧
      ∀ y, v = some y → ∃ z, xs.foldl (fun v x => guarded v (some x)) v = some z ∧ y.1 ≤ z.1 := by
  induction xs generalizing v with
  | nil => exact ⟨by simp, fun y hy => ⟨y, hy, le_refl _⟩⟩
  | cons x xs ih =>
    obtain ⟨h1, h2⟩ := ih (guarded v (some x))
    rw [List.foldl_cons]
    by_cases hb : below v x = true
    · have hg : guarded v (some x) = v := by simp [guarded_some, hb]
      rw [hg] at h1 h2 ⊢
      refine ⟨fun y hy => ?_, h2⟩
      rcases List.mem_cons.mp hy with rfl | hy
      · obtain ⟨h, rfl, hlt⟩ := (below_iff v y).mp hb
        obtain ⟨z, hz, hle⟩ := h2 h rfl
        exact ⟨z, hz, le_trans (le_of_lt hlt) hle⟩
      · exact h1 y hy
    · have hg : guarded v (some x) = some x := by simp [guarded_some, hb]
      rw [hg] at h1 h2 ⊢
      obtain ⟨z, hz, hle⟩ := h2 x rfl
      refine ⟨fun y hy => ?_, fun y hy => ⟨z, hz, ?_⟩⟩
      · rcases List.mem_cons.mp hy with rfl | hy
        · exact ⟨z, hz, hle⟩
        · exact h1 y hy
      · have hyx : y.1 ≤ x.1 := by
          rw [below_iff] at hb
          exact le_of_not_gt (fun hlt => hb ⟨y, hy, hlt⟩)
        exact le_trans hyx hle

/-- A guarded run ends with nothing only when it had nothing and wrote nothing. -/
theorem foldl_guarded_none {v : Option (τ × α)} {xs : List (τ × α)}
    (h : xs.foldl (fun v x => guarded v (some x)) v = none) : xs = [] := by
  rcases xs with _ | ⟨x, xs⟩
  · rfl
  · obtain ⟨z, hz, _⟩ := (foldl_guarded_ge v (x :: xs)).1 x List.mem_cons_self
    rw [h] at hz
    cases hz

/-- What a guarded run ends with is at most any tag that bounds its writes and its start. -/
theorem foldl_guarded_le {v : Option (τ × α)} {xs : List (τ × α)} {t : τ}
    (hv : ∀ y, v = some y → y.1 ≤ t) (hxs : ∀ y ∈ xs, y.1 ≤ t) :
    ∀ z, xs.foldl (fun v x => guarded v (some x)) v = some z → z.1 ≤ t := by
  induction xs generalizing v with
  | nil => exact hv
  | cons x xs ih =>
    refine ih ?_ (fun y hy => hxs y (List.mem_cons_of_mem x hy))
    intro y hy
    simp only [guarded_some] at hy
    split at hy
    · exact hv y hy
    · cases hy
      exact hxs _ List.mem_cons_self

theorem foldl_guarded_below (h : τ × α) (xs : List (τ × α)) (hxs : ∀ y ∈ xs, y.1 < h.1) :
    xs.foldl (fun v x => guarded v (some x)) (some h) = some h := by
  induction xs with
  | nil => rfl
  | cons x xs ih =>
    have hg : guarded (some h) (some x) = some h := by
      have hb : below (some h) x = true := (below_iff _ _).mpr ⟨h, rfl, hxs x List.mem_cons_self⟩
      simp [guarded_some, hb]
    rw [List.foldl_cons, hg]
    exact ih (fun y hy => hxs y (List.mem_cons_of_mem x hy))

theorem foldl_guarded_top {v : Option (τ × α)} {as bs : List (τ × α)} {x : τ × α}
    (hv : ∀ y, v = some y → y.1 ≤ x.1) (has : ∀ y ∈ as, y.1 ≤ x.1) (hbs : ∀ y ∈ bs, y.1 < x.1) :
    (as ++ x :: bs).foldl (fun v x => guarded v (some x)) v = some x := by
  rw [List.foldl_append, List.foldl_cons]
  have hle := foldl_guarded_le hv has
  have hg : guarded (as.foldl (fun v x => guarded v (some x)) v) (some x) = some x := by
    rw [guarded_some, if_neg]
    rw [below_iff]
    rintro ⟨z, hz, hlt⟩
    exact absurd (hle z hz) (not_le_of_gt hlt)
  rw [hg]
  exact foldl_guarded_below x bs hbs

/-! ## When the two runs agree -/

theorem filter_getLast_split {β : Type} (p : β → Bool) {xs : List β} {x : β}
    (h : (xs.filter p).getLast? = some x) :
    ∃ as bs, xs = as ++ x :: bs ∧ p x = true ∧ ∀ y ∈ bs, p y = false := by
  induction xs using List.reverseRecOn with
  | nil => simp at h
  | append_singleton xs y ih =>
    rw [List.filter_append] at h
    by_cases hy : p y = true
    · have hyx : y = x := by simpa [hy] using h
      subst hyx
      exact ⟨xs, [], rfl, hy, by simp⟩
    · have hxs : (xs.filter p).getLast? = some x := by simpa [hy] using h
      obtain ⟨as, bs, rfl, hpx, hbs⟩ := ih hxs
      refine ⟨as, bs ++ [y], by simp, hpx, ?_⟩
      intro z hz
      rcases List.mem_append.mp hz with hz | hz
      · exact hbs z hz
      · rw [List.mem_singleton] at hz
        subst hz
        simpa using hy

/-- The guarded run and the barred run end the same exactly when the events agree. -/
theorem guarded_eq_barred_iff (bar : Option (τ × α)) (evs : List (Option (τ × α))) :
    evs.foldl guarded bar = evs.foldl (barred bar) bar ↔ Agrees bar evs := by
  rw [foldl_sinceClear guarded none (fun _ => rfl),
    foldl_sinceClear (barred bar) none (fun _ => rfl), foldl_barred]
  unfold Agrees
  generalize (sinceClear evs).1 = cleared
  generalize (sinceClear evs).2 = xs
  have hstart : ∀ y, (if cleared then none else bar) = some y → bar = some y := by
    intro y hy
    cases cleared with
    | true => cases hy
    | false => exact hy
  rcases hl : (xs.filter (fun x => !below bar x)).getLast? with _ | x
  · have hall : ∀ y ∈ xs, below bar y = true := by
      intro y hy
      rw [List.getLast?_eq_none_iff, List.filter_eq_nil_iff] at hl
      simpa using hl y hy
    simp only [Option.none_or]
    cases cleared with
    | true =>
      simp only [if_true, forall_const]
      constructor
      · exact foldl_guarded_none
      · rintro rfl
        rfl
    | false =>
      simp only [Bool.false_eq_true, if_false, false_imp_iff, iff_true]
      rcases hb : bar with _ | h
      · rcases xs with _ | ⟨y, xs⟩
        · rfl
        · have := hall y List.mem_cons_self
          simp [hb, below] at this
      · refine foldl_guarded_below h xs (fun y hy => ?_)
        obtain ⟨h', hb', hlt⟩ := (below_iff _ _).mp (hall y hy)
        rw [hb] at hb'
        cases hb'
        exact hlt
  · simp only [Option.some_or]
    constructor
    · intro h y hy
      obtain ⟨z, hz, hle⟩ := (foldl_guarded_ge _ xs).1 y hy
      rw [h] at hz
      cases hz
      exact hle
    · intro hmax
      obtain ⟨as, bs, rfl, hx, hbs⟩ := filter_getLast_split _ hl
      have hbar : ∀ y, bar = some y → y.1 ≤ x.1 := by
        intro y hy
        by_contra hlt
        have hb : below bar x = true := (below_iff _ _).mpr ⟨y, hy, not_le.mp hlt⟩
        simp [hb] at hx
      refine foldl_guarded_top (fun y hy => hbar y (hstart y hy)) ?_ ?_
      · exact fun y hy => hmax y (List.mem_append_left _ hy)
      · intro y hy
        have hb : below bar y = true := by simpa using hbs y hy
        obtain ⟨h, hh, hlt⟩ := (below_iff _ _).mp hb
        exact lt_of_lt_of_le hlt (hbar h hh)

end TaggedRegister
