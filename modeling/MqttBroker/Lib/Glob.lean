-- Patterns in which one symbol stands for any run of symbols, and texts that are written
-- in a code whose words can be told apart where they begin: matching the words is
-- matching the symbols.
import Mathlib.Data.List.Forall2

namespace Glob

variable {α β : Type} [DecidableEq α] [DecidableEq β] {star a : α} {p lit t : List α}

/-- The text is the pattern with each star replaced by some run. -/
def Matches (star : α) : List α → List α → Prop
  | [], t => t = []
  | a :: p, t =>
    if a = star then ∃ run rest, t = run ++ rest ∧ Matches star p rest
    else ∃ rest, t = a :: rest ∧ Matches star p rest

theorem matches_nil : Matches star [] t ↔ t = [] := Iff.rfl

theorem matches_star :
    Matches star (star :: p) t ↔ ∃ run rest, t = run ++ rest ∧ Matches star p rest := by
  simp [Matches]

theorem matches_cons (h : a ≠ star) :
    Matches star (a :: p) t ↔ ∃ rest, t = a :: rest ∧ Matches star p rest := by
  simp [Matches, h]

theorem matches_literal (h : star ∉ lit) :
    Matches star (lit ++ p) t ↔ ∃ rest, t = lit ++ rest ∧ Matches star p rest := by
  induction lit generalizing t with
  | nil => simp
  | cons b lit ih =>
    have hb : b ≠ star := by
      rintro rfl
      simp at h
    have hlit : star ∉ lit := by
      intro hmem
      exact h (List.mem_cons_of_mem b hmem)
    rw [List.cons_append, matches_cons hb]
    constructor
    · rintro ⟨rest, rfl, hrest⟩
      obtain ⟨rest', rfl, hrest'⟩ := (ih hlit).mp hrest
      exact ⟨rest', by simp, hrest'⟩
    · rintro ⟨rest, rfl, hrest⟩
      exact ⟨lit ++ rest, by simp, (ih hlit).mpr ⟨rest, rfl, hrest⟩⟩

theorem matches_empty : Matches star p [] ↔ ∀ b ∈ p, b = star := by
  induction p with
  | nil => simp [Matches]
  | cons b p ih =>
    by_cases hb : b = star
    · subst hb
      rw [matches_star]
      constructor
      · rintro ⟨run, rest, heq, hrest⟩
        obtain ⟨_, rfl⟩ := List.append_eq_nil_iff.mp heq.symm
        simpa using ih.mp hrest
      · intro hall
        refine ⟨[], [], rfl, ih.mpr ?_⟩
        intro c hc
        exact hall c (List.mem_cons_of_mem b hc)
    · rw [matches_cons hb]
      simp [hb]

theorem matches_star_append (h : Matches star (star :: p) t) (run : List α) :
    Matches star (star :: p) (run ++ t) := by
  obtain ⟨run', rest, rfl, hrest⟩ := matches_star.mp h
  rw [matches_star]
  exact ⟨run ++ run', rest, by simp, hrest⟩

/-- A star stands for nothing, or takes in one more symbol. -/
theorem matches_star_cons :
    Matches star (star :: p) (a :: t) ↔ Matches star p (a :: t) ∨ Matches star (star :: p) t := by
  constructor
  · intro h
    obtain ⟨run, rest, heq, hrest⟩ := matches_star.mp h
    cases run with
    | nil =>
      left
      rw [heq]
      exact hrest
    | cons b run =>
      right
      rw [List.cons_append, List.cons.injEq] at heq
      rw [matches_star]
      exact ⟨run, rest, heq.2, hrest⟩
  · rintro (h | h)
    · rw [matches_star]
      exact ⟨[], a :: t, rfl, h⟩
    · exact matches_star_append h [a]

theorem matches_dropped (p : List α) : Matches star p (p.filter (· ≠ star)) := by
  induction p with
  | nil => simp [Matches]
  | cons b p ih =>
    by_cases hb : b = star
    · subst hb
      rw [matches_star]
      exact ⟨[], _, by simp, ih⟩
    · rw [matches_cons hb]
      exact ⟨_, by simp [hb], ih⟩

/-- The text cut into pieces, one for each symbol of the pattern. -/
theorem matches_iff_pieces : Matches star p t ↔ ∃ pieces, t = pieces.flatten ∧
    List.Forall₂ (fun a piece => a = star ∨ piece = [a]) p pieces := by
  induction p generalizing t with
  | nil => simp [Matches]
  | cons b p ih =>
    by_cases hb : b = star
    · subst hb
      rw [matches_star]
      constructor
      · rintro ⟨run, rest, rfl, hrest⟩
        obtain ⟨pieces, rfl, hpieces⟩ := ih.mp hrest
        exact ⟨run :: pieces, by simp, .cons (.inl rfl) hpieces⟩
      · rintro ⟨pieces, rfl, hpieces⟩
        obtain ⟨run, rest, -, hrest, rfl⟩ := List.forall₂_cons_left_iff.mp hpieces
        exact ⟨run, rest.flatten, by simp, ih.mpr ⟨rest, rfl, hrest⟩⟩
    · rw [matches_cons hb]
      constructor
      · rintro ⟨rest, rfl, hrest⟩
        obtain ⟨pieces, rfl, hpieces⟩ := ih.mp hrest
        exact ⟨[b] :: pieces, by simp, .cons (.inr rfl) hpieces⟩
      · rintro ⟨pieces, rfl, hpieces⟩
        obtain ⟨run, rest, hrun, hrest, rfl⟩ := List.forall₂_cons_left_iff.mp hpieces
        rw [hrun.resolve_left hb]
        exact ⟨rest.flatten, by simp, ih.mpr ⟨rest, rfl, hrest⟩⟩

/-! ## Codes -/

/-- A code whose words begin where a leading symbol stands, and are told apart by how they
begin. -/
structure Synchronised (enc : α → List β) (lead : β → Prop) : Prop where
  lead_iff : ∀ a i b, (enc a)[i]? = some b → (lead b ↔ i = 0)
  nonempty : ∀ a, enc a ≠ []
  apart : ∀ a b x y, enc a ++ x = enc b ++ y → a = b

section

variable {enc : α → List β} {lead : β → Prop}

omit [DecidableEq α] [DecidableEq β] in
theorem split_at_lead (h : Synchronised enc lead) {run rest : List β} {b : β} (hb : lead b)
    (heq : t.flatMap enc = run ++ b :: rest) :
    ∃ before after, t = before ++ after ∧ run = before.flatMap enc ∧
      b :: rest = after.flatMap enc := by
  induction t generalizing run with
  | nil => simp at heq
  | cons a t ih =>
    have hmore : ∀ w, run = enc a ++ w → t.flatMap enc = w ++ b :: rest →
        ∃ before after, a :: t = before ++ after ∧ run = before.flatMap enc ∧
          b :: rest = after.flatMap enc := by
      intro w hrun hw
      obtain ⟨before, after, rfl, hbefore, hafter⟩ := ih hw
      exact ⟨a :: before, after, by simp, by simp [hrun, hbefore], hafter⟩
    rw [List.flatMap_cons] at heq
    rcases List.append_eq_append_iff.mp heq with ⟨w, hrun, hw⟩ | ⟨w, ha, hw⟩
    · exact hmore w hrun hw
    · cases w with
      | nil => exact hmore [] (by simpa using ha.symm) (by simpa using hw.symm)
      | cons c w =>
        -- the leading symbol is inside the word, so it begins it
        rw [List.cons_append, List.cons.injEq] at hw
        have hget : (enc a)[run.length]? = some b := by
          rw [ha, hw.1]
          simp
        have hnil : run = [] := List.length_eq_zero_iff.mp ((h.lead_iff a _ b hget).mp hb)
        subst hnil
        refine ⟨[], a :: t, by simp, by simp, ?_⟩
        rw [List.flatMap_cons]
        simpa using heq.symm

omit [DecidableEq α] [DecidableEq β] in
theorem star_not_mem (h : Synchronised enc lead) {mark : β} (hstar : enc star = [mark])
    (hmark : lead mark) (ha : a ≠ star) : mark ∉ enc a := by
  intro hmem
  obtain ⟨i, hi⟩ := List.mem_iff_getElem?.mp hmem
  have hfirst := (h.lead_iff a i mark hi).mp hmark
  subst hfirst
  cases hword : enc a with
  | nil => exact h.nonempty a hword
  | cons c w =>
    rw [hword, List.getElem?_cons_zero, Option.some.injEq] at hi
    subst hi
    apply ha
    apply h.apart a star [] w
    rw [hword, hstar]
    simp

theorem matches_encoded (h : Synchronised enc lead) {mark : β} (hstar : enc star = [mark])
    (hmark : lead mark) (p t : List α) :
    Matches mark (p.flatMap enc) (t.flatMap enc) ↔ Matches star p t := by
  induction p generalizing t with
  | nil =>
    simp only [List.flatMap_nil, matches_nil, List.flatMap_eq_nil_iff]
    constructor
    · intro hall
      cases t with
      | nil => rfl
      | cons a t => exact absurd (hall a (by simp)) (h.nonempty a)
    · rintro rfl
      simp
  | cons a p ih =>
    by_cases ha : a = star
    · subst ha
      rw [List.flatMap_cons, hstar, List.singleton_append, matches_star, matches_star]
      constructor
      · rintro ⟨run, rest, heq, hrest⟩
        cases p with
        | nil => exact ⟨t, [], by simp, rfl⟩
        | cons b q =>
          by_cases hb : b = a
          · -- the run may end inside a word, where the next star begins
            subst hb
            refine ⟨[], t, rfl, (ih t).mp ?_⟩
            rw [List.flatMap_cons, hstar, List.singleton_append] at hrest ⊢
            rw [heq]
            exact matches_star_append hrest run
          · rw [List.flatMap_cons, matches_literal (star_not_mem h hstar hmark hb)] at hrest
            obtain ⟨rest', rfl, hrest'⟩ := hrest
            cases hword : enc b with
            | nil => exact absurd hword (h.nonempty b)
            | cons c w =>
              have hc : lead c := (h.lead_iff b 0 c (by simp [hword])).mpr rfl
              rw [hword, List.cons_append] at heq
              obtain ⟨before, after, rfl, _, hafter⟩ := split_at_lead h hc heq
              refine ⟨before, after, rfl, (ih after).mp ?_⟩
              rw [← hafter, List.flatMap_cons, matches_literal (star_not_mem h hstar hmark hb)]
              exact ⟨rest', by rw [hword, List.cons_append], hrest'⟩
      · rintro ⟨run, rest, rfl, hrest⟩
        exact ⟨run.flatMap enc, rest.flatMap enc, by simp, (ih rest).mpr hrest⟩
    · rw [List.flatMap_cons, matches_literal (star_not_mem h hstar hmark ha), matches_cons ha]
      constructor
      · rintro ⟨rest, heq, hrest⟩
        cases t with
        | nil => simp [h.nonempty a] at heq
        | cons d t =>
          rw [List.flatMap_cons] at heq
          have hd := h.apart d a _ _ heq
          subst hd
          have htail := List.append_cancel_left heq
          refine ⟨t, rfl, (ih t).mp ?_⟩
          rw [htail]
          exact hrest
      · rintro ⟨rest, rfl, hrest⟩
        exact ⟨rest.flatMap enc, by simp, (ih rest).mpr hrest⟩

end

/-! ## UTF-8 -/

theorem utf8_synchronised : Synchronised String.utf8EncodeChar UInt8.IsUTF8FirstByte := by
  refine ⟨?_, ?_, ?_⟩
  · intro a i b hget
    obtain ⟨hi, rfl⟩ := List.getElem?_eq_some_iff.mp hget
    exact UInt8.isUTF8FirstByte_getElem_utf8EncodeChar
  · intro a
    exact String.utf8EncodeChar_ne_nil
  · intro a b x y heq
    have ha := ByteArray.utf8DecodeChar?_utf8EncodeChar_append (b := x.toByteArray) (c := a)
    have hb := ByteArray.utf8DecodeChar?_utf8EncodeChar_append (b := y.toByteArray) (c := b)
    rw [← List.toByteArray_append, heq, List.toByteArray_append, hb] at ha
    exact (Option.some.inj ha).symm

theorem bytes_eq_flatMap (s : String) :
    s.toByteArray.data.toList = s.toList.flatMap String.utf8EncodeChar := by
  rw [← String.utf8Encode_toList, List.utf8Encode]
  simp

end Glob
