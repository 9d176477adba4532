-- Joins by a comparison. The earlier of two values, and the union of two sorted
-- lists cut to a bound: both are commutative, associative and idempotent as far as
-- the comparison tells values apart.
import Mathlib.Order.Basic
import Mathlib.Data.List.Basic

namespace SortedJoin

open Std

variable {α : Type} {cmp : α → α → Ordering}

/-! ## Orders by parts -/

variable {β : Type} {a b : α}

theorem compareOn_same [Ord β] [ReflOrd β] {f : α → β} (h : f a = f b) : compareOn f a b = .eq := by
  unfold compareOn
  rw [h]
  exact ReflCmp.compare_self

/-- An order through a function. -/
theorem transCmp_on [TransCmp cmp] (f : β → α) :
    TransCmp fun a b => cmp (f a) (f b) where
  eq_swap := OrientedCmp.eq_swap
  isLE_trans := TransCmp.isLE_trans

/-- What the order of `a` and `b` and the order of `b` and `c` leave for `a` and `c`. A
recursive order is transitive part by part. -/
def Composes (ab bc ac : Ordering) : Prop :=
  (ab = .lt → bc.isLE → ac = .lt) ∧ (ab.isLE → bc = .lt → ac = .lt) ∧
    (ab.isLE → bc.isLE → ac.isLE)

theorem composes_of_trans [TransCmp cmp] (a b c : α) :
    Composes (cmp a b) (cmp b c) (cmp a c) :=
  ⟨TransCmp.lt_of_lt_of_isLE, TransCmp.lt_of_isLE_of_lt, TransCmp.isLE_trans⟩

theorem composes_then {o p q o' p' q' : Ordering} (h : Composes o p q) (h' : Composes o' p' q') :
    Composes (o.then o') (p.then p') (q.then q') := by
  unfold Composes at *
  cases o <;> cases p <;> cases q <;> simp_all

/-! ## The earlier of two values -/

/-- The earlier value, or the first of two that compare equal. -/
def least (cmp : α → α → Ordering) (a b : α) : α := if cmp a b = .gt then b else a

theorem least_cases (a b : α) : least cmp a b = a ∨ least cmp a b = b := by
  unfold least
  split
  · exact .inr rfl
  · exact .inl rfl

theorem least_self (a : α) : least cmp a a = a := by
  unfold least
  split <;> rfl

theorem least_comm [OrientedCmp cmp] (h : cmp a b = .eq → a = b) :
    least cmp a b = least cmp b a := by
  unfold least
  rcases hc : cmp a b with _ | _ | _
  · rw [OrientedCmp.gt_of_lt hc]
    rfl
  · rw [h hc]
    simp
  · rw [OrientedCmp.lt_of_gt hc]
    rfl

theorem isLE_of_ne_gt {o : Ordering} (h : o ≠ .gt) : o.isLE = true := by
  cases o <;> simp_all

/-- The first of the earliest values, however they are grouped. -/
theorem least_assoc [TransCmp cmp] (a b c : α) :
    least cmp (least cmp a b) c = least cmp a (least cmp b c) := by
  unfold least
  by_cases hab : cmp a b = .gt
  · by_cases hbc : cmp b c = .gt
    · have hac : cmp a c = .gt := TransCmp.gt_trans hab hbc
      simp [hab, hbc, hac]
    · simp [hab, hbc]
  · by_cases hbc : cmp b c = .gt
    · simp [hab, hbc]
    · have hac : cmp a c ≠ .gt := by
        have hle := TransCmp.isLE_trans (isLE_of_ne_gt hab) (isLE_of_ne_gt hbc)
        intro h
        rw [h] at hle
        cases hle
      simp [hab, hbc, hac]

/-- The later value is the earlier one of the opposite comparison. -/
theorem greatest_eq_least [OrientedCmp cmp] (a b : α) :
    (if cmp a b = .lt then b else a) = least (fun x y => cmp y x) a b := by
  unfold least
  by_cases h : cmp a b = .lt
  · rw [if_pos h, if_pos (OrientedCmp.gt_of_lt h)]
  · rw [if_neg h, if_neg (fun hg => h (OrientedCmp.lt_of_gt hg))]

/-! ## The higher rank wins -/

/-- The value of the higher rank, or what `same` makes of two of one rank. -/
def layered (rank : α → Nat) (same : α → α → α) (a b : α) : α :=
  if rank a < rank b then b else if rank b < rank a then a else same a b

section layered

variable {rank : α → Nat} {same : α → α → α}

theorem layered_right {a b : α} (h : rank a < rank b) : layered rank same a b = b := by
  rw [layered, if_pos h]

theorem layered_left {a b : α} (h : rank b < rank a) : layered rank same a b = a := by
  rw [layered, if_neg (by omega), if_pos h]

theorem layered_same {a b : α} (h : rank a = rank b) : layered rank same a b = same a b := by
  rw [layered, if_neg (by omega), if_neg (by omega)]

theorem layered_comm {a b : α} (h : rank a = rank b → same a b = same b a) :
    layered rank same a b = layered rank same b a := by
  rcases Nat.lt_trichotomy (rank a) (rank b) with hlt | heq | hgt
  · rw [layered_right hlt, layered_left hlt]
  · rw [layered_same heq, layered_same heq.symm, h heq]
  · rw [layered_left hgt, layered_right hgt]

theorem layered_assoc (hrank : ∀ a b, rank a = rank b → rank (same a b) = rank a) {a b c : α}
    (h : rank a = rank b → rank b = rank c → same (same a b) c = same a (same b c)) :
    layered rank same (layered rank same a b) c = layered rank same a (layered rank same b c) := by
  rcases Nat.lt_trichotomy (rank a) (rank b) with hab | hab | hab
  · rw [layered_right hab]
    rcases Nat.lt_trichotomy (rank b) (rank c) with hbc | hbc | hbc
    · rw [layered_right hbc, layered_right (Nat.lt_trans hab hbc)]
    · rw [layered_same hbc, layered_right (by rw [hrank b c hbc]; exact hab)]
    · rw [layered_left hbc, layered_right hab]
  · rw [layered_same hab]
    have hkeep := hrank a b hab
    rcases Nat.lt_trichotomy (rank b) (rank c) with hbc | hbc | hbc
    · rw [layered_right (by omega), layered_right hbc, layered_right (by omega)]
    · rw [layered_same (by omega), layered_same hbc, layered_same (by rw [hrank b c hbc]; exact hab),
        h hab hbc]
    · rw [layered_left (by omega), layered_left hbc, layered_same hab]
  · rw [layered_left hab]
    rcases Nat.lt_trichotomy (rank b) (rank c) with hbc | hbc | hbc
    · rw [layered_right hbc]
    · rw [layered_same hbc, layered_left (by omega),
        layered_left (by rw [hrank b c hbc]; exact hab)]
    · rw [layered_left hbc, layered_left (Nat.lt_trans hbc hab), layered_left hab]

end layered

/-! ## Sorted lists -/

def Sorted (cmp : α → α → Ordering) (l : List α) : Prop := l.Pairwise (fun a b => cmp a b = .lt)

/-- The element of the list that compares equal. -/
def get (cmp : α → α → Ordering) (l : List α) (x : α) : Option α :=
  l.find? (fun y => cmp y x == .eq)

theorem get_cons (a : α) (l : List α) (x : α) :
    get cmp (a :: l) x = if cmp a x = .eq then some a else get cmp l x := by
  unfold get
  rw [List.find?_cons]
  cases cmp a x <;> simp

theorem get_self [ReflCmp cmp] (a : α) (l : List α) : get cmp (a :: l) a = some a := by
  rw [get_cons, if_pos ReflCmp.compare_self]

variable {l : List α} {x : α}

theorem get_eq_none (h : ∀ y ∈ l, cmp y x ≠ .eq) : get cmp l x = none := by
  unfold get
  rw [List.find?_eq_none]
  intro y hy he
  exact h y hy (by simpa using he)

/-- Nothing behind the head of a sorted list compares equal to it, or earlier. -/
theorem get_tail [TransCmp cmp] (h : Sorted cmp (a :: l)) (hx : (cmp x a).isLE = true) :
    get cmp l x = none := by
  apply get_eq_none
  intro y hy he
  have hay : cmp a y = .lt := List.rel_of_pairwise_cons h hy
  have hxy : cmp x y = .lt := TransCmp.lt_of_isLE_of_lt hx hay
  rw [OrientedCmp.eq_symm he] at hxy
  cases hxy

theorem get_mem {y : α} (h : get cmp l x = some y) : y ∈ l ∧ cmp y x = .eq := by
  unfold get at h
  refine ⟨List.mem_of_find?_eq_some h, ?_⟩
  simpa using List.find?_some h

theorem Sorted.tail (h : Sorted cmp (a :: l)) : Sorted cmp l :=
  h.of_cons

variable {m : List α}

theorem sorted_ext [TransCmp cmp] (hl : Sorted cmp l) (hm : Sorted cmp m)
    (h : ∀ x, get cmp l x = get cmp m x) : l = m := by
  induction l generalizing m with
  | nil =>
    cases m with
    | nil => rfl
    | cons b m =>
      have hb := h b
      rw [get_self] at hb
      cases hb
  | cons a l ih =>
    cases m with
    | nil =>
      have ha := h a
      rw [get_self] at ha
      cases ha
    | cons b m =>
      have ha := h a
      have hb := h b
      rw [get_self] at ha
      rw [get_self b m] at hb
      -- each head is in the other list, so neither is earlier
      have hab : a = b := by
        rcases hc : cmp b a with _ | _ | _
        · rw [get_cons, if_neg (by rw [OrientedCmp.gt_of_lt hc]; decide),
            get_tail hl (by rw [hc]; rfl)] at hb
          cases hb
        · rw [get_cons, if_pos hc] at ha
          exact Option.some.inj ha
        · have hlt := OrientedCmp.lt_of_gt hc
          rw [get_cons, if_neg (by rw [hc]; decide), get_tail hm (by rw [hlt]; rfl)] at ha
          cases ha
      subst hab
      congr 1
      apply ih hl.tail hm.tail
      intro x
      have hx := h x
      rw [get_cons, get_cons] at hx
      by_cases hc : cmp a x = .eq
      · have hle : (cmp x a).isLE = true := by
          rw [OrientedCmp.eq_symm hc]
          rfl
        rw [get_tail hl hle, get_tail hm hle]
      · rw [if_neg hc, if_neg hc] at hx
        exact hx

/-! ## The union of two sorted lists -/

/-- The union in order. Of two elements that compare equal, what `pick` makes of them. -/
def union (cmp : α → α → Ordering) (pick : α → α → α) : List α → List α → List α
  | [], m => m
  | a :: l, [] => a :: l
  | a :: l, b :: m =>
    match cmp a b with
    | .lt => a :: union cmp pick l (b :: m)
    | .gt => b :: union cmp pick (a :: l) m
    | .eq => pick a b :: union cmp pick l m
termination_by l m => l.length + m.length

/-- The union of two values that may be missing. -/
def either (pick : α → α → α) : Option α → Option α → Option α
  | some a, some b => some (pick a b)
  | some a, none => some a
  | none, o => o

variable {pick : α → α → α}

@[simp] theorem either_none (o : Option α) : either pick o none = o := by
  cases o <;> rfl

@[simp] theorem none_either (o : Option α) : either pick none o = o := rfl

theorem union_nil (l : List α) : union cmp pick l [] = l := by
  cases l <;> rw [union]

/-- What `pick` gives stands where its arguments stood. -/
def Keeps (cmp : α → α → Ordering) (pick : α → α → α) : Prop :=
  ∀ a b, cmp a b = .eq → cmp (pick a b) a = .eq

variable {P : α → Prop}

theorem mem_union (hl : ∀ a ∈ l, P a) (hm : ∀ b ∈ m, P b)
    (hpick : ∀ a ∈ l, ∀ b ∈ m, cmp a b = .eq → P (pick a b)) : ∀ x ∈ union cmp pick l m, P x := by
  induction l, m using union.induct cmp with
  | case1 m =>
    rw [union]
    exact hm
  | case2 a l =>
    rw [union]
    exact hl
  | case3 a l b m hab ih =>
    rw [union, hab]
    intro x hx
    rcases List.mem_cons.mp hx with rfl | hx
    · exact hl x (by simp)
    · exact ih (fun z hz => hl z (List.mem_cons_of_mem _ hz)) hm
        (fun z hz => hpick z (List.mem_cons_of_mem _ hz)) x hx
  | case4 a l b m hab ih =>
    rw [union, hab]
    intro x hx
    rcases List.mem_cons.mp hx with rfl | hx
    · exact hm x (by simp)
    · exact ih hl (fun z hz => hm z (List.mem_cons_of_mem _ hz))
        (fun z hz w hw => hpick z hz w (List.mem_cons_of_mem _ hw)) x hx
  | case5 a l b m hab ih =>
    rw [union, hab]
    intro x hx
    rcases List.mem_cons.mp hx with rfl | hx
    · exact hpick a (by simp) b (by simp) hab
    · exact ih (fun z hz => hl z (List.mem_cons_of_mem _ hz))
        (fun z hz => hm z (List.mem_cons_of_mem _ hz))
        (fun z hz w hw => hpick z (List.mem_cons_of_mem _ hz) w (List.mem_cons_of_mem _ hw)) x hx

theorem union_lt [TransCmp cmp] (hp : Keeps cmp pick) (hl : ∀ y ∈ l, cmp x y = .lt)
    (hm : ∀ y ∈ m, cmp x y = .lt) : ∀ y ∈ union cmp pick l m, cmp x y = .lt := by
  apply mem_union hl hm
  intro a ha b _ hab
  exact TransCmp.lt_of_lt_of_eq (hl a ha) (OrientedCmp.eq_symm (hp a b hab))

theorem sorted_union [TransCmp cmp] (hp : Keeps cmp pick) (hl : Sorted cmp l) (hm : Sorted cmp m) :
    Sorted cmp (union cmp pick l m) := by
  induction l, m using union.induct cmp with
  | case1 m =>
    rw [union]
    exact hm
  | case2 a l =>
    rw [union]
    exact hl
  | case3 a l b m hab ih =>
    rw [union, hab]
    refine List.pairwise_cons.mpr ⟨?_, ih hl.tail hm⟩
    apply union_lt hp (List.pairwise_cons.mp hl).1
    intro y hy
    rcases List.mem_cons.mp hy with rfl | hy
    · exact hab
    · exact TransCmp.lt_trans hab ((List.pairwise_cons.mp hm).1 y hy)
  | case4 a l b m hab ih =>
    rw [union, hab]
    refine List.pairwise_cons.mpr ⟨?_, ih hl hm.tail⟩
    have hba := OrientedCmp.lt_of_gt hab
    refine union_lt hp ?_ (List.pairwise_cons.mp hm).1
    intro y hy
    rcases List.mem_cons.mp hy with rfl | hy
    · exact hba
    · exact TransCmp.lt_trans hba ((List.pairwise_cons.mp hl).1 y hy)
  | case5 a l b m hab ih =>
    rw [union, hab]
    have hpick := hp a b hab
    refine List.pairwise_cons.mpr ⟨?_, ih hl.tail hm.tail⟩
    apply union_lt hp
    · intro y hy
      exact TransCmp.lt_of_eq_of_lt hpick ((List.pairwise_cons.mp hl).1 y hy)
    · intro y hy
      exact TransCmp.lt_of_eq_of_lt (TransCmp.eq_trans hpick hab)
        ((List.pairwise_cons.mp hm).1 y hy)

theorem get_union [TransCmp cmp] (hp : Keeps cmp pick) (hl : Sorted cmp l) (hm : Sorted cmp m)
    (x : α) : get cmp (union cmp pick l m) x = either pick (get cmp l x) (get cmp m x) := by
  induction l, m using union.induct cmp with
  | case1 m =>
    rw [union]
    rfl
  | case2 a l =>
    rw [union]
    rcases get cmp (a :: l) x with _ | y <;> rfl
  | case3 a l b m hab ih =>
    rw [union, hab, get_cons, get_cons a l, ih hl.tail hm]
    by_cases hx : cmp a x = .eq
    · -- `x` is earlier than all of the second list
      have hxb : cmp x b = .lt := TransCmp.lt_of_eq_of_lt (OrientedCmp.eq_symm hx) hab
      have hne : cmp b x ≠ .eq := by
        rw [OrientedCmp.gt_of_lt hxb]
        decide
      rw [if_pos hx, if_pos hx, get_cons, if_neg hne, get_tail hm (by rw [hxb]; rfl)]
      rfl
    · rw [if_neg hx, if_neg hx]
  | case4 a l b m hab ih =>
    rw [union, hab, get_cons, get_cons b m, ih hl hm.tail]
    by_cases hx : cmp b x = .eq
    · have hba := OrientedCmp.lt_of_gt hab
      have hxa : cmp x a = .lt := TransCmp.lt_of_eq_of_lt (OrientedCmp.eq_symm hx) hba
      have hne : cmp a x ≠ .eq := by
        rw [OrientedCmp.gt_of_lt hxa]
        decide
      rw [if_pos hx, if_pos hx, get_cons, if_neg hne, get_tail hl (by rw [hxa]; rfl)]
      rfl
    · rw [if_neg hx, if_neg hx]
  | case5 a l b m hab ih =>
    rw [union, hab, get_cons, get_cons a l, get_cons b m, ih hl.tail hm.tail]
    have hpick := hp a b hab
    by_cases hx : cmp a x = .eq
    · rw [if_pos hx, if_pos (TransCmp.eq_trans hpick hx),
        if_pos (TransCmp.eq_trans (OrientedCmp.eq_symm hab) hx)]
      rfl
    · have hbx : cmp b x ≠ .eq := fun h => hx (TransCmp.eq_trans hab h)
      have hpx : cmp (pick a b) x ≠ .eq := fun h =>
        hx (TransCmp.eq_trans (OrientedCmp.eq_symm hpick) h)
      rw [if_neg hx, if_neg hpx, if_neg hbx]

/-! ## The laws of the union -/

section laws

variable [TransCmp cmp] (hp : Keeps cmp pick)

include hp

theorem union_self {l : List α} (hl : Sorted cmp l) (hpick : ∀ a ∈ l, pick a a = a) :
    union cmp pick l l = l := by
  apply sorted_ext (sorted_union hp hl hl) hl
  intro x
  rw [get_union hp hl hl]
  rcases hx : get cmp l x with _ | a
  · rfl
  · simp only [either, hpick a (get_mem hx).1]

theorem union_comm {l m : List α} (hl : Sorted cmp l) (hm : Sorted cmp m)
    (hpick : ∀ a ∈ l, ∀ b ∈ m, cmp a b = .eq → pick a b = pick b a) :
    union cmp pick l m = union cmp pick m l := by
  apply sorted_ext (sorted_union hp hl hm) (sorted_union hp hm hl)
  intro x
  rw [get_union hp hl hm, get_union hp hm hl]
  rcases hx : get cmp l x with _ | a <;> rcases hy : get cmp m x with _ | b
  · rfl
  · rfl
  · rfl
  · obtain ⟨ha, hax⟩ := get_mem hx
    obtain ⟨hb, hbx⟩ := get_mem hy
    simp only [either, hpick a ha b hb (TransCmp.eq_trans hax (OrientedCmp.eq_symm hbx))]

theorem union_assoc {l m n : List α} (hl : Sorted cmp l) (hm : Sorted cmp m)
    (hn : Sorted cmp n) (hpick : ∀ a b c, pick (pick a b) c = pick a (pick b c)) :
    union cmp pick (union cmp pick l m) n = union cmp pick l (union cmp pick m n) := by
  have hlm := sorted_union hp hl hm
  have hmn := sorted_union hp hm hn
  apply sorted_ext (sorted_union hp hlm hn) (sorted_union hp hl hmn)
  intro x
  rw [get_union hp hlm hn, get_union hp hl hm, get_union hp hl hmn, get_union hp hm hn]
  rcases get cmp l x with _ | a <;> rcases get cmp m x with _ | b <;>
    rcases get cmp n x with _ | c <;> simp [either, hpick]

theorem union_absorb {l m : List α} (hl : Sorted cmp l) (hm : Sorted cmp m)
    (hself : ∀ a ∈ l, pick a a = a) (hpick : ∀ a b c, pick (pick a b) c = pick a (pick b c)) :
    union cmp pick l (union cmp pick l m) = union cmp pick l m := by
  rw [← union_assoc hp hl hl hm hpick, union_self hp hl hself]

end laws

/-! ## One element at a time -/

/-- Where the element stands in a sorted list (`ok`), or where it belongs (`error`). -/
def search (cmp : α → α → Ordering) (l : List α) (x : α) : Except Nat Nat :=
  let at_ := (l.takeWhile (fun y => cmp y x == .lt)).length
  match l[at_]? with
  | some y => if cmp y x = .eq then .ok at_ else .error at_
  | none => .error at_

/-- Puts one element in its place. -/
def place (cmp : α → α → Ordering) (pick : α → α → α) (l : List α) (x : α) : List α :=
  match search cmp l x with
  | .ok at_ => l.modify at_ (fun y => pick y x)
  | .error at_ => l.insertIdx at_ x

theorem search_cons (a : α) (l : List α) (x : α) :
    search cmp (a :: l) x = match cmp a x with
      | .lt => (match search cmp l x with
        | .ok at_ => .ok (at_ + 1)
        | .error at_ => .error (at_ + 1))
      | .eq => .ok 0
      | .gt => .error 0 := by
  unfold search
  rw [List.takeWhile_cons]
  cases h : cmp a x with
  | lt =>
    simp only [beq_self_eq_true, if_true, List.length_cons, List.getElem?_cons_succ]
    rcases l[(l.takeWhile fun y => cmp y x == .lt).length]? with _ | y
    · rfl
    · dsimp only
      split <;> rfl
  | eq => simp [h]
  | gt => simp [h]

theorem place_eq_union (l : List α) (x : α) : place cmp pick l x = union cmp pick l [x] := by
  unfold place
  induction l with
  | nil =>
    rw [union]
    rfl
  | cons a l ih =>
    rw [search_cons, union]
    cases cmp a x with
    | lt =>
      dsimp only
      rw [← ih]
      rcases search cmp l x with at_ | at_ <;> rfl
    | eq =>
      dsimp only
      rw [union_nil]
      rfl
    | gt =>
      dsimp only
      rw [union_nil]
      rfl

variable {at_ : Nat}

/-- An element is found when it is there. -/
theorem search_ok (h : search cmp l x = .ok at_) : ∃ y, l[at_]? = some y ∧ cmp y x = .eq := by
  unfold search at h
  dsimp only at h
  split at h
  · rename_i y hy
    split at h
    · rename_i he
      cases h
      exact ⟨y, hy, he⟩
    · cases h
  · cases h

theorem search_error [TransCmp cmp] (hl : Sorted cmp l) (h : search cmp l x = .error at_) :
    get cmp l x = none := by
  induction l generalizing at_ with
  | nil => rfl
  | cons a l ih =>
    rw [search_cons] at h
    rw [get_cons]
    cases hc : cmp a x with
    | lt =>
      rw [hc] at h
      rw [if_neg (by decide)]
      rcases hs : search cmp l x with at' | at'
      · exact ih hl.tail hs
      · rw [hs] at h
        cases h
    | eq =>
      rw [hc] at h
      cases h
    | gt =>
      rw [if_neg (by decide)]
      exact get_tail hl (by rw [OrientedCmp.lt_of_gt hc]; rfl)

theorem length_insertIdx_search (h : search cmp l x = .error at_) :
    (l.insertIdx at_ x).length = l.length + 1 := by
  have hle : at_ ≤ l.length := by
    have hwhile := (List.takeWhile_prefix (l := l) fun y => cmp y x == .lt).length_le
    unfold search at h
    dsimp only at h
    split at h
    · split at h
      · cases h
      · cases h
        exact hwhile
    · cases h
      exact hwhile
  rw [List.length_insertIdx_of_le_length hle]

/-- One list put into another is their union. -/
theorem foldl_place [TransCmp cmp] (hp : Keeps cmp pick) (hl : Sorted cmp l) (hm : Sorted cmp m)
    (hpick : ∀ a b c, pick (pick a b) c = pick a (pick b c)) :
    m.foldl (place cmp pick) l = union cmp pick l m := by
  induction m generalizing l with
  | nil => rw [List.foldl_nil, union_nil]
  | cons x m ih =>
    have hx : Sorted cmp [x] := List.pairwise_singleton _ _
    have hone : union cmp pick [x] m = x :: m := by
      cases m with
      | nil => rw [union_nil]
      | cons y m =>
        have hxy : cmp x y = .lt := List.rel_of_pairwise_cons hm (by simp)
        rw [union, hxy]
        dsimp only
        rw [union]
    rw [List.foldl_cons, place_eq_union, ih (sorted_union hp hl hx) hm.tail,
      union_assoc hp hl hx hm.tail hpick, hone]

/-! ## Up to a bound -/

/-- The union up to a bound, one element at a time. -/
def unionUpTo (cmp : α → α → Ordering) (pick : α → α → α) : Nat → List α → List α → List α
  | 0, _, _ => []
  | _ + 1, [], [] => []
  | room + 1, a :: l, [] => a :: unionUpTo cmp pick room l []
  | room + 1, [], b :: m => b :: unionUpTo cmp pick room [] m
  | room + 1, a :: l, b :: m =>
    match cmp a b with
    | .lt => a :: unionUpTo cmp pick room l (b :: m)
    | .gt => b :: unionUpTo cmp pick room (a :: l) m
    | .eq => pick a b :: unionUpTo cmp pick room l m

theorem unionUpTo_eq (room : Nat) (l m : List α) :
    unionUpTo cmp pick room l m = (union cmp pick l m).take room := by
  induction room generalizing l m with
  | zero => rw [unionUpTo, List.take_zero]
  | succ room ih =>
    rcases l with _ | ⟨a, l⟩ <;> rcases m with _ | ⟨b, m⟩
    · rw [unionUpTo, union, List.take_nil]
    · rw [unionUpTo, ih, union, union, List.take_succ_cons]
    · rw [unionUpTo, ih, union_nil, union_nil, List.take_succ_cons]
    · rw [unionUpTo, union]
      rcases cmp a b with _ | _ | _ <;> simp only [ih, List.take_succ_cons]

variable {room r : Nat}

theorem take_union_left (h : room ≤ r) (l m : List α) :
    (union cmp pick (l.take r) m).take room = (union cmp pick l m).take room := by
  induction room generalizing r l m with
  | zero => rw [List.take_zero, List.take_zero]
  | succ room ih =>
    obtain ⟨r, rfl⟩ : ∃ k, r = k + 1 := ⟨r - 1, by omega⟩
    rcases l with _ | ⟨a, l⟩
    · rfl
    · rcases m with _ | ⟨b, m⟩
      · rw [union_nil, union_nil, List.take_take, Nat.min_eq_left h]
      · rw [List.take_succ_cons, union, union]
        rcases cmp a b with _ | _ | _
        · simp only [List.take_succ_cons]
          rw [ih (by omega)]
        · simp only [List.take_succ_cons]
          rw [ih (by omega)]
        · have hrest := ih (r := r + 1) (by omega) (a :: l) m
          rw [List.take_succ_cons] at hrest
          simp only [List.take_succ_cons, hrest]

theorem take_union_right [TransCmp cmp] (h : room ≤ r) (l m : List α) :
    (union cmp pick l (m.take r)).take room = (union cmp pick l m).take room := by
  induction room generalizing r l m with
  | zero => rw [List.take_zero, List.take_zero]
  | succ room ih =>
    obtain ⟨r, rfl⟩ : ∃ k, r = k + 1 := ⟨r - 1, by omega⟩
    rcases m with _ | ⟨b, m⟩
    · rfl
    · rcases l with _ | ⟨a, l⟩
      · rw [union, union, List.take_take, Nat.min_eq_left h]
      · rw [List.take_succ_cons, union, union]
        rcases cmp a b with _ | _ | _
        · have hrest := ih (r := r + 1) (by omega) l (b :: m)
          rw [List.take_succ_cons] at hrest
          simp only [List.take_succ_cons, hrest]
        · simp only [List.take_succ_cons]
          rw [ih (by omega)]
        · simp only [List.take_succ_cons]
          rw [ih (by omega)]

theorem unionUpTo_assoc [TransCmp cmp] (hp : Keeps cmp pick) (room : Nat) {n : List α}
    (hl : Sorted cmp l) (hm : Sorted cmp m) (hn : Sorted cmp n)
    (hpick : ∀ a b c, pick (pick a b) c = pick a (pick b c)) :
    unionUpTo cmp pick room (unionUpTo cmp pick room l m) n =
      unionUpTo cmp pick room l (unionUpTo cmp pick room m n) := by
  simp only [unionUpTo_eq]
  rw [take_union_left (Nat.le_refl room), take_union_right (Nat.le_refl room),
    union_assoc hp hl hm hn hpick]

theorem unionUpTo_comm [TransCmp cmp] (hp : Keeps cmp pick) (room : Nat) (hl : Sorted cmp l)
    (hm : Sorted cmp m) (hpick : ∀ a ∈ l, ∀ b ∈ m, cmp a b = .eq → pick a b = pick b a) :
    unionUpTo cmp pick room l m = unionUpTo cmp pick room m l := by
  rw [unionUpTo_eq, unionUpTo_eq, union_comm hp hl hm hpick]

theorem unionUpTo_self [TransCmp cmp] (hp : Keeps cmp pick) (hl : Sorted cmp l)
    (hpick : ∀ a ∈ l, pick a a = a) (hlen : l.length ≤ room) : unionUpTo cmp pick room l l = l := by
  rw [unionUpTo_eq, union_self hp hl hpick, List.take_of_length_le hlen]

theorem sorted_unionUpTo [TransCmp cmp] (hp : Keeps cmp pick) (room : Nat) (hl : Sorted cmp l)
    (hm : Sorted cmp m) : Sorted cmp (unionUpTo cmp pick room l m) := by
  rw [unionUpTo_eq]
  exact (sorted_union hp hl hm).sublist (List.take_sublist _ _)

theorem length_unionUpTo (room : Nat) (l m : List α) :
    (unionUpTo cmp pick room l m).length ≤ room := by
  rw [unionUpTo_eq]
  exact List.length_take_le _ _

theorem mem_unionUpTo (hl : ∀ a ∈ l, P a) (hm : ∀ b ∈ m, P b)
    (hpick : ∀ a ∈ l, ∀ b ∈ m, cmp a b = .eq → P (pick a b)) :
    ∀ x ∈ unionUpTo cmp pick room l m, P x := by
  intro x hx
  rw [unionUpTo_eq] at hx
  exact mem_union hl hm hpick x (List.mem_of_mem_take hx)

end SortedJoin
