-- The members of one shared group (`shared.rs`): the online members that the
-- shard owns come first, then the other online ones, then the rest. A member
-- that changes its state is swapped over one boundary after the other.
import MqttBroker.Lib.Swap
import MqttBroker.Core.Topic

namespace mqtt_core.shared

structure GroupMembers where
  all : List (ClientId × QoS) := []
  online : Nat := 0
  own_online : Nat := 0
  deriving DecidableEq, Repr

namespace GroupMembers

open SwapList

def select_online (m : GroupMembers) (start : Nat) : Option (ClientId × QoS) :=
  if m.online = 0 then none else m.all[start % m.online]?

def select_own_online (m : GroupMembers) (start : Nat) : Option (ClientId × QoS) :=
  if m.own_online = 0 then none else m.all[start % m.own_online]?

def position (m : GroupMembers) (client : ClientId) : Option Nat :=
  m.all.findIdx? (fun p => p.1 == client)

/-- An own online member becomes another's: the swap with the last own slot. -/
def disown (m : GroupMembers) (i : Nat) : GroupMembers × Nat :=
  let own_online := m.own_online - 1
  ({ m with all := swap m.all i own_online, own_online := own_online }, own_online)

/-- An online member goes offline: the swap with the last online slot. -/
def go_offline (m : GroupMembers) (i : Nat) : GroupMembers × Nat :=
  let online := m.online - 1
  ({ m with all := swap m.all i online, online := online }, online)

/-- An offline member comes online: the swap with the first offline slot. -/
def go_online (m : GroupMembers) (i : Nat) : GroupMembers × Nat :=
  ({ m with all := swap m.all i m.online, online := m.online + 1 }, m.online)

/-- An online member of another shard becomes an own one: the swap with the first slot past the
own ones. -/
def adopt (m : GroupMembers) (i : Nat) : GroupMembers × Nat :=
  ({ m with all := swap m.all i m.own_online, own_online := m.own_online + 1 }, m.own_online)

/-- Moves the member at an index to the region that its state names, and says where it ends. -/
def set_at (m : GroupMembers) (i : Nat) (online own : Bool) : GroupMembers × Nat :=
  if !online then
    if m.online ≤ i then (m, i)
    else
      let (m, i) := if i < m.own_online then m.disown i else (m, i)
      m.go_offline i
  else
    let (m, i) := if m.online ≤ i then m.go_online i else (m, i)
    if own && decide (m.own_online ≤ i) then m.adopt i
    else if !own && decide (i < m.own_online) then m.disown i
    else (m, i)

/-- Adds a member, or gives the one that is there its new state. Says whether it was added. -/
def insert (m : GroupMembers) (client : ClientId) (max_qos : QoS) (online own : Bool) :
    GroupMembers × Bool :=
  match m.position client with
  | some i => (({ m with all := m.all.set i (client, max_qos) }.set_at i online own).1, false)
  | none =>
    let m := { m with all := m.all ++ [(client, max_qos)] }
    (if online then (m.set_at (m.all.length - 1) true own).1 else m, true)

/-- Takes a member offline first, so that the hole is behind the online ones. -/
def remove (m : GroupMembers) (client : ClientId) : GroupMembers × Bool :=
  match m.position client with
  | none => (m, false)
  | some i =>
    let (m, i) := m.set_at i false false
    ({ m with all := swap_remove m.all i }, true)

def set_online (m : GroupMembers) (client : ClientId) (online own : Bool) : GroupMembers × Bool :=
  match m.position client with
  | some i => ((m.set_at i online own).1, true)
  | none => (m, false)

def is_empty (m : GroupMembers) : Bool := m.all.isEmpty

/-! ## The regions -/

/-- The three stretches of the member list. -/
inductive Region
  | own
  | other
  | offline
  deriving DecidableEq, Repr

def region (m : GroupMembers) (i : Nat) : Region :=
  if i < m.own_online then .own else if i < m.online then .other else .offline

/-- Each client once, the boundaries in order, and every member in the region of its place. -/
structure Partitioned (m : GroupMembers) (place : ClientId → Region) : Prop where
  distinct : (m.all.map (fun p => p.1)).Nodup
  own_le : m.own_online ≤ m.online
  online_le : m.online ≤ m.all.length
  regions : ∀ i c q, m.all[i]? = some (c, q) → m.region i = place c

variable {m : GroupMembers} {place : ClientId → Region} {i j : Nat} {c : ClientId} {q : QoS}

theorem Partitioned.index_eq (h : Partitioned m place) {r : QoS} (hi : m.all[i]? = some (c, q))
    (hj : m.all[j]? = some (c, r)) : i = j := by
  have hilt := (List.getElem?_eq_some_iff.mp hi).1
  apply (List.getElem?_inj (by simpa using hilt) h.distinct).mp
  rw [List.getElem?_map, List.getElem?_map, hi, hj]
  rfl

theorem Partitioned.swap (h : Partitioned m place) (hi : i < m.all.length) (hj : j < m.all.length)
    (hregion : m.region i = m.region j) :
    Partitioned { m with all := SwapList.swap m.all i j } place := by
  refine ⟨?_, h.own_le, ?_, ?_⟩
  · dsimp only
    rw [swap_map]
    exact nodup_swap (by simpa using hi) (by simpa using hj) h.distinct
  · dsimp only
    rw [length_swap]
    exact h.online_le
  · intro k c q hk
    dsimp only at hk
    rw [getElem?_swap _ hi hj] at hk
    have hsame : ∀ k, GroupMembers.region { m with all := SwapList.swap m.all i j } k =
        m.region k := fun _ => rfl
    rw [hsame]
    split at hk
    · rename_i hkj
      rw [hkj, ← hregion]
      exact h.regions i c q hk
    · split at hk
      · rename_i hki
        rw [hki, hregion]
        exact h.regions j c q hk
      · exact h.regions k c q hk

variable {m' : GroupMembers}

/-- A boundary moves over one member: its place is now on the other side. -/
theorem Partitioned.shift (h : Partitioned m place) (hc : m.all[j]? = some (c, q))
    (hall : m'.all = m.all) (hown : m'.own_online ≤ m'.online)
    (honline : m'.online ≤ m.all.length) (hregion : ∀ k, k ≠ j → m'.region k = m.region k) :
    Partitioned m' (Function.update place c (m'.region j)) := by
  refine ⟨by rw [hall]; exact h.distinct, hown, by rw [hall]; exact honline, ?_⟩
  intro k d r hk
  rw [hall] at hk
  by_cases hkj : k = j
  · subst hkj
    rw [hc] at hk
    cases hk
    rw [Function.update_self]
  · have hdc : d ≠ c := by
      rintro rfl
      exact hkj (h.index_eq hk hc)
    rw [Function.update_of_ne hdc, hregion k hkj]
    exact h.regions k d r hk

/-- What a move leaves: the member at an index of its new region, the others where they were. -/
structure Moved (m : GroupMembers) (place : ClientId → Region) (c : ClientId) (q : QoS)
    (r : Region) (m' : GroupMembers) (i : Nat) : Prop where
  partitioned : Partitioned m' (Function.update place c r)
  at_index : m'.all[i]? = some (c, q)
  members : ∀ x, x ∈ m'.all ↔ x ∈ m.all

theorem Moved.trans {m1 m2 : GroupMembers} {r1 r2 : Region} {i1 i2 : Nat}
    (h1 : Moved m place c q r1 m1 i1) (h2 : Moved m1 (Function.update place c r1) c q r2 m2 i2) :
    Moved m place c q r2 m2 i2 := by
  refine ⟨?_, h2.at_index, fun x => by rw [h2.members, h1.members]⟩
  have := h2.partitioned
  rw [Function.update_idem] at this
  exact this

theorem Moved.stay (h : Partitioned m place) (hc : m.all[i]? = some (c, q)) :
    Moved m place c q (m.region i) m i := by
  refine ⟨?_, hc, fun x => Iff.rfl⟩
  rw [h.regions i c q hc, Function.update_eq_self]
  exact h

theorem moved_over (h : Partitioned m place) (hc : m.all[i]? = some (c, q))
    (hj : j < m.all.length) (hregion : m.region i = m.region j)
    (hall : m'.all = SwapList.swap m.all i j) (hown : m'.own_online ≤ m'.online)
    (honline : m'.online ≤ m.all.length) (hother : ∀ k, k ≠ j → m'.region k = m.region k) :
    Moved m place c q (m'.region j) m' j := by
  have hi := (List.getElem?_eq_some_iff.mp hc).1
  have hat : (SwapList.swap m.all i j)[j]? = some (c, q) := by
    rw [getElem?_swap _ hi hj, if_pos rfl, hc]
  refine ⟨?_, by rw [hall]; exact hat, fun x => by rw [hall, mem_swap hi hj]⟩
  exact (h.swap hi hj hregion).shift hat hall hown (by simpa using honline) hother

theorem disown_moves (h : Partitioned m place) (hc : m.all[i]? = some (c, q))
    (hi : i < m.own_online) : Moved m place c q .other (m.disown i).1 (m.disown i).2 := by
  have hown := h.own_le
  have hlen := h.online_le
  have hregion : (m.disown i).1.region (m.own_online - 1) = .other := by
    unfold disown region
    dsimp only
    rw [if_neg (by omega), if_pos (by omega)]
  rw [← hregion]
  apply moved_over h hc (by omega)
  · unfold region
    rw [if_pos hi, if_pos (by omega)]
  · rfl
  · show m.own_online - 1 ≤ m.online
    omega
  · exact hlen
  · intro k hk
    unfold disown region
    dsimp only
    by_cases hkown : k < m.own_online
    · rw [if_pos (by omega), if_pos hkown]
    · rw [if_neg (by omega), if_neg hkown]

theorem go_offline_moves (h : Partitioned m place) (hc : m.all[i]? = some (c, q))
    (hown : m.own_online ≤ i) (hi : i < m.online) :
    Moved m place c q .offline (m.go_offline i).1 (m.go_offline i).2 := by
  have hlen := h.online_le
  have hregion : (m.go_offline i).1.region (m.online - 1) = .offline := by
    unfold go_offline region
    dsimp only
    rw [if_neg (by omega), if_neg (by omega)]
  rw [← hregion]
  apply moved_over h hc (by omega)
  · unfold region
    rw [if_neg (by omega), if_pos hi, if_neg (by omega), if_pos (by omega)]
  · rfl
  · show m.own_online ≤ m.online - 1
    omega
  · show m.online - 1 ≤ m.all.length
    omega
  · intro k hk
    unfold go_offline region
    dsimp only
    by_cases hkon : k < m.online
    · rw [if_pos (show k < m.online - 1 by omega), if_pos hkon]
    · rw [if_neg (show ¬ k < m.online - 1 by omega), if_neg hkon]

theorem go_online_moves (h : Partitioned m place) (hc : m.all[i]? = some (c, q))
    (hi : m.online ≤ i) : Moved m place c q .other (m.go_online i).1 (m.go_online i).2 := by
  have hilt := (List.getElem?_eq_some_iff.mp hc).1
  have hown := h.own_le
  have hregion : (m.go_online i).1.region m.online = .other := by
    unfold go_online region
    dsimp only
    rw [if_neg (by omega), if_pos (by omega)]
  rw [← hregion]
  apply moved_over h hc (by omega)
  · unfold region
    rw [if_neg (by omega), if_neg (by omega), if_neg (by omega), if_neg (by omega)]
  · rfl
  · show m.own_online ≤ m.online + 1
    omega
  · show m.online + 1 ≤ m.all.length
    omega
  · intro k hk
    unfold go_online region
    dsimp only
    by_cases hkon : k < m.online
    · rw [if_pos (show k < m.online + 1 by omega), if_pos hkon]
    · rw [if_neg (show ¬ k < m.online + 1 by omega), if_neg hkon]

theorem adopt_moves (h : Partitioned m place) (hc : m.all[i]? = some (c, q))
    (hown : m.own_online ≤ i) (hi : i < m.online) :
    Moved m place c q .own (m.adopt i).1 (m.adopt i).2 := by
  have hlen := h.online_le
  have hregion : (m.adopt i).1.region m.own_online = .own := by
    unfold adopt region
    dsimp only
    rw [if_pos (by omega)]
  rw [← hregion]
  apply moved_over h hc (by omega)
  · unfold region
    rw [if_neg (by omega), if_pos hi, if_neg (by omega), if_pos (by omega)]
  · rfl
  · show m.own_online + 1 ≤ m.online
    omega
  · exact hlen
  · intro k hk
    unfold adopt region
    dsimp only
    by_cases hkown : k < m.own_online
    · rw [if_pos (by omega), if_pos hkown]
    · rw [if_neg (by omega), if_neg hkown]

/-- The region that a state names. -/
def placeOf (online own : Bool) : Region :=
  if online then (if own then .own else .other) else .offline

/-- A move leaves the member in the region that its state names. -/
theorem set_at_moves (h : Partitioned m place) (hc : m.all[i]? = some (c, q)) (online own : Bool) :
    Moved m place c q (placeOf online own) (m.set_at i online own).1 (m.set_at i online own).2 := by
  cases online with
  | false =>
    unfold set_at placeOf
    simp only [Bool.not_false, if_true, Bool.false_eq_true, if_false]
    by_cases hi : m.online ≤ i
    · rw [if_pos hi]
      have hregion : m.region i = .offline := by
        have := h.own_le
        unfold region
        rw [if_neg (by omega), if_neg (by omega)]
      rw [← hregion]
      exact Moved.stay h hc
    · rw [if_neg hi]
      by_cases hown : i < m.own_online
      · rw [if_pos hown]
        have h1 := disown_moves h hc hown
        have hle := h.own_le
        refine h1.trans (go_offline_moves h1.partitioned h1.at_index ?_ ?_)
        · exact le_refl _
        · show m.own_online - 1 < m.online
          omega
      · rw [if_neg hown]
        exact go_offline_moves h hc (by omega) (by omega)
  | true =>
    unfold set_at placeOf
    simp only [Bool.not_true, Bool.false_eq_true, if_false, if_true]
    -- First the member comes online, then it changes hands.
    have hfirst : ∃ r, Moved m place c q r (if m.online ≤ i then m.go_online i else (m, i)).1
        (if m.online ≤ i then m.go_online i else (m, i)).2 ∧
        (if m.online ≤ i then m.go_online i else (m, i)).2 <
          (if m.online ≤ i then m.go_online i else (m, i)).1.online := by
      split
      · rename_i hi
        exact ⟨.other, go_online_moves h hc hi, Nat.lt_succ_self _⟩
      · rename_i hi
        exact ⟨m.region i, Moved.stay h hc, by dsimp only; omega⟩
    generalize (if m.online ≤ i then m.go_online i else (m, i)) = mid at hfirst ⊢
    obtain ⟨m1, i1⟩ := mid
    obtain ⟨r, h1, honline⟩ := hfirst
    dsimp only at h1 honline ⊢
    have hplace := h1.partitioned.regions i1 c q h1.at_index
    rw [Function.update_self] at hplace
    have hkept : Moved m place c q (m1.region i1) m1 i1 := by
      rw [hplace]
      exact h1
    cases own with
    | true =>
      simp only [Bool.true_and, Bool.not_true, Bool.false_and, Bool.false_eq_true, if_false,
        if_true, decide_eq_true_eq]
      by_cases hown : m1.own_online ≤ i1
      · rw [if_pos hown]
        exact h1.trans (adopt_moves h1.partitioned h1.at_index hown honline)
      · rw [if_neg hown]
        have hregion : m1.region i1 = .own := by
          unfold region
          rw [if_pos (by omega)]
        rw [hregion] at hkept
        exact hkept
    | false =>
      simp only [Bool.false_and, Bool.not_false, Bool.true_and, Bool.false_eq_true, if_false,
        decide_eq_true_eq]
      by_cases hown : i1 < m1.own_online
      · rw [if_pos hown]
        exact h1.trans (disown_moves h1.partitioned h1.at_index hown)
      · rw [if_neg hown]
        have hregion : m1.region i1 = .other := by
          unfold region
          rw [if_neg hown, if_pos honline]
        rw [hregion] at hkept
        exact hkept

/-! ## Members and their state -/

/-- The granted level of a member and whether it is online, or nothing for a client that is
no member. -/
abbrev Status := Option (QoS × Bool)

def placed (own : ClientId → Bool) (status : ClientId → Status) (c : ClientId) : Region :=
  placeOf ((status c).any (fun s => s.2)) (own c)

/-- The member list against the state of every client. -/
structure Matches (m : GroupMembers) (own : ClientId → Bool) (status : ClientId → Status) :
    Prop where
  partitioned : Partitioned m (placed own status)
  granted : ∀ c q, (c, q) ∈ m.all ↔ ∃ online, status c = some (q, online)

theorem matches_empty (own : ClientId → Bool) : Matches {} own (fun _ => none) := by
  refine ⟨⟨List.nodup_nil, le_refl _, le_refl _, ?_⟩, ?_⟩
  · intro i c q hi
    simp at hi
  · intro c q
    simp

variable {client : ClientId}

theorem position_some (h : m.position client = some i) : ∃ q, m.all[i]? = some (client, q) := by
  unfold position at h
  obtain ⟨hlt, hi, -⟩ := List.findIdx?_eq_some_iff_getElem.mp h
  rw [beq_iff_eq] at hi
  refine ⟨m.all[i].2, ?_⟩
  rw [List.getElem?_eq_getElem hlt, ← hi]

theorem position_none (h : m.position client = none) (q : QoS) : (client, q) ∉ m.all := by
  unfold position at h
  rw [List.findIdx?_eq_none_iff] at h
  intro hmem
  have := h _ hmem
  simp at this

variable {own : ClientId → Bool} {status : ClientId → Status}

theorem Matches.position_isSome (h : Matches m own status) (client : ClientId) :
    (m.position client).isSome = (status client).isSome := by
  rcases hp : m.position client with _ | i
  · rcases hs : status client with _ | ⟨q, online⟩
    · rfl
    · exact absurd ((h.granted client q).mpr ⟨online, hs⟩) (position_none hp q)
  · obtain ⟨q, hi⟩ := position_some hp
    obtain ⟨online, hs⟩ := (h.granted client q).mp (List.mem_of_getElem? hi)
    rw [hs]
    rfl

theorem placed_update (own : ClientId → Bool) (status : ClientId → Status) (c : ClientId)
    (s : Status) :
    placed own (Function.update status c s) =
      Function.update (placed own status) c (placeOf (s.any (fun s => s.2)) (own c)) := by
  funext d
  by_cases hd : d = c
  · subst hd
    unfold placed
    rw [Function.update_self, Function.update_self]
  · unfold placed
    rw [Function.update_of_ne hd, Function.update_of_ne hd]

variable {online : Bool}

theorem Moved.matches (h : Matches m own status) (hc : (c, q) ∈ m.all)
    (hm : Moved m (placed own status) c q (placeOf online (own c)) m' i) :
    Matches m' own (Function.update status c (some (q, online))) := by
  refine ⟨?_, ?_⟩
  · rw [placed_update]
    exact hm.partitioned
  · intro d r
    rw [hm.members, h.granted]
    by_cases hd : d = c
    · subst hd
      obtain ⟨old, hs⟩ := (h.granted d q).mp hc
      rw [Function.update_self, hs]
      simp
    · rw [Function.update_of_ne hd]

theorem matches_set_online (h : Matches m own status) (client : ClientId) (online : Bool) :
    Matches (m.set_online client online (own client)).1 own
      (Function.update status client ((status client).map (fun s => (s.1, online)))) := by
  have hsome := h.position_isSome client
  unfold set_online
  rcases hp : m.position client with _ | i
  · rw [hp] at hsome
    have hnone : status client = none := by simpa using hsome.symm
    rw [hnone, Option.map_none, ← hnone, Function.update_eq_self]
    exact h
  · obtain ⟨q, hi⟩ := position_some hp
    obtain ⟨old, hs⟩ := (h.granted client q).mp (List.mem_of_getElem? hi)
    rw [hs, Option.map_some]
    exact (set_at_moves h.partitioned hi online (own client)).matches h (List.mem_of_getElem? hi)

/-- The granted level of a member changes nothing else. -/
theorem matches_regrant (h : Matches m own status) (hi : m.all[i]? = some (client, q))
    (hs : status client = some (q, online)) (max_qos : QoS) :
    Matches { m with all := m.all.set i (client, max_qos) } own
      (Function.update status client (some (max_qos, online))) := by
  have hlt := (List.getElem?_eq_some_iff.mp hi).1
  have hget : ∀ (k : Nat) c r, (m.all.set i (client, max_qos))[k]? = some (c, r) →
      ∃ old, m.all[k]? = some (c, old) := by
    intro k c r hk
    by_cases hki : k = i
    · subst hki
      rw [List.getElem?_set_self hlt] at hk
      cases hk
      exact ⟨q, hi⟩
    · rw [List.getElem?_set_ne (Ne.symm hki)] at hk
      exact ⟨r, hk⟩
  have hplace : placed own (Function.update status client (some (max_qos, online))) =
      placed own status := by
    rw [placed_update]
    have hsame : placeOf (Option.any (fun s => s.2) (some (max_qos, online))) (own client) =
        placed own status client := by
      unfold placed
      rw [hs]
      rfl
    rw [hsame, Function.update_eq_self]
  refine ⟨⟨?_, h.partitioned.own_le, ?_, ?_⟩, ?_⟩
  · have hmap : (m.all.set i (client, max_qos)).map (fun p => p.1) = m.all.map (fun p => p.1) := by
      apply List.ext_getElem?
      intro k
      rw [List.getElem?_map, List.getElem?_map]
      by_cases hki : k = i
      · subst hki
        rw [List.getElem?_set_self hlt, hi]
        rfl
      · rw [List.getElem?_set_ne (Ne.symm hki)]
    dsimp only
    rw [hmap]
    exact h.partitioned.distinct
  · dsimp only
    rw [List.length_set]
    exact h.partitioned.online_le
  · intro k c r hk
    obtain ⟨old, hold⟩ := hget k c r hk
    rw [hplace]
    exact h.partitioned.regions k c old hold
  · intro c r
    by_cases hc : c = client
    · subst hc
      rw [Function.update_self]
      constructor
      · intro hmem
        obtain ⟨k, hk⟩ := List.mem_iff_getElem?.mp hmem
        obtain ⟨old, hold⟩ := hget k c r hk
        rw [h.partitioned.index_eq hold hi, List.getElem?_set_self hlt] at hk
        cases hk
        exact ⟨online, rfl⟩
      · rintro ⟨b, hb⟩
        cases hb
        exact List.mem_iff_getElem?.mpr ⟨i, List.getElem?_set_self hlt⟩
    · rw [Function.update_of_ne hc, ← h.granted]
      constructor
      · intro hmem
        rcases List.mem_or_eq_of_mem_set hmem with hold | heq
        · exact hold
        · cases heq
          exact absurd rfl hc
      · intro hmem
        obtain ⟨k, hk⟩ := List.mem_iff_getElem?.mp hmem
        refine List.mem_iff_getElem?.mpr ⟨k, ?_⟩
        rw [List.getElem?_set_ne, hk]
        rintro rfl
        rw [hi] at hk
        cases hk
        exact hc rfl

/-- A new member stands at the end, offline. -/
theorem matches_push (h : Matches m own status) (hs : status client = none) (max_qos : QoS) :
    Matches { m with all := m.all ++ [(client, max_qos)] } own
      (Function.update status client (some (max_qos, false))) := by
  have hfresh : ∀ q, (client, q) ∉ m.all := by
    intro q hmem
    obtain ⟨online, hsome⟩ := (h.granted client q).mp hmem
    rw [hs] at hsome
    cases hsome
  have hown := h.partitioned.own_le
  have hlen := h.partitioned.online_le
  refine ⟨⟨?_, hown, ?_, ?_⟩, ?_⟩
  · dsimp only
    rw [List.map_append, List.nodup_append']
    refine ⟨h.partitioned.distinct, by simp, ?_⟩
    intro c h1 h2
    obtain ⟨⟨d, q⟩, hmem, rfl⟩ := List.mem_map.mp h1
    have hd : d = client := by simpa using h2
    exact hfresh q (hd ▸ hmem)
  · dsimp only
    rw [List.length_append]
    omega
  · intro i c q hi
    dsimp only at hi
    rw [placed_update]
    by_cases hlt : i < m.all.length
    · rw [List.getElem?_append_left hlt] at hi
      have hc : c ≠ client := by
        rintro rfl
        exact hfresh q (List.mem_of_getElem? hi)
      rw [Function.update_of_ne hc]
      exact h.partitioned.regions i c q hi
    · rw [List.getElem?_append_right (by omega)] at hi
      have hmem := List.mem_of_getElem? hi
      rw [List.mem_singleton] at hmem
      cases hmem
      rw [Function.update_self]
      unfold region placeOf
      dsimp only
      rw [if_neg (by omega), if_neg (by omega)]
      rfl
  · intro c q
    rw [List.mem_append, List.mem_singleton, h.granted]
    by_cases hc : c = client
    · subst hc
      rw [Function.update_self, hs]
      simp [@eq_comm _ max_qos q]
    · rw [Function.update_of_ne hc]
      simp [hc]

/-- Every outcome of an insertion: the client is a member with its new state. -/
theorem matches_insert (h : Matches m own status) (client : ClientId) (max_qos : QoS)
    (online : Bool) :
    Matches (m.insert client max_qos online (own client)).1 own
        (Function.update status client (some (max_qos, online))) ∧
      (m.insert client max_qos online (own client)).2 = (status client).isNone := by
  have hsome := h.position_isSome client
  unfold insert
  rcases hp : m.position client with _ | i
  · rw [hp] at hsome
    have hnone : status client = none := by simpa using hsome.symm
    have hpush := matches_push h hnone max_qos
    refine ⟨?_, by rw [hnone]; rfl⟩
    dsimp only
    cases online with
    | false => exact hpush
    | true =>
      have hat : (m.all ++ [(client, max_qos)])[(m.all ++ [(client, max_qos)]).length - 1]? =
          some (client, max_qos) := by
        rw [List.length_append]
        simp
      have hmoved := (set_at_moves hpush.partitioned hat true (own client)).matches hpush
        (List.mem_of_getElem? hat)
      rw [Function.update_idem] at hmoved
      exact hmoved
  · obtain ⟨q, hi⟩ := position_some hp
    obtain ⟨old, hs⟩ := (h.granted client q).mp (List.mem_of_getElem? hi)
    have hlt := (List.getElem?_eq_some_iff.mp hi).1
    refine ⟨?_, by rw [hs]; rfl⟩
    have hre := matches_regrant h hi hs max_qos
    have hat : (m.all.set i (client, max_qos))[i]? = some (client, max_qos) :=
      List.getElem?_set_self hlt
    have hmoved := (set_at_moves hre.partitioned hat online (own client)).matches hre
      (List.mem_of_getElem? hat)
    rw [Function.update_idem] at hmoved
    exact hmoved

/-- An offline member goes, and the last one takes its slot. -/
theorem matches_swap_remove (h : Matches m own status) (hi : m.all[i]? = some (client, q))
    (hoff : status client = some (q, false)) :
    Matches { m with all := swap_remove m.all i } own (Function.update status client none) := by
  have hlt := (List.getElem?_eq_some_iff.mp hi).1
  have hregion := h.partitioned.regions i client q hi
  have hbehind : m.online ≤ i := by
    by_contra hcon
    unfold region placed at hregion
    rw [hoff] at hregion
    split at hregion
    · cases hregion
    · rw [if_pos (by omega)] at hregion
      cases hregion
  have hown := h.partitioned.own_le
  have hlen := h.partitioned.online_le
  have hkeys : (m.all.map (fun p => p.1))[i]? = some client := by
    rw [List.getElem?_map, hi]
    rfl
  have hdistinct : m.all.Nodup := h.partitioned.distinct.of_map
  have hgone : ∀ c r, (c, r) ∈ swap_remove m.all i → c ≠ client := by
    intro c r hmem
    have hmem' : c ∈ swap_remove (m.all.map (fun p => p.1)) i := by
      rw [← swap_remove_map]
      exact List.mem_map.mpr ⟨(c, r), hmem, rfl⟩
    exact ((mem_swap_remove h.partitioned.distinct hkeys).mp hmem').2
  refine ⟨⟨?_, hown, ?_, ?_⟩, ?_⟩
  · dsimp only
    rw [swap_remove_map]
    exact nodup_swap_remove (by simpa using hlt) h.partitioned.distinct
  · dsimp only
    rw [length_swap_remove]
    omega
  · intro k c r hk
    have hc := hgone c r (List.mem_of_getElem? hk)
    dsimp only at hk
    rw [getElem?_swap_remove _ hlt] at hk
    rw [placed_update, Function.update_of_ne hc]
    split at hk
    · rw [← h.partitioned.regions _ c r hk]
      -- The slot of the member and the last one are both behind the online ones.
      by_cases hki : k = i
      · rw [if_pos hki, hki]
        unfold region
        dsimp only
        rw [if_neg (by omega), if_neg (by omega), if_neg (by omega), if_neg (by omega)]
      · rw [if_neg hki]
        rfl
    · cases hk
  · intro c r
    rw [mem_swap_remove hdistinct hi, h.granted]
    by_cases hc : c = client
    · subst hc
      rw [Function.update_self, hoff]
      constructor
      · rintro ⟨⟨online, hsome⟩, hne⟩
        cases hsome
        exact absurd rfl hne
      · rintro ⟨online, hnone⟩
        cases hnone
    · rw [Function.update_of_ne hc]
      simp [hc]

theorem matches_remove (h : Matches m own status) (client : ClientId) :
    Matches (m.remove client).1 own (Function.update status client none) ∧
      (m.remove client).2 = (status client).isSome := by
  have hsome := h.position_isSome client
  unfold remove
  rcases hp : m.position client with _ | i
  · rw [hp] at hsome
    have hnone : status client = none := by simpa using hsome.symm
    refine ⟨?_, by rw [hnone]; rfl⟩
    rw [← hnone, Function.update_eq_self]
    exact h
  · obtain ⟨q, hi⟩ := position_some hp
    obtain ⟨old, hs⟩ := (h.granted client q).mp (List.mem_of_getElem? hi)
    refine ⟨?_, by rw [hs]; rfl⟩
    have hmoved : Moved m (placed own status) client q (placeOf false (own client))
        (m.set_at i false false).1 (m.set_at i false false).2 :=
      set_at_moves h.partitioned hi false false
    have hoff := hmoved.matches h (List.mem_of_getElem? hi)
    have hgone := matches_swap_remove hoff hmoved.at_index (by rw [Function.update_self])
    rw [Function.update_idem] at hgone
    exact hgone

theorem Matches.all_ne_nil (h : Matches m own status) :
    m.all ≠ [] ↔ ∃ c, (status c).isSome = true := by
  constructor
  · intro hne
    obtain ⟨⟨c, q⟩, hmem⟩ := List.exists_mem_of_ne_nil _ hne
    obtain ⟨online, hs⟩ := (h.granted c q).mp hmem
    exact ⟨c, by rw [hs]; rfl⟩
  · rintro ⟨c, hc⟩ hnil
    obtain ⟨⟨q, online⟩, hs⟩ := Option.isSome_iff_exists.mp hc
    have hmem := (h.granted c q).mpr ⟨online, hs⟩
    rw [hnil] at hmem
    cases hmem

variable {start : Nat}

theorem Matches.select_online (h : Matches m own status)
    (hs : m.select_online start = some (c, q)) : (c, q) ∈ m.all ∧ status c = some (q, true) := by
  unfold GroupMembers.select_online at hs
  split at hs
  · cases hs
  · rename_i hpos
    have hlt : start % m.online < m.online := Nat.mod_lt _ (by omega)
    have hmem := List.mem_of_getElem? hs
    obtain ⟨online, hstatus⟩ := (h.granted c q).mp hmem
    have hregion := h.partitioned.regions _ c q hs
    unfold region placed placeOf at hregion
    rw [hstatus] at hregion
    refine ⟨hmem, ?_⟩
    cases online with
    | true => exact hstatus
    | false =>
      rw [if_pos hlt] at hregion
      split at hregion
      · cases hregion
      · cases hregion

theorem Matches.select_own_online (h : Matches m own status)
    (hs : m.select_own_online start = some (c, q)) :
    (c, q) ∈ m.all ∧ status c = some (q, true) ∧ own c = true := by
  unfold GroupMembers.select_own_online at hs
  split at hs
  · cases hs
  · rename_i hpos
    have hlt : start % m.own_online < m.own_online := Nat.mod_lt _ (by omega)
    have hmem := List.mem_of_getElem? hs
    obtain ⟨online, hstatus⟩ := (h.granted c q).mp hmem
    have hregion := h.partitioned.regions _ c q hs
    unfold region placed placeOf at hregion
    rw [hstatus, if_pos hlt] at hregion
    refine ⟨hmem, ?_⟩
    cases online with
    | false => cases hregion
    | true =>
      refine ⟨hstatus, ?_⟩
      cases hown : own c with
      | true => rfl
      | false =>
        rw [hown] at hregion
        cases hregion

end GroupMembers

end mqtt_core.shared
