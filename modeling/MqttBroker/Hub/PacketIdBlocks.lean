-- Packet ids stay inside the block they are taken from as long as no block runs past
-- 65535 and base 0 finds the cursor before id 1. A block that breaks this hands out an
-- id of the block after it when it is used up.
import Mathlib.Logic.Function.Iterate
import MqttBroker.Hub.PacketIds

namespace mqttd.hub.delivery

/-! ## One draw -/

namespace Inflight

theorem left_adopt {inf inf' : Inflight} (h : inf.adopt = some inf') :
    inf'.left = inf.left ∧ 0 < inf'.block_remaining := by
  unfold adopt at h
  split at h
  · next hspent =>
    obtain ⟨base, hbase, rfl⟩ := Option.map_eq_some_iff.mp h
    simp [left, adopted, hspent, hbase, PKID_BLOCK]
  · next hsome =>
    cases h
    exact ⟨rfl, Nat.pos_of_ne_zero hsome⟩

theorem left_advance {inf : Inflight} (h : 0 < inf.block_remaining) :
    inf.advance.left + 1 = inf.left := by
  unfold left advance
  dsimp only
  generalize (if inf.banked_base.isSome = true then PKID_BLOCK else 0) = banked
  omega

theorem alloc_loop_fuel (fuel : Nat) (inf : Inflight) (h : inf.left < fuel) :
    alloc_loop (fuel + 1) inf = alloc_loop fuel inf := by
  induction fuel generalizing inf with
  | zero => omega
  | succ fuel ih =>
    rw [alloc_loop, alloc_loop]
    cases hadopt : inf.adopt with
    | none => rfl
    | some inf' =>
      obtain ⟨hleft, hsome⟩ := left_adopt hadopt
      have hless : inf'.advance.left < fuel := by
        have hdraw := left_advance hsome
        omega
      simp only [ih _ hless]

theorem next_pkid_advance (inf : Inflight) :
    inf.advance.next_pkid = if wrapping_add inf.next_pkid 1 = 0 then 1
      else wrapping_add inf.next_pkid 1 := rfl

theorem next_pkid_advance_of_lt {inf : Inflight} (h : inf.next_pkid + 1 < 65536) :
    inf.advance.next_pkid = inf.next_pkid + 1 := by
  rw [next_pkid_advance, wrapping_add, Nat.mod_eq_of_lt h]
  simp

/-- Where the cursor stands when the block in use is spent. -/
def spentCursor (inf : Inflight) : Nat := (advance^[inf.block_remaining] inf).next_pkid

theorem spentCursor_advance {inf : Inflight} (h : 0 < inf.block_remaining) :
    inf.advance.spentCursor = inf.spentCursor := by
  obtain ⟨n, hn⟩ : ∃ n, inf.block_remaining = n + 1 := ⟨inf.block_remaining - 1, by omega⟩
  unfold spentCursor
  have hless : inf.advance.block_remaining = n := by
    simp [advance, hn]
  rw [hless, hn, Function.iterate_succ_apply]

/-- The block ends below 65536, and base 0 finds the cursor where the next id is 1. -/
def Fits (inf : Inflight) (b : Block) : Prop :=
  b.base + PKID_BLOCK < 65536 ∧
    (b.base = 0 → inf.spentCursor = 0 ∨ inf.spentCursor = 65535)

end Inflight

/-- One of the ids that a reservation stands for. -/
def InBlock (base id : Nat) : Prop :=
  id ≠ 0 ∧ ∃ k, 1 ≤ k ∧ k ≤ PKID_BLOCK ∧ id = (base + k) % 65536

/-! ## The invariant -/

/-- The bases of the reservations, one after the other. -/
def baseOf (last index : Nat) : Nat := (last + PKID_BLOCK * index) % 65536

/-- The cursor is as far into the block as ids were drawn from it; the block that is banked
fits. -/
structure Inflight.Kept (last : Nat) (inf : Inflight) : Prop where
  place : ∀ b, inf.block = some b → b.base = baseOf last b.index ∧ b.base + PKID_BLOCK < 65536 ∧
    inf.block_remaining < PKID_BLOCK ∧ inf.next_pkid + inf.block_remaining = b.base + PKID_BLOCK
  banked : ∀ b, inf.banked_block = some b → b.base = baseOf last b.index ∧
    inf.banked_base = some b.base ∧ inf.Fits b

namespace Inflight

theorem kept_new (last : Nat) : Kept last {} := by
  constructor
  · intro b hb
    cases hb
  · intro b hb
    cases hb

variable {last : Nat} {inf inf' : Inflight}

theorem Kept.draw (h : Kept last inf) (hadopt : inf.adopt = some inf') :
    Kept last inf'.advance ∧
      ∀ b, inf'.advance.block = some b → InBlock b.base inf'.advance.next_pkid := by
  -- it is enough to know where the cursor stands
  have henough : (∀ b, inf'.advance.block = some b → b.base = baseOf last b.index ∧
        b.base + PKID_BLOCK < 65536 ∧ inf'.advance.block_remaining < PKID_BLOCK ∧
        inf'.advance.next_pkid + inf'.advance.block_remaining = b.base + PKID_BLOCK) →
      ∀ b, inf'.advance.block = some b → InBlock b.base inf'.advance.next_pkid := by
    intro hplace b hb
    obtain ⟨_, hend, hused, hcursor⟩ := hplace b hb
    refine ⟨by omega, PKID_BLOCK - inf'.advance.block_remaining, by omega, by omega, ?_⟩
    rw [Nat.mod_eq_of_lt (by omega)]
    omega
  unfold adopt at hadopt
  split at hadopt
  · next hspent =>
    obtain ⟨base, hbase, rfl⟩ := Option.map_eq_some_iff.mp hadopt
    have hkept : Kept last (inf.adopted base).advance := by
      constructor
      · intro b hb
        obtain ⟨hindex, hbanked, hfits⟩ := h.banked b hb
        cases hbase.symm.trans hbanked
        have hend := hfits.1
        have hspentCursor : inf.spentCursor = inf.next_pkid := by
          simp [spentCursor, hspent]
        have hremaining : (inf.adopted b.base).advance.block_remaining = PKID_BLOCK - 1 := rfl
        have hfirst : (inf.adopted b.base).advance.next_pkid = b.base + 1 := by
          by_cases hzero : b.base = 0
          · rcases hfits.2 hzero with hc | hc
            · rw [hspentCursor] at hc
              simp [next_pkid_advance, adopted, wrapping_add, hzero, hc]
            · rw [hspentCursor] at hc
              simp [next_pkid_advance, adopted, wrapping_add, hzero, hc]
          · have hcursor : (inf.adopted b.base).next_pkid = b.base := if_pos hzero
            rw [next_pkid_advance_of_lt, hcursor]
            rw [hcursor]
            simp only [PKID_BLOCK] at hend
            omega
        refine ⟨hindex, hend, ?_, ?_⟩
        · rw [hremaining]
          simp [PKID_BLOCK]
        · rw [hremaining, hfirst]
          simp only [PKID_BLOCK]
      · intro b hb
        cases hb
    exact ⟨hkept, henough hkept.place⟩
  · next hsome =>
    cases hadopt
    have hkept : Kept last inf.advance := by
      constructor
      · intro b hb
        obtain ⟨hindex, hend, hused, hcursor⟩ := h.place b hb
        rw [next_pkid_advance_of_lt (by omega)]
        simp only [advance]
        omega
      · intro b hb
        obtain ⟨hindex, hbanked, hfits⟩ := h.banked b hb
        refine ⟨hindex, hbanked, hfits.1, ?_⟩
        rw [spentCursor_advance (Nat.pos_of_ne_zero hsome)]
        exact hfits.2
    exact ⟨hkept, henough hkept.place⟩

theorem Kept.alloc (fuel : Nat) (h : Kept last inf) :
    Kept last (alloc_loop fuel inf).2 ∧
      ∀ id ahead, (alloc_loop fuel inf).1 = some (id, ahead) →
        ∀ b, (alloc_loop fuel inf).2.block = some b → InBlock b.base id := by
  induction fuel generalizing inf with
  | zero =>
    refine ⟨h, ?_⟩
    intro id ahead hid
    cases hid
  | succ fuel ih =>
    rw [alloc_loop]
    cases hadopt : inf.adopt with
    | none =>
      refine ⟨h, ?_⟩
      intro id ahead hid
      cases hid
    | some inf' =>
      obtain ⟨hkept, hin⟩ := h.draw hadopt
      dsimp only
      split
      · exact ih hkept
      · refine ⟨hkept, ?_⟩
        intro id ahead hid b hb
        cases hid
        exact hin b hb

theorem spentCursor_congr (hcursor : inf'.next_pkid = inf.next_pkid)
    (hremaining : inf'.block_remaining = inf.block_remaining) :
    inf'.spentCursor = inf.spentCursor := by
  have hiter : ∀ n, (advance^[n] inf').next_pkid = (advance^[n] inf).next_pkid := by
    intro n
    induction n with
    | zero => exact hcursor
    | succ n ih =>
      rw [Function.iterate_succ_apply', Function.iterate_succ_apply', next_pkid_advance,
        next_pkid_advance, ih]
  unfold spentCursor
  rw [hremaining, hiter]

/-- What is in use and what is under way is no part of it. -/
theorem Kept.congr (h : Kept last inf) (hcursor : inf'.next_pkid = inf.next_pkid)
    (hremaining : inf'.block_remaining = inf.block_remaining) (hblock : inf'.block = inf.block)
    (hbase : inf'.banked_base = inf.banked_base) (hbanked : inf'.banked_block = inf.banked_block) :
    Kept last inf' := by
  constructor
  · rw [hblock, hremaining, hcursor]
    exact h.place
  · rw [hbanked, hbase]
    intro b hb
    obtain ⟨hindex, hsome, hfits⟩ := h.banked b hb
    refine ⟨hindex, hsome, hfits.1, ?_⟩
    rw [spentCursor_congr hcursor hremaining]
    exact hfits.2

end Inflight

/-- The reservations of an owner's task are those of the store. -/
structure Owner.Kept (last : Nat) (o : Owner) : Prop where
  inflight : o.inflight.Kept last
  task : ∀ b, o.task = some (.Answered (some b)) → b.base = baseOf last b.index

theorem Owner.reserve_cases (o : Owner) : o.reserve = o ∨
    o.reserve = { inflight := { o.inflight with reserve_outstanding := true },
                  task := some .Running } := by
  unfold Owner.reserve Inflight.reserve_pkid_block
  by_cases hbusy : (o.inflight.reserve_outstanding || o.inflight.banked_base.isSome) = true
  · left
    simp [hbusy]
  · right
    simp [hbusy]

theorem Owner.Kept.reserve {last : Nat} {o : Owner} (h : o.Kept last) : o.reserve.Kept last := by
  rcases o.reserve_cases with heq | heq
  · rw [heq]
    exact h
  · rw [heq]
    refine ⟨h.inflight.congr rfl rfl rfl rfl rfl, ?_⟩
    intro b hb
    cases hb

theorem Owner.block_reserve (o : Owner) : o.reserve.inflight.block = o.inflight.block := by
  rcases o.reserve_cases with heq | heq
  · rw [heq]
  · rw [heq]

theorem Owner.Kept.send {last : Nat} {o : Owner} (h : o.Kept last) :
    o.send.2.Kept last ∧
      ∀ id, o.send.1 = some id → ∀ b, o.send.2.inflight.block = some b → InBlock b.base id := by
  have halloc := h.inflight.alloc (o.inflight.left + 1)
  unfold Owner.send Inflight.alloc_pkid
  generalize Inflight.alloc_loop (o.inflight.left + 1) o.inflight = r at halloc
  obtain ⟨got, inf⟩ := r
  cases got with
  | none =>
    refine ⟨Owner.Kept.reserve ⟨halloc.1, h.task⟩, ?_⟩
    intro id hid
    cases hid
  | some e =>
    obtain ⟨id, ahead⟩ := e
    have howner : Owner.Kept last { o with inflight := inf } := ⟨halloc.1, h.task⟩
    dsimp only
    cases ahead with
    | true =>
      have hreserved := howner.reserve
      refine ⟨⟨hreserved.inflight.congr rfl rfl rfl rfl rfl, hreserved.task⟩, ?_⟩
      intro id' hid b hb
      cases hid
      simp only [if_true, Owner.block_reserve] at hb
      exact halloc.2 id true rfl b hb
    | false =>
      refine ⟨⟨halloc.1.congr rfl rfl rfl rfl rfl, h.task⟩, ?_⟩
      intro id' hid b hb
      cases hid
      exact halloc.2 id false rfl b hb

namespace Session

/-- The record, the owners and the ids that were handed out agree on the reservations. -/
structure Kept (last : Nat) (s : Session) : Prop where
  record : s.record.last_packet_id = baseOf last s.record.reserved
  owners : ∀ o ∈ s.owners, o.Kept last
  inside : ∀ e ∈ s.handed, ∀ b, e.block = some b → InBlock b.base e.id
  bases : ∀ e ∈ s.handed, ∀ b, e.block = some b →
    b.base = baseOf last b.index ∧ b.base + PKID_BLOCK < 65536

/-- A block that an answer brings fits. -/
def Fine (s : Session) : Step → Prop
  | .Answer i => ∀ o b, s.owners[i]? = some o → o.task = some (.Answered (some b)) →
    o.inflight.Fits b
  | _ => True

def AllFine : Session → List Step → Prop
  | _, [] => True
  | s, a :: steps => Fine s a ∧ AllFine (s.step a) steps

theorem kept_start (last : UInt16) : Kept last.toNat (start last) := by
  refine ⟨?_, ?_, ?_, ?_⟩
  · simp only [start, baseOf, Nat.mul_zero, Nat.add_zero]
    rw [Nat.mod_eq_of_lt last.toNat_lt]
  · simp [start]
  · simp [start]
  · simp [start]

variable {last : Nat} {s : Session} {o : Owner}

theorem Kept.set (h : Kept last s) (i : Nat) (ho : o.Kept last) :
    Kept last { s with owners := s.owners.set i o } := by
  refine ⟨h.record, ?_, h.inside, h.bases⟩
  intro o' ho'
  rcases List.mem_or_eq_of_mem_set ho' with hold | rfl
  · exact h.owners o' hold
  · exact ho

theorem Kept.send (h : Kept last s) (i : Nat) (ho : o.Kept last) : Kept last (s.send i o) := by
  obtain ⟨hkept, hin⟩ := ho.send
  have hset := h.set i hkept
  unfold Session.send
  dsimp only
  cases hid : o.send.1 with
  | none => exact hset
  | some id =>
    refine ⟨h.record, hset.owners, ?_, ?_⟩
    · intro e he b hb
      rcases List.mem_cons.mp he with rfl | hold
      · exact hin id hid b hb
      · exact h.inside e hold b hb
    · intro e he b hb
      rcases List.mem_cons.mp he with rfl | hold
      · obtain ⟨hindex, hend, _⟩ := hkept.inflight.place b hb
        exact ⟨hindex, hend⟩
      · exact h.bases e hold b hb

theorem Kept.serve (h : Kept last s) (i : Nat) (ho : o.Kept last) (ok : Bool) :
    Kept last (s.serve i o ok) := by
  unfold Session.serve
  split
  · cases ok with
    | true =>
      have howner : Owner.Kept last { o with
          task := some (.Answered (some ⟨s.record.reserved, s.record.last_packet_id⟩)) } := by
        refine ⟨ho.inflight, ?_⟩
        intro b hb
        cases hb
        exact h.record
      have hnext : wrapping_add s.record.last_packet_id PKID_BLOCK =
          baseOf last (s.record.reserved + 1) := by
        rw [h.record]
        unfold wrapping_add baseOf
        rw [Nat.mod_add_mod, Nat.mul_succ, Nat.add_assoc]
      have howners := (h.set i howner).owners
      simp only [if_true, SessionMeta.reserve_packet_ids, hnext]
      exact ⟨rfl, howners, h.inside, h.bases⟩
    | false =>
      apply h.set i
      refine ⟨ho.inflight, ?_⟩
      intro b hb
      cases hb
  · exact h

theorem Owner.Kept.answer (h : o.Kept last)
    (hfine : ∀ b, o.task = some (.Answered (some b)) → o.inflight.Fits b) : o.answer.Kept last := by
  unfold Owner.answer
  split
  · next result htask =>
    constructor
    · constructor
      · exact h.inflight.place
      · intro b hb
        have hresult : result = some b := hb
        subst hresult
        have hfits := hfine b htask
        refine ⟨h.task b htask, rfl, hfits.1, ?_⟩
        have hsame : Inflight.spentCursor (o.inflight.pkid_block_reserved (some b)) =
            o.inflight.spentCursor := Inflight.spentCursor_congr rfl rfl
        rw [hsame]
        exact hfits.2
    · intro b hb
      cases hb
  · exact h

theorem Kept.step (h : Kept last s) (a : Step) (hfine : Fine s a) : Kept last (s.step a) := by
  have hact : ∀ i (f : Owner → Session),
      (∀ o, s.owners[i]? = some o → o.Kept last → Kept last (f o)) → Kept last (s.act i f) := by
    intro i f hf
    unfold act
    cases ho : s.owners[i]? with
    | none => exact h
    | some o => exact hf o ho (h.owners o (List.mem_of_getElem? ho))
  cases a with
  | Takeover =>
    refine ⟨h.record, ?_, h.inside, h.bases⟩
    intro o ho
    rcases List.mem_append.mp ho with hold | hnew
    · exact h.owners o hold
    · rw [List.mem_singleton.mp hnew]
      refine ⟨Inflight.kept_new last, ?_⟩
      intro b hb
      cases hb
  | Attach i =>
    apply hact i
    intro o _ ho
    apply h.set i
    unfold Owner.attach
    split
    · exact ho.reserve
    · exact ho
  | Send i =>
    apply hact i
    intro o _ ho
    exact h.send i ho
  | Serve i ok =>
    apply hact i
    intro o _ ho
    exact h.serve i ho ok
  | Answer i =>
    apply hact i
    intro o hget ho
    apply h.set i
    exact Owner.Kept.answer ho (fun b hb => hfine o b hget hb)
  | Release i id =>
    apply hact i
    intro o _ ho
    apply h.set i
    exact ⟨ho.inflight.congr rfl rfl rfl rfl rfl, ho.task⟩
  | Orphan i id =>
    apply hact i
    intro o _ ho
    apply h.set i
    exact ⟨ho.inflight.congr rfl rfl rfl rfl rfl, ho.task⟩

theorem Kept.run (h : Kept last s) (steps : List Step) (hfine : AllFine s steps) :
    Kept last (s.run steps) := by
  induction steps generalizing s with
  | nil => exact h
  | cons a steps ih => exact ih (h.step a hfine.1) hfine.2

/-- The next reservation is the block right after. -/
theorem baseOf_succ (last index : Nat) :
    baseOf last (index + 1) = (baseOf last index + PKID_BLOCK) % 65536 := by
  unfold baseOf
  rw [Nat.mod_add_mod, Nat.mul_succ, Nat.add_assoc]

/-- In every run whose blocks fit, an id that is handed out under a reservation is one of its
1024, and none that was handed out under the reservation before it, by whichever owner. -/
theorem packet_ids_stay_in_their_block (last : UInt16) (steps : List Step)
    (hfine : AllFine (start last) steps) :
    (∀ e ∈ (run (start last) steps).handed, ∀ b, e.block = some b → InBlock b.base e.id) ∧
    (∀ e ∈ (run (start last) steps).handed, ∀ e' ∈ (run (start last) steps).handed,
      ∀ b b', e.block = some b → e'.block = some b' → b'.index = b.index + 1 → e'.id ≠ e.id) := by
  have h := (kept_start last).run steps hfine
  refine ⟨h.inside, ?_⟩
  intro e he e' he' b b' hb hb' hnext heq
  obtain ⟨hbase, hend⟩ := h.bases e he b hb
  obtain ⟨hbase', hend'⟩ := h.bases e' he' b' hb'
  obtain ⟨_, k, hk, hle, hid⟩ := h.inside e he b hb
  obtain ⟨_, k', hk', hle', hid'⟩ := h.inside e' he' b' hb'
  have hafter : b'.base = b.base + PKID_BLOCK := by
    rw [hbase', hnext, baseOf_succ, ← hbase]
    exact Nat.mod_eq_of_lt hend
  rw [Nat.mod_eq_of_lt (by omega)] at hid hid'
  omega

/-- An owner draws the first id of a fresh session, and the one that takes over reserves and
draws its own. -/
def twoOwners : List Step :=
  [.Takeover, .Attach 0, .Serve 0 true, .Answer 0, .Send 0,
   .Takeover, .Attach 1, .Serve 1 true, .Answer 1, .Send 1]

def firstId : Handed := { owner := 0, block := some { index := 0, base := 0 }, id := 1 }

def idAfterTakeover : Handed :=
  { owner := 1, block := some { index := 1, base := 1024 }, id := 1025 }

/-- The two owners draw from blocks that follow each other. -/
theorem first_ids_of_two_owners :
    (run (start 0) twoOwners).handed = [idAfterTakeover, firstId] ∧
      InBlock 0 firstId.id ∧ InBlock 1024 idAfterTakeover.id ∧
      idAfterTakeover.id ≠ firstId.id := by
  have hfine : AllFine (start 0) twoOwners := by
    refine ⟨trivial, trivial, trivial, ?_, trivial, trivial, trivial, trivial, ?_, trivial,
      trivial⟩
    · intro o b ho hb
      cases ho
      cases hb
      refine ⟨by decide, ?_⟩
      intro _
      left
      rfl
    · intro o b ho hb
      cases ho
      cases hb
      refine ⟨by decide, ?_⟩
      intro hzero
      exact absurd hzero (by decide)
  have hhanded : (run (start 0) twoOwners).handed = [idAfterTakeover, firstId] := by
    decide +kernel
  obtain ⟨hin, hapart⟩ := packet_ids_stay_in_their_block 0 twoOwners hfine
  rw [hhanded] at hin hapart
  have hfirst : firstId ∈ [idAfterTakeover, firstId] := by simp
  have hafter : idAfterTakeover ∈ [idAfterTakeover, firstId] := by simp
  exact ⟨hhanded, hin firstId hfirst _ rfl, hin idAfterTakeover hafter _ rfl,
    hapart firstId hfirst idAfterTakeover hafter _ _ rfl rfl rfl⟩

end Session

/-! ## A block that is used up -/

/-- An owner that spent its block and has nothing in use, with a reservation banked. -/
def spentOwner (cursor base : UInt16) (index : Nat) : Owner :=
  { inflight := { next_pkid := cursor.toNat, banked_base := some base.toNat,
                  banked_block := some { index, base := base.toNat } } }

/-- Deliveries go out one after the other, each released before the next. -/
def Owner.useUp (o : Owner) : Nat → Owner
  | 0 => o
  | n + 1 =>
    match (o.useUp n).send with
    | (some id, o') => o'.release id
    | (none, o') => o'

theorem Owner.useUp_succ {o : Owner} {n id : Nat} (h : (o.useUp n).send.1 = some id) :
    o.useUp (n + 1) = (o.useUp n).send.2.release id := by
  rw [Owner.useUp]
  generalize (o.useUp n).send = r at h
  obtain ⟨id', o'⟩ := r
  cases h
  rfl

/-- With nothing in use, a delivery takes the first id that is drawn. -/
theorem Owner.send_free {o : Owner} {inf : Inflight} (hadopt : o.inflight.adopt = some inf)
    (hpending : inf.pending = []) (horphaned : inf.orphaned_qos2 = []) :
    o.send.1 = some inf.advance.next_pkid ∧ o.send.2.inflight.block = inf.block ∧
      ∃ flag task, o.send.2.release inf.advance.next_pkid =
        { inflight := { inf.advance with reserve_outstanding := flag }, task } := by
  have hp : inf.advance.pending = [] := hpending
  have hq : inf.advance.orphaned_qos2 = [] := horphaned
  have hfree : inf.advance.in_use inf.advance.next_pkid = false := by
    simp [Inflight.in_use, hp, hq]
  have halloc : o.inflight.alloc_pkid =
      (some (inf.advance.next_pkid, inf.advance.reserve_ahead), inf.advance) := by
    simp [Inflight.alloc_pkid, Inflight.alloc_loop, hadopt, hfree]
  unfold Owner.send
  rw [halloc]
  dsimp only
  refine ⟨rfl, ?_, ?_⟩
  · split
    · rw [Owner.block_reserve]
      rfl
    · rfl
  · split
    · rcases Owner.reserve_cases { o with inflight := inf.advance } with heq | heq
      · refine ⟨inf.advance.reserve_outstanding, o.task, ?_⟩
        rw [heq]
        simp [Owner.release, hp, hq]
      · refine ⟨true, some .Running, ?_⟩
        rw [heq]
        simp [Owner.release, hp, hq]
    · refine ⟨inf.advance.reserve_outstanding, o.task, ?_⟩
      simp [Owner.release, hp, hq]

theorem Inflight.iterate_advance (inf : Inflight) (n : Nat) :
    ((Inflight.advance^[n] inf).pending = inf.pending ∧
      (Inflight.advance^[n] inf).orphaned_qos2 = inf.orphaned_qos2 ∧
      (Inflight.advance^[n] inf).block = inf.block) ∧
      (Inflight.advance^[n] inf).block_remaining = inf.block_remaining - n := by
  induction n with
  | zero => simp
  | succ n ih =>
    rw [Function.iterate_succ_apply']
    refine ⟨ih.1, ?_⟩
    have hstep : ∀ inf : Inflight, inf.advance.block_remaining = inf.block_remaining - 1 := by
      intro inf
      rfl
    rw [hstep, ih.2]
    omega

/-- The cursor goes through the ids in turn and leaves 0 out. -/
theorem Inflight.cursor_iterate (inf : Inflight) (hcursor : inf.next_pkid < 65536) (n : Nat)
    (hn : n < PKID_BLOCK) :
    (Inflight.advance^[n + 1] inf).next_pkid =
      if inf.next_pkid + (n + 1) < 65536 then inf.next_pkid + (n + 1)
      else inf.next_pkid + (n + 1) - 65535 := by
  simp only [PKID_BLOCK] at hn
  induction n with
  | zero =>
    rw [Function.iterate_one, Inflight.next_pkid_advance, wrapping_add]
    split
    · split
      · omega
      · omega
    · split
      · omega
      · omega
  | succ n ih =>
    rw [Function.iterate_succ_apply', Inflight.next_pkid_advance, wrapping_add, ih (by omega)]
    by_cases hlow : inf.next_pkid + (n + 1) < 65536
    · rw [if_pos hlow]
      split
      · split
        · omega
        · omega
      · split
        · omega
        · omega
    · rw [if_neg hlow, Nat.mod_eq_of_lt (by omega), if_neg (by omega), if_neg (by omega)]
      omega

/-- The block hands out its ids one after the other. -/
theorem useUp_send (cursor base : UInt16) (index n : Nat) (hn : n < PKID_BLOCK) :
    (((spentOwner cursor base index).useUp n).send.1 = some
      (Inflight.advance^[n + 1] ((spentOwner cursor base index).inflight.adopted
        base.toNat)).next_pkid ∧
    ((spentOwner cursor base index).useUp n).send.2.inflight.block =
      some { index, base := base.toNat }) ∧
    ∃ flag task, (spentOwner cursor base index).useUp (n + 1) =
      { inflight := { Inflight.advance^[n + 1] ((spentOwner cursor base index).inflight.adopted
          base.toNat) with reserve_outstanding := flag }, task } := by
  induction n with
  | zero =>
    have hadopt : (spentOwner cursor base index).inflight.adopt =
        some ((spentOwner cursor base index).inflight.adopted base.toNat) := rfl
    obtain ⟨hid, hblock, flag, task, heq⟩ := Owner.send_free hadopt rfl rfl
    have hfirst : ((spentOwner cursor base index).useUp 0).send.1 = some
      ((spentOwner cursor base index).inflight.adopted base.toNat).advance.next_pkid := hid
    exact ⟨⟨hid, hblock⟩, flag, task, (Owner.useUp_succ hfirst).trans heq⟩
  | succ n ih =>
    obtain ⟨_, flag, task, hprev⟩ := ih (by omega)
    obtain ⟨⟨hpending, horphaned, hblock⟩, hremaining⟩ := Inflight.iterate_advance
      ((spentOwner cursor base index).inflight.adopted base.toNat) (n + 1)
    have hmore : (Inflight.advance^[n + 1]
        ((spentOwner cursor base index).inflight.adopted base.toNat)).block_remaining ≠ 0 := by
      rw [hremaining]
      have hfull : ((spentOwner cursor base index).inflight.adopted base.toNat).block_remaining =
        PKID_BLOCK := rfl
      rw [hfull]
      omega
    have hadopt : ((spentOwner cursor base index).useUp (n + 1)).inflight.adopt =
        some { Inflight.advance^[n + 1] ((spentOwner cursor base index).inflight.adopted
          base.toNat) with reserve_outstanding := flag } := by
      rw [hprev]
      exact if_neg hmore
    obtain ⟨hid, hin, flag', task', heq⟩ := Owner.send_free hadopt hpending horphaned
    rw [Function.iterate_succ_apply']
    exact ⟨⟨hid, hin.trans hblock⟩, flag', task', (Owner.useUp_succ hid).trans heq⟩

/-- A block hands out its own ids only, however far it is used, exactly when it fits. -/
theorem block_is_kept_iff_fits (cursor base : UInt16) (index : Nat) :
    (∀ n id, n < PKID_BLOCK → ((spentOwner cursor base index).useUp n).send.1 = some id →
      InBlock base.toNat id) ↔
    (spentOwner cursor base index).inflight.Fits { index, base := base.toNat } := by
  have hbase := base.toNat_lt
  have hcursor := cursor.toNat_lt
  have hids : ∀ n < PKID_BLOCK, ((spentOwner cursor base index).useUp n).send.1 = some
      (if (if base.toNat ≠ 0 then base.toNat else cursor.toNat) + (n + 1) < 65536
        then (if base.toNat ≠ 0 then base.toNat else cursor.toNat) + (n + 1)
        else (if base.toNat ≠ 0 then base.toNat else cursor.toNat) + (n + 1) - 65535) := by
    intro n hn
    rw [(useUp_send cursor base index n hn).1.1, Inflight.cursor_iterate _ ?_ n hn]
    · rfl
    · simp only [Inflight.adopted, spentOwner]
      split
      · exact hbase
      · exact hcursor
  have hspent : (spentOwner cursor base index).inflight.spentCursor = cursor.toNat := rfl
  unfold Inflight.Fits
  rw [hspent]
  constructor
  · intro hin
    by_cases hzero : base.toNat = 0
    · simp only [hzero, ne_eq, not_true_eq_false, if_false] at hids hin ⊢
      refine ⟨by simp [PKID_BLOCK], ?_⟩
      intro _
      obtain ⟨_, k, hk, hle, hid⟩ := hin 0 _ (by simp [PKID_BLOCK]) (hids 0 (by simp [PKID_BLOCK]))
      obtain ⟨_, k', hk', hle', hid'⟩ :=
        hin 1023 _ (by simp [PKID_BLOCK]) (hids 1023 (by simp [PKID_BLOCK]))
      simp only [PKID_BLOCK] at hle hle'
      split at hid
      · split at hid'
        · omega
        · omega
      · omega
    · simp only [ne_eq, hzero, not_false_eq_true, if_true] at hids
      refine ⟨?_, fun h => absurd h hzero⟩
      obtain ⟨_, k, hk, hle, hid⟩ :=
        hin 1023 _ (by simp [PKID_BLOCK]) (hids 1023 (by simp [PKID_BLOCK]))
      simp only [PKID_BLOCK] at hle ⊢
      split at hid
      · omega
      · omega
  · rintro ⟨hend, hzero⟩ n id hn hid
    cases (hids n hn).symm.trans hid
    simp only [PKID_BLOCK] at hend hn
    by_cases hb : base.toNat = 0
    · simp only [hb, ne_eq, not_true_eq_false, if_false]
      refine ⟨?_, n + 1, by omega, by simp only [PKID_BLOCK]; omega, ?_⟩
      · split
        · omega
        · omega
      · rcases hzero hb with hc | hc
        · rw [hc]
          split
          · omega
          · omega
        · rw [hc]
          split
          · omega
          · omega
    · simp only [ne_eq, hb, not_false_eq_true, if_true]
      rw [if_pos (by omega)]
      refine ⟨by omega, n + 1, by omega, by simp only [PKID_BLOCK]; omega, ?_⟩
      omega

namespace Session

/-- Deliveries of the first owner, each released before the next. -/
def deliveries (n : Nat) : List Step :=
  (List.range n).flatMap (fun k => [.Send 0, .Release 0 (64513 + k)])

/-- An owner takes over a session whose high-water is 64512, uses its block up, and another
owner takes over. -/
def pastTheEnd : List Step :=
  [.Takeover, .Attach 0, .Serve 0 true, .Answer 0] ++ (deliveries 1023 ++
    [.Send 0, .Takeover, .Attach 1, .Serve 1 true, .Answer 1, .Send 1])

theorem useUp_send_64512 (n : Nat) (hn : n < PKID_BLOCK) :
    ((spentOwner 0 64512 0).useUp n).send.1 =
      some (if n = 1023 then 1 else 64513 + n) := by
  rw [(useUp_send 0 64512 0 n hn).1.1, Inflight.cursor_iterate _ (by decide) n hn]
  have hcursor : ((spentOwner 0 64512 0).inflight.adopted (64512 : UInt16).toNat).next_pkid =
    64512 := rfl
  rw [hcursor]
  simp only [PKID_BLOCK] at hn
  congr 1
  split
  · rw [if_neg (by omega)]
    omega
  · rw [if_pos (by omega)]
    omega

theorem run_append (s : Session) (before after : List Step) :
    run s (before ++ after) = run (run s before) after := by
  simp [run]

theorem run_deliveries (n : Nat) (hn : n < PKID_BLOCK) :
    ∃ handed, run { record := { last_packet_id := 0, reserved := 1 },
                    owners := [spentOwner 0 64512 0] } (deliveries n) =
      { record := { last_packet_id := 0, reserved := 1 }
        owners := [(spentOwner 0 64512 0).useUp n]
        handed } := by
  induction n with
  | zero => exact ⟨[], rfl⟩
  | succ n ih =>
    obtain ⟨handed, heq⟩ := ih (by omega)
    have hid := useUp_send_64512 n (by omega)
    simp only [PKID_BLOCK] at hn
    rw [if_neg (by omega)] at hid
    rw [deliveries, List.range_succ, List.flatMap_append, run_append, ← deliveries, heq,
      Owner.useUp]
    generalize (spentOwner 0 64512 0).useUp n = o at hid ⊢
    simp only [run, List.flatMap_cons, List.flatMap_nil, List.append_nil, List.foldl_cons,
      List.foldl_nil, step, act, List.getElem?_cons_zero, Session.send]
    generalize o.send = r at hid
    obtain ⟨id, o'⟩ := r
    cases hid
    exact ⟨_, rfl⟩

theorem run_open : run (start 64512) [.Takeover, .Attach 0, .Serve 0 true, .Answer 0] =
    { record := { last_packet_id := 0, reserved := 1 }, owners := [spentOwner 0 64512 0] } := rfl

theorem handed_second_owner {o : Owner} (handed : List Handed) (hid : o.send.1 = some 1)
    (hblock : o.send.2.inflight.block = some { index := 0, base := 64512 }) :
    (run { record := { last_packet_id := 0, reserved := 1 }, owners := [o], handed }
      [.Send 0, .Takeover, .Attach 1, .Serve 1 true, .Answer 1, .Send 1]).handed =
    [{ owner := 1, block := some { index := 1, base := 0 }, id := 1 },
      { owner := 0, block := some { index := 0, base := 64512 }, id := 1 }] ++ handed := by
  have hsend : step { record := { last_packet_id := 0, reserved := 1 }, owners := [o], handed }
      (.Send 0) =
    { record := { last_packet_id := 0, reserved := 1 }
      owners := [o.send.2]
      handed := { owner := 0, block := some { index := 0, base := 64512 }, id := 1 } ::
        handed } := by
    simp only [step, act, List.getElem?_cons_zero, Session.send, hid, hblock]
    rfl
  simp only [run, List.foldl_cons, List.foldl_nil, hsend]
  rfl

/-- The last id of the first block is 1, which is not one of its own, and the next owner hands
it out again under the next block. -/
theorem a_block_past_the_end_hands_out_an_id_of_the_next :
    { owner := 0, block := some { index := 0, base := 64512 }, id := 1 } ∈
        (run (start 64512) pastTheEnd).handed ∧
      ¬ InBlock 64512 1 ∧
      { owner := 1, block := some { index := 1, base := 0 }, id := 1 } ∈
        (run (start 64512) pastTheEnd).handed := by
  have hlast : 1023 < PKID_BLOCK := by simp [PKID_BLOCK]
  obtain ⟨handed, hused⟩ := run_deliveries 1023 hlast
  have hid := useUp_send_64512 1023 hlast
  rw [if_pos rfl] at hid
  have hblock := (useUp_send 0 64512 0 1023 hlast).1.2
  have hhanded : (run (start 64512) pastTheEnd).handed =
      [{ owner := 1, block := some { index := 1, base := 0 }, id := 1 },
        { owner := 0, block := some { index := 0, base := 64512 }, id := 1 }] ++ handed := by
    rw [pastTheEnd, run_append, run_append, run_open, hused]
    exact handed_second_owner handed hid hblock
  refine ⟨?_, ?_, ?_⟩
  · simp [hhanded]
  · rintro ⟨_, k, hk, hle, hid⟩
    simp only [PKID_BLOCK] at hle
    omega
  · simp [hhanded]

end Session

end mqttd.hub.delivery
