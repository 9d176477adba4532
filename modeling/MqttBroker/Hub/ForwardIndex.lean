-- The index of forward numbers holds just the outstanding answers of the pending
-- publishes, as long as every answer comes from the node that its forward went to:
-- an answer of another node takes the number out of the index and leaves the publish.
import MqttBroker.Hub.Forwarding

namespace mqttd.hub.forwarding.Hub

open mqttd.hub.shards (PublishRefusal DurableOutcome PublishOutcome)

/-! ## The obligations and the index -/

def obligation (h : Hub) (id seq : Nat) : Option ForwardObligation :=
  h.pending_publishes[id]?.bind (fun p => p.awaiting[seq]?)

/-- The index leads from a number to a publish just when the publish awaits it. -/
def Indexed (h : Hub) : Prop :=
  ∀ seq id, h.forward_index[seq]? = some id ↔ ∃ o, h.obligation id seq = some o

/-- The index is exact, and no number and no publish id is used before its turn. -/
structure Sound (h : Hub) : Prop where
  indexed : Indexed h
  fresh : ∀ seq id, h.forward_index[seq]? = some id → seq ≤ h.forward_seq
  ids : ∀ (id : Nat) p, h.pending_publishes[id]? = some p → id ≤ h.publish_ids

variable {h : Hub} {id seq : Nat} {o : ForwardObligation}

theorem Sound.number_fresh (hs : Sound h) (ho : h.obligation id seq = some o) :
    seq ≤ h.forward_seq :=
  hs.fresh seq id ((hs.indexed seq id).mpr ⟨o, ho⟩)

theorem Sound.one_publish (hs : Sound h) {id' : Nat} {o' : ForwardObligation}
    (ho : h.obligation id seq = some o) (ho' : h.obligation id' seq = some o') : id = id' := by
  have hid := (hs.indexed seq id).mpr ⟨o, ho⟩
  have hid' := (hs.indexed seq id').mpr ⟨o', ho'⟩
  exact Option.some.inj (hid.symm.trans hid')

/-! ## Changes of an entry -/

theorem pending_alter (h : Hub) (id id' : Nat) (f : PendingPublish → PendingPublish) :
    (h.alter id f).pending_publishes[id']? =
      if id' = id then h.pending_publishes[id]?.map f else h.pending_publishes[id']? := by
  unfold alter
  cases hp : h.pending_publishes[id]? with
  | none =>
    by_cases hid : id' = id
    · simp [hid, hp]
    · simp [hid]
  | some p =>
    simp only [BTreeMap.get_insert]
    by_cases hid : id' = id
    · simp [hid]
    · simp [hid, Ne.symm hid]

theorem alter_frame (h : Hub) (id : Nat) (f : PendingPublish → PendingPublish) :
    (h.alter id f).forward_index = h.forward_index ∧
      (h.alter id f).forward_seq = h.forward_seq ∧
      (h.alter id f).publish_ids = h.publish_ids ∧
      (h.alter id f).drain_gated = h.drain_gated := by
  unfold alter
  split
  · exact ⟨rfl, rfl, rfl, rfl⟩
  · exact ⟨rfl, rfl, rfl, rfl⟩

theorem obligation_alter (h : Hub) (id id' seq : Nat) (f : PendingPublish → PendingPublish) :
    (h.alter id f).obligation id' seq =
      if id' = id then h.pending_publishes[id]?.bind (fun p => (f p).awaiting[seq]?)
      else h.obligation id' seq := by
  unfold obligation
  rw [pending_alter]
  split
  · cases h.pending_publishes[id]? with
    | none => rfl
    | some p => rfl
  · rfl

theorem alter_ids (hids : ∀ (id : Nat) p, h.pending_publishes[id]? = some p → id ≤ h.publish_ids)
    (id : Nat) (f : PendingPublish → PendingPublish) :
    ∀ (id' : Nat) p, (h.alter id f).pending_publishes[id']? = some p →
      id' ≤ (h.alter id f).publish_ids := by
  intro id' p hp
  rw [pending_alter] at hp
  rw [(alter_frame h id f).2.2.1]
  split at hp
  · next hid =>
    obtain ⟨q, hq, -⟩ := Option.map_eq_some_iff.mp hp
    exact hid ▸ hids id q hq
  · exact hids id' p hp

theorem Sound.alter (hs : Sound h) (id : Nat) {f : PendingPublish → PendingPublish}
    (hf : ∀ p, (f p).awaiting = p.awaiting) : Sound (h.alter id f) := by
  obtain ⟨hindex, hseq, -, -⟩ := alter_frame h id f
  have hsame : ∀ id' seq, (h.alter id f).obligation id' seq = h.obligation id' seq := by
    intro id' seq
    rw [obligation_alter]
    split
    · next hid => simp [obligation, hid, hf]
    · rfl
  refine ⟨?_, ?_, alter_ids hs.ids id f⟩
  · intro seq id'
    rw [hindex, hsame]
    exact hs.indexed seq id'
  · intro seq id' hi
    rw [hindex] at hi
    rw [hseq]
    exact hs.fresh seq id' hi

theorem obligation_release (h : Hub) (id seq id' seq' : Nat) :
    (h.release id seq).obligation id' seq' =
      if id' = id ∧ seq' = seq then none else h.obligation id' seq' := by
  have halter : (h.release id seq).obligation id' seq' =
      (h.alter id (fun p => { p with awaiting := p.awaiting.erase seq })).obligation id' seq' := rfl
  rw [halter, obligation_alter]
  by_cases hid : id' = id
  · subst hid
    simp only [if_true, true_and, obligation, BTreeMap.get_erase]
    by_cases hseq : seq' = seq
    · cases h.pending_publishes[id']? with
      | none => simp
      | some p => simp [hseq]
    · simp [hseq, Ne.symm hseq]
  · simp [hid]

/-- A number that is outstanding for no other publish is taken off the publish and out of
the index. -/
theorem Sound.release (hs : Sound h) (honly : ∀ id', h.forward_index[seq]? = some id' → id' = id) :
    Sound (h.release id seq) := by
  obtain ⟨-, hseq, -, -⟩ := alter_frame h id (fun p => { p with awaiting := p.awaiting.erase seq })
  refine ⟨?_, ?_, alter_ids hs.ids id _⟩
  · intro seq' id'
    rw [obligation_release]
    simp only [Hub.release, BTreeMap.get_erase]
    by_cases heq : seq' = seq
    · subst heq
      simp only [if_true, and_true]
      constructor
      · intro hnone
        cases hnone
      · rintro ⟨o, ho⟩
        by_cases hid : id' = id
        · simp [hid] at ho
        · rw [if_neg hid] at ho
          exact absurd (honly id' ((hs.indexed seq' id').mpr ⟨o, ho⟩)) hid
    · rw [if_neg (Ne.symm heq)]
      simp only [heq, and_false, if_false]
      exact hs.indexed seq' id'
  · intro seq' id' hi
    simp only [Hub.release, BTreeMap.get_erase] at hi
    split at hi
    · cases hi
    · exact hseq ▸ hs.fresh seq' id' hi

theorem Sound.only (hs : Sound h) (ho : h.obligation id seq = some o) :
    ∀ id', h.forward_index[seq]? = some id' → id' = id := by
  intro id' hi
  obtain ⟨o', ho'⟩ := (hs.indexed seq id').mp hi
  exact hs.one_publish ho' ho

/-! ## Entries that leave -/

theorem obligation_remove (h : Hub) (id id' seq : Nat) (p : PendingPublish) :
    (h.remove id p).obligation id' seq = if id' = id then none else h.obligation id' seq := by
  simp only [obligation, Hub.remove, BTreeMap.get_erase]
  by_cases hid : id' = id
  · simp [hid]
  · simp [hid, Ne.symm hid]

theorem remove_ids (hids : ∀ (id : Nat) p, h.pending_publishes[id]? = some p → id ≤ h.publish_ids)
    (id : Nat) (p : PendingPublish) :
    ∀ (id' : Nat) q, (h.remove id p).pending_publishes[id']? = some q → id' ≤ h.publish_ids := by
  intro id' q hq
  simp only [Hub.remove, BTreeMap.get_erase] at hq
  split at hq
  · cases hq
  · exact hids id' q hq

/-- An entry that awaits nothing leaves the table. -/
theorem Sound.remove (hs : Sound h) (p : PendingPublish)
    (hempty : ∀ seq, h.obligation id seq = none) : Sound (h.remove id p) := by
  refine ⟨?_, hs.fresh, remove_ids hs.ids id p⟩
  intro seq id'
  rw [obligation_remove]
  have hindexed : (h.remove id p).forward_index[seq]? = some id' ↔
      ∃ o, h.obligation id' seq = some o := hs.indexed seq id'
  rw [hindexed]
  split
  · next hid =>
    rw [hid, hempty seq]
  · rfl

variable {p : PendingPublish}

theorem Sound.forget (hs : Sound h) (hp : h.pending_publishes[id]? = some p) :
    Sound ((h.remove id p).forget_forwards p) := by
  have hindex : ∀ seq, ((h.remove id p).forget_forwards p).forward_index[seq]? =
      if seq ∈ p.awaiting.keys then none else h.forward_index[seq]? :=
    fun seq => BTreeMap.get_foldl_erase p.awaiting.keys h.forward_index seq
  have hmine : ∀ seq, seq ∈ p.awaiting.keys ↔ ∃ o, h.obligation id seq = some o := by
    intro seq
    rw [BTreeMap.mem_keys]
    simp [obligation, hp]
  refine ⟨?_, ?_, remove_ids hs.ids id p⟩
  · intro seq id'
    rw [hindex]
    have hobl : ((h.remove id p).forget_forwards p).obligation id' seq =
        (h.remove id p).obligation id' seq := rfl
    rw [hobl, obligation_remove]
    by_cases hid : id' = id
    · -- the entry is gone, and so are its numbers
      subst hid
      simp only [if_true]
      constructor
      · intro hi
        split at hi
        · cases hi
        · next hnot => exact absurd ((hs.indexed seq id').mp hi) ((hmine seq).not.mp hnot)
      · rintro ⟨o, ho⟩
        cases ho
    · rw [if_neg hid]
      by_cases hkey : seq ∈ p.awaiting.keys
      · rw [if_pos hkey]
        obtain ⟨o, ho⟩ := (hmine seq).mp hkey
        constructor
        · intro hnone
          cases hnone
        · rintro ⟨o', ho'⟩
          exact absurd (hs.one_publish ho' ho) hid
      · rw [if_neg hkey]
        exact hs.indexed seq id'
  · intro seq id' hi
    rw [hindex] at hi
    split at hi
    · cases hi
    · exact hs.fresh seq id' hi

variable {h' : Hub}

/-- What publishers were told and which publishes the drain gated is no part of it. -/
theorem Sound.congr (hs : Sound h) (hp : h'.pending_publishes = h.pending_publishes)
    (hi : h'.forward_index = h.forward_index) (hseq : h'.forward_seq = h.forward_seq)
    (hids : h'.publish_ids = h.publish_ids) : Sound h' := by
  have hobl : ∀ id seq, h'.obligation id seq = h.obligation id seq := by
    intro id seq
    simp only [obligation, hp]
  refine ⟨?_, ?_, ?_⟩
  · intro seq id
    rw [hi, hobl]
    exact hs.indexed seq id
  · intro seq id hindex
    rw [hi] at hindex
    rw [hseq]
    exact hs.fresh seq id hindex
  · intro id p hpid
    rw [hp] at hpid
    rw [hids]
    exact hs.ids id p hpid

/-! ## The paths that answer a publisher -/

theorem obligations_done_empty (h : p.obligations_done = true) : p.awaiting.isEmpty = true := by
  simp only [PendingPublish.obligations_done, Bool.and_eq_true, Bool.or_eq_true] at h
  rcases h.2 with ⟨⟨-, hempty⟩, -⟩ | ⟨⟨-, hempty⟩, -⟩
  · exact hempty
  · exact hempty

theorem Sound.try_complete (hs : Sound h) (id : Nat) : Sound (h.try_complete_pending id) := by
  unfold try_complete_pending
  cases hp : h.pending_publishes[id]? with
  | none => exact hs
  | some p =>
    dsimp only
    split
    · exact hs
    · next hdone =>
      have hdone : p.obligations_done = true := by simpa using hdone
      have hempty : ∀ seq, h.obligation id seq = none := by
        intro seq
        simp only [obligation, hp]
        exact (BTreeMap.isEmpty_iff p.awaiting).mp (obligations_done_empty hdone) seq
      generalize htold : (if (!p.ack_awaits_settle && p.waiting) = true then
        { h with told := (id, .Accepted) :: h.told } else h) = answered
      have hanswered : Sound answered ∧ answered.pending_publishes = h.pending_publishes := by
        subst htold
        split
        · exact ⟨hs.congr rfl rfl rfl rfl, rfl⟩
        · exact ⟨hs, rfl⟩
      have hnone : ∀ seq, answered.obligation id seq = none := by
        intro seq
        simp only [obligation, hanswered.2]
        exact hempty seq
      split
      · exact hanswered.1.remove _ hnone
      · have hput : Sound (answered.alter id
            (fun p => { p with waiting := p.waiting && p.ack_awaits_settle })) :=
          hanswered.1.alter id (fun _ => rfl)
        unfold Hub.alter at hput
        rw [hanswered.2, hp] at hput
        rw [hanswered.2]
        exact hput

theorem Sound.drop (hs : Sound h) (id : Nat) : Sound (h.drop_pending id) := by
  unfold drop_pending
  split
  · next p hp => exact hs.forget hp
  · exact hs

theorem Sound.refuse (hs : Sound h) (id : Nat) (r : PublishRefusal) :
    Sound (h.refuse_pending id r) := by
  unfold refuse_pending
  split
  · exact hs
  · next p hp =>
    have hforget := hs.forget hp
    dsimp only
    split
    · exact hforget
    · exact hforget.congr rfl rfl rfl rfl

theorem Sound.evict (hs : Sound h) (cost now turns : Nat) : Sound (h.evict cost now turns) := by
  induction turns generalizing h with
  | zero => exact hs
  | succ turns ih =>
    unfold Hub.evict
    split
    · exact hs
    · split
      · exact hs
      · split
        · exact hs
        · next e rest hlist =>
          have hmem : e ∈ h.pending_publishes.toList := by simp [hlist]
          exact ih (hs.forget ((BTreeMap.mem_toList _ _ _).mp hmem))

theorem Sound.register_pending (hs : Sound h) (cost now : Nat) (unsettled : Bool) :
    Sound (h.register_pending cost now unsettled) := by
  have he := hs.evict cost now h.pending_publishes.size
  unfold Hub.register_pending
  generalize h.evict cost now h.pending_publishes.size = roomy at he ⊢
  have hnew : roomy.pending_publishes[roomy.publish_ids + 1]? = none := by
    cases hp : roomy.pending_publishes[roomy.publish_ids + 1]? with
    | none => rfl
    | some p =>
      have hle := he.ids _ p hp
      omega
  refine ⟨?_, he.fresh, ?_⟩
  · intro seq id
    rw [he.indexed seq id]
    simp only [obligation, BTreeMap.get_insert]
    by_cases hid : roomy.publish_ids + 1 = id
    · subst hid
      simp [hnew]
    · simp [hid]
  · intro id p hp
    simp only [BTreeMap.get_insert] at hp
    split at hp
    · next hid => exact le_of_eq hid.symm
    · exact Nat.le_succ_of_le (he.ids id p hp)

/-! ## Forwards -/

theorem Sound.register_forward (hs : Sound h) (id : Nat) (o : ForwardObligation) (ready : Bool) :
    Sound (h.register_forward id o ready) := by
  have hnext : Sound { h with forward_seq := h.forward_seq + 1 } :=
    ⟨hs.indexed, fun seq id hi => Nat.le_succ_of_le (hs.fresh seq id hi), hs.ids⟩
  unfold Hub.register_forward
  dsimp only
  split
  · exact hnext
  · next p hp =>
    have hp : h.pending_publishes[id]? = some p := hp
    have hfresh : ∀ id', h.obligation id' (h.forward_seq + 1) = none := by
      intro id'
      cases ho : h.obligation id' (h.forward_seq + 1) with
      | none => rfl
      | some o' =>
        have hle := hs.number_fresh ho
        omega
    refine ⟨?_, ?_, ?_⟩
    · intro seq id'
      simp only [obligation, BTreeMap.get_insert]
      by_cases hseq : h.forward_seq + 1 = seq
      · subst hseq
        have hother := hfresh id'
        simp only [obligation] at hother
        by_cases hid : id = id'
        · simp [hid]
        · simp [hid, hother]
      · rw [if_neg hseq, hs.indexed seq id']
        by_cases hid : id = id'
        · subst hid
          simp [obligation, hp, BTreeMap.get_insert, hseq]
        · simp [obligation, hid]
    · intro seq id' hi
      simp only [BTreeMap.get_insert] at hi
      split at hi
      · next hseq => exact le_of_eq hseq.symm
      · exact Nat.le_succ_of_le (hs.fresh seq id' hi)
    · intro id' q hq
      simp only [BTreeMap.get_insert] at hq
      split at hq
      · next hid => exact hid ▸ hs.ids id p hp
      · exact hs.ids id' q hq

/-- Numbers of one publish are taken off it one after another. -/
theorem Sound.releases (hs : Sound h) (id : Nat) (seqs : List Nat)
    (honly : ∀ seq ∈ seqs, ∀ id', h.forward_index[seq]? = some id' → id' = id) :
    Sound (seqs.foldl (fun h seq => h.release id seq) h) := by
  induction seqs generalizing h with
  | nil => exact hs
  | cons seq seqs ih =>
    refine ih (hs.release (honly seq (by simp))) ?_
    intro seq' hmem id' hi
    simp only [Hub.release, BTreeMap.get_erase] at hi
    split at hi
    · cases hi
    · exact honly seq' (by simp [hmem]) id' hi

theorem Sound.discharge (hs : Sound h) (id : Nat) (durable_plane : Bool)
    (unreachable : List NodeId) : Sound (h.discharge_unreachable id durable_plane unreachable) := by
  unfold discharge_unreachable
  split
  · exact hs
  · split
    · exact hs
    · next p hp =>
      refine hs.releases id _ ?_
      intro seq hmem
      obtain ⟨e, he, rfl⟩ := List.mem_map.mp hmem
      have hawait : p.awaiting[e.1]? = some e.2 :=
        (BTreeMap.mem_toList _ _ _).mp (List.mem_filter.mp he).1
      have ho : h.obligation id e.1 = some e.2 := by simp [obligation, hp, hawait]
      exact hs.only ho

theorem Sound.send_owed (hs : Sound h) (node : NodeId) (shared : Bool) :
    Sound (h.send_owed_to node shared) := by
  have hobl : ∀ id seq, (∃ o, (h.send_owed_to node shared).obligation id seq = some o) ↔
      ∃ o, h.obligation id seq = some o := by
    intro id seq
    simp only [obligation, send_owed_to, BTreeMap.get_map]
    cases h.pending_publishes[id]? with
    | none => simp
    | some p =>
      simp only [Option.map_some, Option.bind_some, BTreeMap.get_map]
      cases p.awaiting[seq]? with
      | none => simp
      | some o => simp
  refine ⟨?_, hs.fresh, ?_⟩
  · intro seq id
    rw [hobl]
    exact hs.indexed seq id
  · intro id p hp
    simp only [send_owed_to, BTreeMap.get_map] at hp
    obtain ⟨q, hq, -⟩ := Option.map_eq_some_iff.mp hp
    exact hs.ids id q hq

/-! ## A `$share` delivery placed again -/

theorem Sound.exhausted (hs : Sound h) (id : Nat) (last : DurableOutcome) :
    Sound (h.shared_exhausted id last) := by
  unfold shared_exhausted
  split
  · exact hs.try_complete id
  · split
    · exact hs.refuse id _
    · exact hs.drop id

theorem Sound.placement_exhausted (hs : Sound h) (id : Nat) (g : Group) :
    Sound (h.shared_placement_exhausted id g) := by
  unfold shared_placement_exhausted
  split
  · exact hs.try_complete id
  · split
    · exact hs.drop id
    · split
      · exact hs.try_complete id
      · exact hs.alter id (fun _ => rfl)

theorem Sound.reselect_loop (hs : Sound h) (id : Nat) (g : Group) (key : String × String)
    (tried : List (Option NodeId × ClientId)) (last : Option DurableOutcome)
    (chosen : List Chosen) : Sound (h.reselect_loop id g key tried last chosen) := by
  induction chosen generalizing h tried last with
  | nil =>
    unfold Hub.reselect_loop
    split
    · exact hs
    · split
      · exact hs.exhausted id _
      · exact hs.placement_exhausted id g
  | cons c rest ih =>
    cases c with
    | Here client appends out =>
      have hsubmit : Sound (h.alter id
          (fun p => { p with appends_outstanding := p.appends_outstanding + appends })) :=
        hs.alter id (fun _ => rfl)
      unfold Hub.reselect_loop
      split
      · exact hs
      · dsimp only
        split
        · exact hsubmit.try_complete id
        · exact hsubmit.drop id
        · exact ih hsubmit _ _
    | There node client qos answerable ready =>
      unfold Hub.reselect_loop
      split
      · exact hs
      · split
        · exact hs.register_forward id _ ready
        · exact hs.try_complete id

theorem Sound.reselect (hs : Sound h) (id : Nat) (o : ForwardObligation) (why : Reselect)
    (g : Group) : Sound (h.reselect_shared id o why g) := by
  unfold reselect_shared
  split
  · exact hs
  · exact hs.reselect_loop id g _ _ _ _

theorem Sound.place_again (hs : Sound h) (owed : List (Nat × Nat)) (why : Reselect)
    (group : Nat → Group) : Sound (h.place_again owed why group) := by
  unfold Hub.place_again
  induction owed generalizing h with
  | nil => exact hs
  | cons e owed ih =>
    rw [List.foldl_cons]
    apply ih
    split
    · exact hs
    · next o ho =>
      have ho : h.obligation e.1 e.2 = some o := ho
      exact (hs.release (hs.only ho)).reselect e.1 o why (group e.2)

theorem Sound.erase_releases (hs : Sound h) (owed : List (Nat × Nat × ForwardObligation))
    (honly : ∀ a ∈ owed, ∀ id', h.forward_index[a.2.1]? = some id' → id' = a.1) :
    Sound (owed.foldl (fun h a =>
      let h := h.release a.1 a.2.1
      if a.2.2.kind.shared then h
      else h.alter a.1 (fun p => { p with reroute_grace := some 1 })) h) := by
  induction owed generalizing h with
  | nil => exact hs
  | cons a owed ih =>
    have hrelease := hs.release (honly a (by simp))
    have hindex : ∀ a' ∈ owed, ∀ id', (h.release a.1 a.2.1).forward_index[a'.2.1]? = some id' →
        id' = a'.1 := by
      intro a' ha' id' hi
      simp only [Hub.release, BTreeMap.get_erase] at hi
      split at hi
      · cases hi
      · exact honly a' (by simp [ha']) id' hi
    rw [List.foldl_cons]
    dsimp only
    split
    · exact ih hrelease hindex
    · refine ih (hrelease.alter a.1 (fun _ => rfl)) ?_
      intro a' ha' id' hi
      rw [(alter_frame _ _ _).1] at hi
      exact hindex a' ha' id' hi

theorem Sound.erase_peer (hs : Sound h) (node : NodeId) (group : Nat → Group) :
    Sound (h.erase_peer node group) := by
  have hreselects : ∀ (l : List (Nat × Nat × ForwardObligation)) (h : Hub), Sound h →
      Sound (l.foldl (fun h a => h.reselect_shared a.1 a.2.2 .MemberGone (group a.2.1)) h) := by
    intro l
    induction l with
    | nil => exact fun h hs => hs
    | cons a l ih => exact fun h hs => ih _ (hs.reselect a.1 a.2.2 .MemberGone (group a.2.1))
  unfold Hub.erase_peer
  dsimp only
  apply hreselects
  apply hs.erase_releases
  intro a ha
  obtain ⟨e, he, hin⟩ := List.mem_flatMap.mp ha
  obtain ⟨b, hb, rfl⟩ := List.mem_map.mp hin
  have hp : h.pending_publishes[e.1]? = some e.2 := (BTreeMap.mem_toList _ _ _).mp he
  have hawait : e.2.awaiting[b.1]? = some b.2 :=
    (BTreeMap.mem_toList _ _ _).mp (List.mem_filter.mp hb).1
  have ho : h.obligation e.1 b.1 = some b.2 := by simp [obligation, hp, hawait]
  exact hs.only ho

/-! ## Answers -/

/-- The answer comes from the node that the forward of this number went to, where the
number is outstanding. -/
def NamedBy (h : Hub) (node : NodeId) (seq : Nat) : Prop :=
  ∀ id o, h.obligation id seq = some o → o.node = node

variable {node : NodeId}

theorem Sound.answered (hs : Sound h) (hnamed : NamedBy h node seq) (verdict : ForwardVerdict)
    (g : Group) : Sound (h.forward_answered node seq verdict g) := by
  unfold forward_answered
  cases hi : h.forward_index[seq]? with
  | none => exact hs
  | some id =>
    obtain ⟨o, ho⟩ := (hs.indexed seq id).mp hi
    obtain ⟨p, hp, hawait⟩ := Option.bind_eq_some_iff.mp ho
    have hrelease : Sound (Hub.alter { h with forward_index := h.forward_index.erase seq } id
        (fun p => { p with awaiting := p.awaiting.erase seq })) := by
      refine (hs.release (hs.only ho)).congr ?_ ?_ ?_ ?_
      all_goals simp [Hub.release, Hub.alter, hp]
    have hnode : ¬ o.node ≠ node := fun hne => hne (hnamed id o ho)
    simp only [hp, hawait, if_neg hnode]
    generalize Hub.alter { h with forward_index := h.forward_index.erase seq } id
      (fun p => { p with awaiting := p.awaiting.erase seq }) = released at hrelease ⊢
    split
    · apply Sound.try_complete
      apply hrelease.alter
      intro p
      rfl
    · split
      · exact hrelease.reselect id o .MemberGone g
      · exact hrelease.drop id
    · split
      · exact hrelease.reselect id o _ g
      · split
        · exact hrelease.try_complete id
        · exact hrelease.refuse id _

theorem answered_by_another (hs : Sound h) (ho : h.obligation id seq = some o)
    (hne : o.node ≠ node) (verdict : ForwardVerdict) (g : Group) :
    h.forward_answered node seq verdict g =
      { h with forward_index := h.forward_index.erase seq } := by
  have hi : h.forward_index[seq]? = some id := (hs.indexed seq id).mpr ⟨o, ho⟩
  obtain ⟨p, hp, hawait⟩ := Option.bind_eq_some_iff.mp ho
  unfold forward_answered
  simp only [hi, hp, hawait, if_pos hne]

theorem answered_by_another_unindexed (hs : Sound h) (ho : h.obligation id seq = some o)
    (hne : o.node ≠ node) (verdict : ForwardVerdict) (g : Group) :
    ¬ Indexed (h.forward_answered node seq verdict g) := by
  intro hindexed
  rw [answered_by_another hs ho hne] at hindexed
  have hi := (hindexed seq id).mpr ⟨o, ho⟩
  simp only [BTreeMap.get_erase, if_true] at hi
  cases hi

/-! ## A number that was taken -/

/-- A number is out of the index for good. -/
def Retired (seq : Nat) (h : Hub) : Prop := h.forward_index[seq]? = none ∧ seq ≤ h.forward_seq

theorem Retired.congr (hr : Retired seq h) (hi : h'.forward_index = h.forward_index)
    (hseq : h'.forward_seq = h.forward_seq) : Retired seq h' := by
  unfold Retired
  rw [hi, hseq]
  exact hr

theorem Retired.alter (hr : Retired seq h) (id : Nat) (f : PendingPublish → PendingPublish) :
    Retired seq (h.alter id f) :=
  hr.congr (alter_frame h id f).1 (alter_frame h id f).2.1

theorem Retired.try_complete (hr : Retired seq h) (id : Nat) :
    Retired seq (h.try_complete_pending id) := by
  unfold try_complete_pending
  split
  · exact hr
  · dsimp only
    repeat' split
    all_goals exact hr

theorem Retired.forget (hr : Retired seq h) (id : Nat) (p : PendingPublish) :
    Retired seq ((h.remove id p).forget_forwards p) := by
  refine ⟨?_, hr.2⟩
  have hindex := BTreeMap.get_foldl_erase p.awaiting.keys h.forward_index seq
  rw [hr.1, ite_self] at hindex
  exact hindex

theorem Retired.drop (hr : Retired seq h) (id : Nat) : Retired seq (h.drop_pending id) := by
  unfold drop_pending
  split
  · exact hr.forget id _
  · exact hr

theorem Retired.refuse (hr : Retired seq h) (id : Nat) (r : PublishRefusal) :
    Retired seq (h.refuse_pending id r) := by
  unfold refuse_pending
  split
  · exact hr
  · next p _ =>
    have hforget := hr.forget id p
    dsimp only
    split
    · exact hforget
    · exact hforget

theorem Retired.register_forward (hr : Retired seq h) (id : Nat) (o : ForwardObligation)
    (ready : Bool) : Retired seq (h.register_forward id o ready) := by
  obtain ⟨hi, hle⟩ := hr
  unfold Hub.register_forward
  dsimp only
  split
  · exact ⟨hi, Nat.le_succ_of_le hle⟩
  · refine ⟨?_, Nat.le_succ_of_le hle⟩
    rw [BTreeMap.get_insert, if_neg (by omega)]
    exact hi

theorem Retired.exhausted (hr : Retired seq h) (id : Nat) (g : Group)
    (last : Option DurableOutcome) : Retired seq (match last with
      | some last => h.shared_exhausted id last
      | none => h.shared_placement_exhausted id g) := by
  cases last with
  | none =>
    simp only [shared_placement_exhausted]
    split
    · exact hr.try_complete id
    · split
      · exact hr.drop id
      · split
        · exact hr.try_complete id
        · exact hr.alter id _
  | some last =>
    simp only [shared_exhausted]
    split
    · exact hr.try_complete id
    · split
      · exact hr.refuse id _
      · exact hr.drop id

theorem Retired.reselect_loop (hr : Retired seq h) (id : Nat) (g : Group) (key : String × String)
    (tried : List (Option NodeId × ClientId)) (last : Option DurableOutcome)
    (chosen : List Chosen) : Retired seq (h.reselect_loop id g key tried last chosen) := by
  induction chosen generalizing h tried last with
  | nil =>
    unfold Hub.reselect_loop
    split
    · exact hr
    · exact hr.exhausted id g last
  | cons c rest ih =>
    cases c with
    | Here client appends out =>
      have hsubmit := hr.alter id
        (fun p => { p with appends_outstanding := p.appends_outstanding + appends })
      unfold Hub.reselect_loop
      split
      · exact hr
      · dsimp only
        split
        · exact hsubmit.try_complete id
        · exact hsubmit.drop id
        · exact ih hsubmit _ _
    | There node client qos answerable ready =>
      unfold Hub.reselect_loop
      split
      · exact hr
      · split
        · exact hr.register_forward id _ ready
        · exact hr.try_complete id

theorem Retired.reselect (hr : Retired seq h) (id : Nat) (o : ForwardObligation) (why : Reselect)
    (g : Group) : Retired seq (h.reselect_shared id o why g) := by
  unfold reselect_shared
  split
  · exact hr
  · exact hr.reselect_loop id g _ _ _ _

theorem answered_retires (hs : Sound h) (hi : h.forward_index[seq]? = some id) (node : NodeId)
    (verdict : ForwardVerdict) (g : Group) :
    Retired seq (h.forward_answered node seq verdict g) := by
  have hr : Retired seq { h with forward_index := h.forward_index.erase seq } := by
    refine ⟨?_, hs.fresh seq id hi⟩
    rw [BTreeMap.get_erase, if_pos rfl]
  unfold forward_answered
  simp only [hi]
  split
  · exact hr
  · split
    · exact hr
    · split
      · exact hr
      · have hreleased := hr.alter id (fun p => { p with awaiting := p.awaiting.erase seq })
        split
        · exact (hreleased.alter id _).try_complete id
        · split
          · exact hreleased.reselect id _ .MemberGone g
          · exact hreleased.drop id
        · split
          · exact hreleased.reselect id _ _ g
          · split
            · exact hreleased.try_complete id
            · exact hreleased.refuse id _

theorem answered_is_taken (hs : Sound h) (ho : h.obligation id seq = some o)
    (verdict : ForwardVerdict) (g : Group) (id' : Nat) :
    (h.forward_answered o.node seq verdict g).obligation id' seq = none := by
  have hi : h.forward_index[seq]? = some id := (hs.indexed seq id).mpr ⟨o, ho⟩
  have hnamed : NamedBy h o.node seq := by
    intro id'' o'' ho''
    have hid : id'' = id := hs.one_publish ho'' ho
    rw [hid, ho] at ho''
    exact (congrArg ForwardObligation.node (Option.some.inj ho'')).symm
  have hretired := answered_retires hs hi o.node verdict g
  cases hleft : (h.forward_answered o.node seq verdict g).obligation id' seq with
  | none => rfl
  | some o' =>
    have hindex := ((hs.answered hnamed verdict g).indexed seq id').mpr ⟨o', hleft⟩
    cases hretired.1.symm.trans hindex

/-! ## Runs -/

/-- Every answer of a run comes from the node that its forward went to. -/
def Fine (h : Hub) : Step → Prop
  | .ForwardAnswered node seq _ _ => NamedBy h node seq
  | _ => True

def AllFine (h : Hub) : List Step → Prop
  | [] => True
  | s :: steps => Fine h s ∧ AllFine (h.step s) steps

theorem Sound.step (hs : Sound h) {s : Step} (hfine : Fine h s) : Sound (h.step s) := by
  cases s with
  | RegisterPending cost now unsettled => exact hs.register_pending cost now unsettled
  | RegisterForward id o ready => exact hs.register_forward id o ready
  | ForwardAnswered node seq verdict g => exact hs.answered hfine verdict g
  | DischargeUnreachable id durable_plane unreachable =>
    exact hs.discharge id durable_plane unreachable
  | SendOwed node shared => exact hs.send_owed node shared
  | PlaceAgain owed why group => exact hs.place_again owed why group
  | ErasePeer node group => exact hs.erase_peer node group
  | TryComplete id => exact hs.try_complete id
  | DropPending id => exact hs.drop id
  | RefusePending id r => exact hs.refuse id r
  | Advance id w => exact hs.alter id (fun _ => rfl)
  | DrainGate id => exact hs.congr rfl rfl rfl rfl

theorem Sound.run (hs : Sound h) (steps : List Step) (hfine : AllFine h steps) :
    Sound (h.run steps) := by
  induction steps generalizing h with
  | nil => exact hs
  | cons s steps ih => exact ih (hs.step hfine.1) hfine.2

theorem sound_start (forward_seq : Nat) : Sound (start forward_seq) := by
  refine ⟨?_, ?_, ?_⟩
  · intro seq id
    simp [start, obligation]
  · intro seq id hi
    simp [start] at hi
  · intro id p hp
    simp [start] at hp

/-- In every run whose answers come from the nodes that their forwards went to, the index
is the outstanding answers; it stays so under the next answer just when that one comes from
the node of its forward, which takes the number off its publish; and an answer for a number
that is not outstanding changes nothing. -/
theorem forward_index_is_the_obligations (forward_seq : Nat) (steps : List Step)
    (hfine : AllFine (start forward_seq) steps) :
    let h := (start forward_seq).run steps
    Indexed h ∧
    (∀ node seq verdict g,
      Indexed (h.forward_answered node seq verdict g) ↔ NamedBy h node seq) ∧
    (∀ id seq o verdict g, h.obligation id seq = some o →
      ∀ id', (h.forward_answered o.node seq verdict g).obligation id' seq = none) ∧
    (∀ node seq verdict g, (∀ id, h.obligation id seq = none) →
      h.forward_answered node seq verdict g = h) := by
  intro h
  have hs : Sound h := (sound_start forward_seq).run steps hfine
  refine ⟨hs.indexed, ?_, ?_, ?_⟩
  · intro node seq verdict g
    constructor
    · intro hindexed id o ho
      by_contra hne
      exact answered_by_another_unindexed hs ho hne verdict g hindexed
    · intro hnamed
      exact (hs.answered hnamed verdict g).indexed
  · intro id seq o verdict g ho id'
    exact answered_is_taken hs ho verdict g id'
  · intro node seq verdict g hnone
    have hi : h.forward_index[seq]? = none := by
      cases hi : h.forward_index[seq]? with
      | none => rfl
      | some id =>
        obtain ⟨o, ho⟩ := (hs.indexed seq id).mp hi
        cases (hnone id).symm.trans ho
    unfold forward_answered
    rw [hi]

/-- A publish that waits for the answer of `b` only. -/
def owedByB : List Step :=
  [.RegisterPending 300 0 false, .RegisterForward 1 ⟨"b", .Ordinary false false⟩ true,
    .Advance 1 ⟨true, false, false, true, 0, none, false, false, false, false, 0⟩]

def anyone : Group := ⟨[], false, false⟩

theorem b_answers_for_itself :
    let h := (start 0).run owedByB
    (h.forward_answered "b" 1 .Stored anyone).obligation 1 1 = none ∧
      (h.forward_answered "b" 1 .Stored anyone).told = [(1, .Accepted)] := by
  have hfine : AllFine (start 0) owedByB := ⟨trivial, trivial, trivial, trivial⟩
  have ho : ((start 0).run owedByB).obligation 1 1 = some ⟨"b", .Ordinary false true⟩ := by
    decide +kernel
  refine ⟨?_, by decide +kernel⟩
  exact (forward_index_is_the_obligations 0 owedByB hfine).2.2.1 1 1 _ .Stored anyone ho 1

/-- `c` answers for a number that went to `b`: the answer is ignored, but the index has lost
the number, so the answer of `b` is ignored as well and the publisher hears nothing. -/
theorem an_answer_of_another_node_loses_the_forward :
    let h := (start 0).run owedByB
    let misled := h.forward_answered "c" 1 .Stored anyone
    Indexed h ∧ ¬ Indexed misled ∧ misled.forward_answered "b" 1 .Stored anyone = misled ∧
      misled.obligation 1 1 = some ⟨"b", .Ordinary false true⟩ ∧ misled.told = [] := by
  have hfine : AllFine (start 0) owedByB := ⟨trivial, trivial, trivial, trivial⟩
  have hs : Sound ((start 0).run owedByB) := (sound_start 0).run owedByB hfine
  have ho : ((start 0).run owedByB).obligation 1 1 = some ⟨"b", .Ordinary false true⟩ := by
    decide +kernel
  have hne : ("b" : NodeId) ≠ "c" := by decide
  refine ⟨hs.indexed, answered_by_another_unindexed hs ho hne .Stored anyone, ?_, ?_, ?_⟩
  · rw [answered_by_another hs ho hne]
    unfold forward_answered
    rw [BTreeMap.get_erase, if_pos rfl]
  · rw [answered_by_another hs ho hne]
    exact ho
  · decide +kernel

end mqttd.hub.forwarding.Hub
