-- What a sweep takes out of the shards: the keys whose second is over, the earliest second
-- first, each with its entry, and all of them where it says that no more are due.
import Mathlib.Algebra.Order.BigOperators.Group.Finset
import MqttBroker.RuleState.LocalMoves

namespace mqttd.rule_state.local_store

open mqtt_rules BTreeMap

/-! ## The earliest key of a shard -/

/-- An entry's second is over at `now_ms`. -/
def Entry.Due (e : Entry) (now_ms : Nat) : Prop :=
  e.expires_ms ≠ 0 ∧ e.expires_ms ≤ u64_max ∧
    mul_saturating (expiry_slot e.expires_ms) 1000 ≤ now_ms

namespace Shard

variable {shard_of : Key → Fin SHARDS} {i : Fin SHARDS} {tick slot : Nat} {s s' : Shard} {e : Entry}

theorem mem_bag_iff : e ∈ bag s ↔ (∃ k : Key, s.map[k]? = some e) ∨
    ∃ p : Nat ×ₗ Nat, s.held[p]? = some e := by
  unfold bag
  rw [Multiset.mem_add, mem_bag, mem_bag]

/-- The places of the entry in the orders are not before their heads. -/
theorem first_expiry_le (hs : Sound shard_of i tick s) (he : e ∈ bag s) (hne : e.expires_ms ≠ 0) :
    ∃ a, s.first_expiry = some a ∧ a ≤ expiry_slot e.expires_ms := by
  unfold first_expiry
  rcases mem_bag_iff.mp he with ⟨k, hk⟩ | ⟨p, hp⟩
  · have hmem := (hs.expiry_iff (expiry_slot e.expires_ms) k).mpr ⟨e, hk, hne, rfl⟩
    rcases hlist : s.expiry.toList with _ | ⟨x, rest⟩
    · exact absurd hmem (BTreeSet.not_mem_of_nil hlist _)
    · have hle : (ofLex x).1 ≤ expiry_slot e.expires_ms :=
        Prod.Lex.monotone_fst _ _ (BTreeSet.head_le hlist hmem)
      rcases s.held.toList.head? with _ | y
      · exact ⟨(ofLex x).1, rfl, hle⟩
      · exact ⟨min (ofLex x).1 (ofLex y.1).1, rfl, (Nat.min_le_left _ _).trans hle⟩
  · obtain ⟨hslot, -, -⟩ := hs.held_at hp
    rcases hlist : s.held.toList with _ | ⟨⟨q, f⟩, rest⟩
    · have hmem := (mem_toList s.held p e).mpr hp
      rw [hlist] at hmem
      cases hmem
    · have hle : (ofLex q).1 ≤ expiry_slot e.expires_ms := by
        rw [← hslot]
        exact Prod.Lex.monotone_fst _ _ (BTreeMap.head_le hlist hp)
      rcases s.expiry.toList.head? with _ | y
      · exact ⟨(ofLex q).1, rfl, hle⟩
      · exact ⟨min (ofLex y).1 (ofLex q).1, rfl, (Nat.min_le_right _ _).trans hle⟩

/-- The earliest second is that of an entry. -/
theorem first_expiry_mem (hs : Sound shard_of i tick s) {a : Nat} (h : s.first_expiry = some a) :
    ∃ e ∈ bag s, e.expires_ms ≠ 0 ∧ expiry_slot e.expires_ms = a := by
  have hlive : ∀ {x rest}, s.expiry.toList = x :: rest →
      ∃ e ∈ bag s, e.expires_ms ≠ 0 ∧ expiry_slot e.expires_ms = (ofLex x).1 := by
    intro x rest hlist
    obtain ⟨e, he, hne, -, hx⟩ := expiry_head hs hlist
    exact ⟨e, mem_bag_iff.mpr (.inl ⟨_, he⟩), hne, by rw [hx]; rfl⟩
  have hheld : ∀ {y rest}, s.held.toList = y :: rest →
      ∃ e ∈ bag s, e.expires_ms ≠ 0 ∧ expiry_slot e.expires_ms = (ofLex y.1).1 := by
    rintro ⟨q, f⟩ rest hlist
    have hget := get_head hlist
    obtain ⟨hslot, -, hne⟩ := hs.held_at hget
    exact ⟨f, mem_bag_iff.mpr (.inr ⟨_, hget⟩), hne, hslot.symm⟩
  unfold first_expiry at h
  rcases hlist : s.expiry.toList with _ | ⟨x, rest⟩ <;>
    rcases hlist' : s.held.toList with _ | ⟨y, rest'⟩ <;>
    rw [hlist, hlist'] at h <;>
    simp at h
  · subst h
    exact hheld hlist'
  · subst h
    exact hlive hlist
  · rcases le_total (ofLex x).1 (ofLex y.1).1 with hle | hle
    · rw [min_eq_left hle] at h
      subst h
      exact hlive hlist
    · rw [min_eq_right hle] at h
      subst h
      exact hheld hlist'

/-! ## Taking keys out -/

theorem left_trans {T T' : Multiset Entry} {o o' o'' : Option Entry}
    (h : o' = o ∨ o' = none ∧ ∃ e ∈ T, o = some e)
    (h' : o'' = o' ∨ o'' = none ∧ ∃ e ∈ T', o' = some e) :
    o'' = o ∨ o'' = none ∧ ∃ e ∈ T + T', o = some e := by
  rcases h' with heq | ⟨hnone, e, he, hget⟩
  · rcases h with heq' | ⟨hnone, e, he, hget⟩
    · exact .inl (heq.trans heq')
    · exact .inr ⟨heq.trans hnone, e, Multiset.mem_add.mpr (.inl he), hget⟩
  · rcases h with heq' | ⟨hnone', -⟩
    · exact .inr ⟨hnone, e, Multiset.mem_add.mpr (.inr he), heq' ▸ hget⟩
    · rw [hnone'] at hget
      cases hget

/-- What it means for entries to be taken out of a shard. -/
structure Took (shard_of : Key → Fin SHARDS) (i : Fin SHARDS) (tick : Nat) (s : Shard)
    (T : Multiset Entry) (s' : Shard) : Prop where
  sound : Sound shard_of i tick s'
  bag_eq : bag s = T + bag s'
  get : ∀ k : Key, s'.map[k]? = s.map[k]? ∨ s'.map[k]? = none ∧ ∃ e ∈ T, s.map[k]? = some e

theorem Took.refl (hs : Sound shard_of i tick s) : Took shard_of i tick s 0 s :=
  ⟨hs, (zero_add _).symm, fun _ => .inl rfl⟩

theorem Took.trans {T T' : Multiset Entry} {s'' : Shard} (h : Took shard_of i tick s T s')
    (h' : Took shard_of i tick s' T' s'') : Took shard_of i tick s (T + T') s'' where
  sound := h'.sound
  bag_eq := by rw [h.bag_eq, h'.bag_eq, add_assoc]
  get k := left_trans (h.get k) (h'.get k)

theorem took_without (hs : Sound shard_of i tick s) (h : s.map[e.key]? = some e) :
    Took shard_of i tick s {e} (s.without e) where
  sound := hs.without h
  bag_eq := by rw [bag_without h, Multiset.singleton_add]
  get k := by
    rw [get_without]
    by_cases hk : e.key = k
    · subst hk
      exact .inr ⟨if_pos rfl, e, Multiset.mem_singleton_self e, h⟩
    · exact .inl (if_neg hk)

theorem took_unhold (hs : Sound shard_of i tick s) {p : Nat ×ₗ Nat} (h : s.held[p]? = some e) :
    Took shard_of i tick s {e} { s with held := s.held.erase p } where
  sound := hs.unhold
  bag_eq := by
    unfold bag
    rw [bag_erase h, Multiset.singleton_add, Multiset.add_cons]
  get k := .inl rfl

/-- What one `pop_expired` does: it takes out an entry of the earliest second, or that second
is yet to come. -/
theorem pop_expired_cases (hs : Sound shard_of i tick s) (slot : Nat) :
    (s.pop_expired slot = (none, s) ∧ ∀ a, s.first_expiry = some a → slot < a) ∨
    ∃ e s', s.pop_expired slot = (some e, s') ∧ Took shard_of i tick s {e} s' ∧
      e.expires_ms ≠ 0 ∧ e.expires_ms ≤ u64_max ∧ expiry_slot e.expires_ms ≤ slot := by
  unfold pop_expired pop_loop
  dsimp only
  split
  · next q f hfit =>
    -- The earliest held key.
    obtain ⟨hhead, hfits⟩ := Option.filter_eq_some_iff.mp hfit
    obtain ⟨rest, hlist⟩ : ∃ rest, s.held.toList = (q, f) :: rest := by
      rcases hl : s.held.toList with _ | ⟨y, rest⟩
      · rw [hl] at hhead
        cases hhead
      · rw [hl] at hhead
        cases hhead
        exact ⟨rest, rfl⟩
    have hget := get_head hlist
    obtain ⟨hslot, -, hne⟩ := hs.held_at hget
    refine .inr ⟨f, _, rfl, took_unhold hs hget, hne, hs.held_le hget, ?_⟩
    simp only [Bool.and_eq_true, decide_eq_true_eq] at hfits
    rw [← hslot]
    exact hfits.1
  · next hfit =>
    rcases hlist : s.expiry.toList with _ | ⟨x, rest⟩
    · -- No key expires: a held key would fit, or its second is yet to come.
      refine .inl ⟨rfl, fun a ha => ?_⟩
      unfold first_expiry at ha
      rcases hheld : s.held.toList with _ | ⟨y, rest⟩
      · simp [hlist, hheld] at ha
      · simp [hlist, hheld] at ha hfit
        omega
    · simp only [List.head?_cons]
      by_cases hgt : (ofLex x).1 > slot
      · rw [if_pos hgt]
        refine .inl ⟨rfl, fun a ha => ?_⟩
        unfold first_expiry at ha
        rcases hheld : s.held.toList with _ | ⟨y, rest⟩
        · simp [hlist, hheld] at ha
          omega
        · simp [hlist, hheld] at ha hfit
          omega
      · rw [if_neg hgt]
        obtain ⟨e, he, hne, hle, hx⟩ := expiry_head hs hlist
        have hkey : (ofLex x).2 = e.key := by rw [hx]; rfl
        have hslot : (ofLex x).1 = expiry_slot e.expires_ms := by rw [hx]; rfl
        have hany : s.map[(ofLex x).2]?.any
            (fun e => decide (expiry_slot e.expires_ms = (ofLex x).1)) = true := by
          rw [hkey, he]
          simp [hslot]
        rw [if_pos hany]
        have htake : Shard.take { s with expiry := s.expiry.erase x } (ofLex x).2 =
            (some e, s.without e) := by
          unfold take
          rw [hkey, he, hx]
          dsimp only
          rw [without_erased _ hne]
        rw [htake]
        refine .inr ⟨e, _, rfl, took_without hs he, hne, hle, ?_⟩
        rw [← hslot]
        omega

theorem batch_took (hs : Sound shard_of i tick s) (events : Bool) (slot n left : Nat) :
    Took shard_of i tick s (s.batch events slot n left).1 (s.batch events slot n left).2.2 ∧
      ∀ e ∈ (s.batch events slot n left).1,
        e.expires_ms ≠ 0 ∧ e.expires_ms ≤ u64_max ∧ expiry_slot e.expires_ms ≤ slot := by
  induction n generalizing s left with
  | zero => exact ⟨Took.refl hs, fun e he => by cases he⟩
  | succ n ih =>
    unfold batch
    by_cases hleft : left = 0
    · rw [if_pos hleft]
      exact ⟨Took.refl hs, fun e he => by cases he⟩
    · rw [if_neg hleft]
      rcases pop_expired_cases hs slot with ⟨hpop, -⟩ | ⟨e, s', hpop, htook, hne, hle, hslot⟩
      · rw [hpop]
        exact ⟨Took.refl hs, fun e he => by cases he⟩
      · rw [hpop]
        dsimp only
        obtain ⟨hrest, hdue⟩ := ih htook.sound
          (left - if (!events || !remembered e.key) = true then 1 else 0)
        refine ⟨htook.trans hrest, fun x hx => ?_⟩
        rcases List.mem_cons.mp hx with rfl | hx
        · exact ⟨hne, hle, hslot⟩
        · exact hdue x hx

theorem batch_ne_nil (hs : Sound shard_of i tick s) (events : Bool) {n left a : Nat}
    (hfirst : s.first_expiry = some a) (ha : a ≤ slot) (hleft : left ≠ 0) :
    (s.batch events slot (n + 1) left).1 ≠ [] := by
  unfold batch
  rw [if_neg hleft]
  rcases pop_expired_cases hs slot with ⟨-, hlate⟩ | ⟨e, s', hpop, -⟩
  · have := hlate a hfirst
    omega
  · rw [hpop]
    exact List.cons_ne_nil _ _

end Shard

/-! ## Taking keys out of a namespace -/

namespace View

variable {v v' : View} {others now_ms : Nat} {i : Fin SHARDS}

/-- What it means for a sweep to take entries out of a namespace: each is due, and nothing else
has changed. -/
structure Took (now_ms : Nat) (v : View) (T : Multiset Entry) (v' : View) : Prop where
  idle : Onward v v' ∧ v'.sh = v.sh ∧ v'.ns.keys = v.ns.keys ∧ v'.ns.bytes = v.ns.bytes ∧
    v'.ns.tick = v.ns.tick ∧ v'.ns.lives = v.ns.lives
  shards : ∀ i, Shard.Sound v'.ns.shard_of i v'.ns.tick (v'.shard i)
  present_eq : v.present = T + v'.present
  due : ∀ e ∈ T, e.Due now_ms
  get : ∀ k, v'.get k = v.get k ∨ v'.get k = none ∧ ∃ e ∈ T, v.get k = some e

theorem Took.refl (h : ∀ i, Shard.Sound v.ns.shard_of i v.ns.tick (v.shard i)) :
    Took now_ms v 0 v :=
  ⟨⟨Onward.refl v, rfl, rfl, rfl, rfl, rfl⟩, h, (zero_add _).symm, fun _ he => (by cases he),
    fun _ => .inl rfl⟩

theorem Took.trans {T T' : Multiset Entry} {v'' : View} (h : Took now_ms v T v')
    (h' : Took now_ms v' T' v'') : Took now_ms v (T + T') v'' where
  idle := by
    obtain ⟨hon, hsh, hkeys, hbytes, htick, hlives⟩ := h.idle
    obtain ⟨hon', hsh', hkeys', hbytes', htick', hlives'⟩ := h'.idle
    exact ⟨hon.trans hon', hsh'.trans hsh, hkeys'.trans hkeys, hbytes'.trans hbytes,
      htick'.trans htick, hlives'.trans hlives⟩
  shards := h'.shards
  present_eq := by rw [h.present_eq, h'.present_eq, add_assoc]
  due e he := by
    rcases Multiset.mem_add.mp he with he | he
    · exact h.due e he
    · exact h'.due e he
  get k := Shard.left_trans (h.get k) (h'.get k)

theorem took_batch (h : ∀ j, Shard.Sound v.ns.shard_of j v.ns.tick (v.shard j))
    {T : Multiset Entry} {s : Shard}
    (htook : Shard.Took v.ns.shard_of i v.ns.tick (v.shard i) T s)
    (hdue : ∀ e ∈ T, e.Due now_ms) : Took now_ms v T ((v.setShard i s).note_used i) := by
  have hidle := idle_note_used (v.setShard i s) i
  have hset : Took now_ms v T (v.setShard i s) := by
    refine ⟨⟨{ Onward.refl v with }, rfl, rfl, rfl, rfl, rfl⟩, ?_, ?_, hdue, fun k => ?_⟩
    · exact sound_setShard h (le_refl _) htook.sound
    · rw [present_setShard, View.present_eq v i, htook.bag_eq, add_assoc]
    · rw [get_setShard]
      by_cases hk : v.ns.shard_of k = i
      · rw [if_pos hk]
        subst hk
        exact htook.get k
      · exact .inl (if_neg hk)
  have hsh : ((v.setShard i s).note_used i).sh = (v.setShard i s).sh := by
    unfold note_used
    split <;> rfl
  refine ⟨⟨?_, hsh, hidle.keys, hidle.bytes, hidle.tick, hidle.lives⟩, fun j => ?_, ?_, hdue,
    fun k => ?_⟩
  · exact hset.idle.1.trans hidle.toOnward
  · rw [hidle.shard_of, hidle.tick, hidle.shard j]
    exact hset.shards j
  · rw [hidle.present]
    exact hset.present_eq
  · rw [hidle.get]
    exact hset.get k

theorem mem_present {e : Entry} : e ∈ v.present ↔ ∃ i, e ∈ (v.shard i).bag := by
  unfold present
  rw [Multiset.mem_sum]
  simp

end View

/-! ## The heap of the sweep -/

namespace Sweeping

variable {now_ms : Nat} {s : Store} {st : Sweeping} {n : Nat} {ns : Namespace} {i : Fin SHARDS}

/-- The second of a shard, its namespace and the shard. -/
def slotOf (d : Due) : Nat := (ofLex d).1

def placeOf (d : Due) : Nat × Fin SHARDS := ((ofLex (ofLex d).2).1, (ofLex (ofLex d).2).2)

theorem due_eq (d : Due) : d = toLex (slotOf d, toLex ((placeOf d).1, (placeOf d).2)) := rfl

theorem due_ext {d d' : Due} (hslot : slotOf d = slotOf d') (hplace : placeOf d = placeOf d') :
    d = d' := by
  rw [due_eq d, due_eq d', hslot, hplace]

def takenOf (taken : List (Nat × Entry)) (n : Nat) : Multiset Entry :=
  ((taken.filter (fun x => x.1 = n)).map Prod.snd : List Entry)

theorem takenOf_append (taken more : List (Nat × Entry)) (n : Nat) :
    takenOf (taken ++ more) n = takenOf taken n + takenOf more n := by
  unfold takenOf
  rw [List.filter_append, List.map_append, ← Multiset.coe_add]

theorem takenOf_own (es : List Entry) (n : Nat) :
    takenOf (es.map (fun e => (n, e))) n = (es : Multiset Entry) := by
  unfold takenOf
  induction es with
  | nil => rfl
  | cons e es ih => simp_all

theorem takenOf_other (es : List Entry) {n k : Nat} (h : k ≠ n) :
    takenOf (es.map (fun e => (n, e))) k = 0 := by
  unfold takenOf
  induction es with
  | nil => rfl
  | cons e es ih => simp_all [Ne.symm h]

/-- The keys that are due are named in the heap, each shard by its earliest. -/
structure Heap (now_ms : Nat) (st : Sweeping) : Prop where
  due_of : ∀ {n : Nat} {ns : Namespace} {i : Fin SHARDS} {a : Nat},
    st.store.namespaces[n]? = some ns → (ns.shards i).first_expiry = some a →
    mul_saturating a 1000 ≤ now_ms → toLex (a, toLex (n, i)) ∈ st.due
  of_due : ∀ d ∈ st.due, ∃ ns, st.store.namespaces[(placeOf d).1]? = some ns ∧
    (ns.shards (placeOf d).2).first_expiry = some (slotOf d) ∧
    mul_saturating (slotOf d) 1000 ≤ now_ms
  nodup : st.due.Nodup

/-- What a sweep has done to the store `s` so far. -/
structure Fine (now_ms : Nat) (s : Store) (st : Sweeping) : Prop extends Heap now_ms st where
  shared : st.store.shared = s.shared
  length : st.store.namespaces.length = s.namespaces.length
  took : ∀ {n : Nat} {ns₀ ns : Namespace}, s.namespaces[n]? = some ns₀ →
    st.store.namespaces[n]? = some ns →
    View.Took now_ms ⟨s.shared, ns₀⟩ (takenOf st.taken n) ⟨s.shared, ns⟩
  places : ∀ x ∈ st.taken, x.1 < s.namespaces.length
  sorted : st.taken.Pairwise (fun x y => expiry_slot x.2.expires_ms ≤ expiry_slot y.2.expires_ms)
  ahead : ∀ x ∈ st.taken, ∀ d ∈ st.due, expiry_slot x.2.expires_ms ≤ slotOf d
  expired : st.swept.expired = []

/-- The least of the heap. -/
theorem min_of_due {first : Due} (h : st.due.min? = some first) :
    first ∈ st.due ∧ ∀ d ∈ st.due, slotOf first ≤ slotOf d := by
  obtain ⟨hmem, hle⟩ := List.min?_eq_some_iff.mp h
  exact ⟨hmem, fun d hd => Prod.Lex.monotone_fst _ _ (hle d hd)⟩

theorem due_sort (st : Sweeping) (first : Option Nat) :
    (st.sort now_ms first n i).due =
      (match first with
        | none => []
        | some slot => if mul_saturating slot 1000 ≤ now_ms then [toLex (slot, toLex (n, i))]
          else []) ++ st.due := by
  unfold sort
  cases first with
  | none => rfl
  | some slot =>
    dsimp only
    split <;> rfl

theorem mem_due_sort {first : Option Nat} {d : Due} :
    d ∈ (st.sort now_ms first n i).due ↔ d ∈ st.due ∨
      ∃ slot, first = some slot ∧ mul_saturating slot 1000 ≤ now_ms ∧
        d = toLex (slot, toLex (n, i)) := by
  rw [due_sort]
  cases first with
  | none => simp
  | some slot =>
    dsimp only
    split <;> simp_all [or_comm]

theorem sort_rest (st : Sweeping) (now_ms : Nat) (first : Option Nat) (n : Nat) (i : Fin SHARDS) :
    (st.sort now_ms first n i).store = st.store ∧ (st.sort now_ms first n i).left = st.left ∧
      (st.sort now_ms first n i).taken = st.taken ∧
      (st.sort now_ms first n i).swept.expired = st.swept.expired ∧
      (st.sort now_ms first n i).swept.more = st.swept.more := by
  unfold sort
  cases first with
  | none => exact ⟨rfl, rfl, rfl, rfl, rfl⟩
  | some slot =>
    dsimp only
    split <;> exact ⟨rfl, rfl, rfl, rfl, rfl⟩

def batchOf (st : Sweeping) (ns : Namespace) (first : Due) : List Entry × Nat × Shard :=
  (ns.shards (placeOf first).2).batch st.store.shared.expiry_events (slotOf first) PURGE_BATCH
    st.left

def afterBatch (st : Sweeping) (ns : Namespace) (first : Due) : Namespace :=
  (((View.mk st.store.shared ns).setShard (placeOf first).2 (st.batchOf ns first).2.2).note_used
    (placeOf first).2).ns

/-- A turn up to the shard's place in the heap. -/
def takenOut (st : Sweeping) (ns : Namespace) (first : Due) : Sweeping :=
  { st with
    due := st.due.erase first
    left := st.left - (st.batchOf ns first).2.1
    taken := st.taken ++ (st.batchOf ns first).1.map (fun e => ((placeOf first).1, e))
    store := { st.store with
      namespaces := st.store.namespaces.set (placeOf first).1 (st.afterBatch ns first) } }

theorem turn_eq {first : Due} (h : st.store.namespaces[(placeOf first).1]? = some ns) :
    st.turn now_ms first = (st.takenOut ns first).sort now_ms
      (st.batchOf ns first).2.2.first_expiry (placeOf first).1 (placeOf first).2 := by
  have h' : st.store.namespaces[(ofLex (ofLex first).2).1]? = some ns := h
  unfold turn
  dsimp only
  rw [h']
  rfl

theorem shards_afterBatch (st : Sweeping) (ns : Namespace) (first : Due) (j : Fin SHARDS) :
    (st.afterBatch ns first).shards j =
      if j = (placeOf first).2 then (st.batchOf ns first).2.2 else ns.shards j := by
  have hidle := View.idle_note_used ((View.mk st.store.shared ns).setShard (placeOf first).2
    (st.batchOf ns first).2.2) (placeOf first).2
  refine (hidle.shard j).trans ?_
  by_cases hj : j = (placeOf first).2
  · subst hj
    rw [if_pos rfl]
    exact View.shard_setShard _ _ _
  · rw [if_neg hj]
    exact View.shard_setShard_ne _ _ hj

theorem shard_turn {first : Due} {k : Nat} {ns' : Namespace} {j : Fin SHARDS}
    (h : st.store.namespaces[(placeOf first).1]? = some ns)
    (h' : (st.store.namespaces.set (placeOf first).1 (st.afterBatch ns first))[k]? = some ns') :
    ((k, j) = placeOf first ∧ ns'.shards j = (st.batchOf ns first).2.2) ∨
    ((k, j) ≠ placeOf first ∧ ∃ ns₁, st.store.namespaces[k]? = some ns₁ ∧
      ns'.shards j = ns₁.shards j) := by
  by_cases hk : (placeOf first).1 = k
  · subst hk
    rw [List.getElem?_set_self (List.getElem?_eq_some_iff.mp h).1] at h'
    cases h'
    rw [shards_afterBatch]
    by_cases hj : j = (placeOf first).2
    · rw [if_pos hj]
      exact .inl ⟨by rw [hj], rfl⟩
    · rw [if_neg hj]
      exact .inr ⟨fun heq => hj (congrArg Prod.snd heq), ns, h, rfl⟩
  · rw [List.getElem?_set_ne hk] at h'
    exact .inr ⟨fun heq => hk (congrArg Prod.fst heq).symm, ns', h', rfl⟩

theorem Fine.sound_at (hfine : Fine now_ms s st) (hns : st.store.namespaces[n]? = some ns)
    (i : Fin SHARDS) : Shard.Sound ns.shard_of i ns.tick (ns.shards i) := by
  have hlt := (List.getElem?_eq_some_iff.mp hns).1
  rw [hfine.length] at hlt
  exact (hfine.took (List.getElem?_eq_getElem hlt) hns).shards i

/-- What a turn takes out has the least second of all. -/
theorem batch_due (hfine : Fine now_ms s st) {first : Due}
    (hns : st.store.namespaces[(placeOf first).1]? = some ns)
    (hfirst : (ns.shards (placeOf first).2).first_expiry = some (slotOf first))
    (hdue : mul_saturating (slotOf first) 1000 ≤ now_ms) :
    Shard.Took ns.shard_of (placeOf first).2 ns.tick (ns.shards (placeOf first).2)
        (st.batchOf ns first).1 (st.batchOf ns first).2.2 ∧
      ∀ e ∈ (st.batchOf ns first).1, e.Due now_ms ∧ expiry_slot e.expires_ms = slotOf first := by
  have hsound := hfine.sound_at hns (placeOf first).2
  obtain ⟨htook, hes⟩ := Shard.batch_took hsound
    st.store.shared.expiry_events (slotOf first) PURGE_BATCH st.left
  refine ⟨htook, fun e he => ?_⟩
  obtain ⟨hne, hle, hslot⟩ := hes e he
  have hin : e ∈ Shard.bag (ns.shards (placeOf first).2) := by
    have hbag := htook.bag_eq
    exact hbag ▸ Multiset.mem_add.mpr (.inl he)
  obtain ⟨a, ha, hale⟩ := Shard.first_expiry_le hsound hin hne
  cases hfirst.symm.trans ha
  have heq : expiry_slot e.expires_ms = slotOf first := le_antisymm hslot hale
  exact ⟨⟨hne, hle, heq ▸ hdue⟩, heq⟩

theorem heap_turn (hfine : Fine now_ms s st) {first : Due} (hmem : first ∈ st.due)
    (hns : st.store.namespaces[(placeOf first).1]? = some ns)
    (hfirst : (ns.shards (placeOf first).2).first_expiry = some (slotOf first)) :
    Heap now_ms (st.turn now_ms first) := by
  have hother : ∀ d ∈ st.due.erase first, d ∈ st.due ∧ placeOf d ≠ placeOf first := by
    intro d hd
    obtain ⟨hne, hd⟩ := (List.Nodup.mem_erase_iff hfine.nodup).mp hd
    refine ⟨hd, fun hplace => hne ?_⟩
    -- A shard is named at its earliest second alone.
    obtain ⟨ns₁, hns₁, hslot, -⟩ := hfine.of_due d hd
    rw [hplace, hns] at hns₁
    cases hns₁
    rw [hplace, hfirst] at hslot
    exact due_ext (Option.some.inj hslot).symm hplace
  rw [turn_eq hns]
  constructor
  · intro k ns' j a hk hexp hdue
    rw [(sort_rest _ _ _ _ _).1] at hk
    rw [mem_due_sort]
    rcases shard_turn (j := j) hns hk with ⟨hplace, hshard⟩ | ⟨hplace, ns₁, hns₁, hshard⟩
    · rw [hshard] at hexp
      refine .inr ⟨a, hexp, hdue, ?_⟩
      rw [← hplace]
    · rw [hshard] at hexp
      refine .inl ((List.mem_erase_of_ne ?_).mpr (hfine.due_of hns₁ hexp hdue))
      rintro rfl
      exact hplace rfl
  · intro d hd
    rw [(sort_rest _ _ _ _ _).1]
    rw [mem_due_sort] at hd
    rcases hd with hd | ⟨slot, hslot, hdue, rfl⟩
    · obtain ⟨hd, hplace⟩ := hother d hd
      obtain ⟨ns₁, hns₁, hslot, hdue⟩ := hfine.of_due d hd
      have hlen := (List.getElem?_eq_some_iff.mp hns₁).1
      obtain ⟨ns', hns'⟩ : ∃ ns', (st.store.namespaces.set (placeOf first).1
          (st.afterBatch ns first))[(placeOf d).1]? = some ns' :=
        ⟨_, List.getElem?_eq_getElem (by rw [List.length_set]; exact hlen)⟩
      refine ⟨ns', hns', ?_, hdue⟩
      rcases shard_turn (j := (placeOf d).2) hns hns' with
        ⟨heq, -⟩ | ⟨-, ns₂, hns₂, hshard⟩
      · exact absurd heq hplace
      · rw [hns₁] at hns₂
        cases hns₂
        rw [hshard]
        exact hslot
    · have hlen := (List.getElem?_eq_some_iff.mp hns).1
      refine ⟨_, List.getElem?_set_self hlen, ?_, hdue⟩
      rw [shards_afterBatch]
      exact (congrArg Shard.first_expiry (if_pos rfl)).trans hslot
  · rw [due_sort]
    have herase := hfine.nodup.erase first
    cases hexp : (st.batchOf ns first).2.2.first_expiry with
    | none => exact herase
    | some slot =>
      dsimp only
      split
      · refine List.nodup_cons.mpr ⟨fun hd => ?_, herase⟩
        exact (hother _ hd).2 rfl
      · exact herase

/-- Every second that is named after a turn is at or after the one that was least. -/
theorem later_turn (hfine : Fine now_ms s st) {first : Due} (hmin : st.due.min? = some first)
    (hns : st.store.namespaces[(placeOf first).1]? = some ns)
    (hfirst : (ns.shards (placeOf first).2).first_expiry = some (slotOf first))
    (htook : Shard.Took ns.shard_of (placeOf first).2 ns.tick (ns.shards (placeOf first).2)
      (st.batchOf ns first).1 (st.batchOf ns first).2.2) :
    ∀ d ∈ (st.turn now_ms first).due, slotOf first ≤ slotOf d := by
  intro d hd
  rw [turn_eq hns, mem_due_sort] at hd
  rcases hd with hd | ⟨slot, hslot, -, rfl⟩
  · exact (min_of_due hmin).2 d (List.mem_of_mem_erase hd)
  · obtain ⟨e, he, hne, rfl⟩ := Shard.first_expiry_mem htook.sound hslot
    have hin : e ∈ Shard.bag (ns.shards (placeOf first).2) :=
      htook.bag_eq ▸ Multiset.mem_add.mpr (.inr he)
    obtain ⟨a, ha, hle⟩ := Shard.first_expiry_le (hfine.sound_at hns _) hin hne
    cases hfirst.symm.trans ha
    exact hle

theorem took_turn (hfine : Fine now_ms s st) {first : Due} {k : Nat} {ns₀ ns' : Namespace}
    (hns : st.store.namespaces[(placeOf first).1]? = some ns)
    (htook : Shard.Took ns.shard_of (placeOf first).2 ns.tick (ns.shards (placeOf first).2)
      (st.batchOf ns first).1 (st.batchOf ns first).2.2)
    (hdue : ∀ e ∈ (st.batchOf ns first).1, e.Due now_ms) (h₀ : s.namespaces[k]? = some ns₀)
    (h' : (st.takenOut ns first).store.namespaces[k]? = some ns') :
    View.Took now_ms ⟨s.shared, ns₀⟩ (takenOf (st.takenOut ns first).taken k) ⟨s.shared, ns'⟩ := by
  unfold takenOut at h' ⊢
  dsimp only at h' ⊢
  rw [takenOf_append]
  by_cases hk : (placeOf first).1 = k
  · subst hk
    rw [List.getElem?_set_self (List.getElem?_eq_some_iff.mp hns).1] at h'
    cases h'
    rw [takenOf_own]
    refine (hfine.took h₀ hns).trans ?_
    have hbatch := View.took_batch (v := ⟨s.shared, ns⟩) (fun j => hfine.sound_at hns j) htook hdue
    have hview : (View.mk s.shared (st.afterBatch ns first)) =
        ((View.mk s.shared ns).setShard (placeOf first).2 (st.batchOf ns first).2.2).note_used
          (placeOf first).2 := by
      unfold afterBatch
      rw [hfine.shared]
      exact View.mk.injEq .. ▸ ⟨hbatch.idle.2.1.symm, rfl⟩
    rw [hview]
    exact hbatch
  · rw [List.getElem?_set_ne hk] at h'
    rw [takenOf_other _ (Ne.symm hk), add_zero]
    exact hfine.took h₀ h'

theorem fine_turn (hfine : Fine now_ms s st) {first : Due} (hmin : st.due.min? = some first) :
    Fine now_ms s (st.turn now_ms first) ∧
      (st.left ≠ 0 → st.taken.length < (st.turn now_ms first).taken.length) := by
  obtain ⟨hmem, -⟩ := min_of_due hmin
  obtain ⟨ns, hns, hfirst, hdue⟩ := hfine.of_due first hmem
  obtain ⟨htook, hes⟩ := batch_due hfine hns hfirst hdue
  have hheap := heap_turn hfine hmem hns hfirst
  have hlater := later_turn hfine hmin hns hfirst htook
  rw [turn_eq hns] at hheap hlater ⊢
  obtain ⟨hstore, -, htaken, hexpired, -⟩ := sort_rest (st.takenOut ns first) now_ms
    (st.batchOf ns first).2.2.first_expiry (placeOf first).1 (placeOf first).2
  have hlen := (List.getElem?_eq_some_iff.mp hns).1
  have hnew : ∀ x ∈ (st.batchOf ns first).1.map (fun e => ((placeOf first).1, e)),
      x.1 = (placeOf first).1 ∧ expiry_slot x.2.expires_ms = slotOf first := by
    intro x hx
    obtain ⟨e, he, rfl⟩ := List.mem_map.mp hx
    exact ⟨rfl, (hes e he).2⟩
  refine ⟨⟨hheap, ?_, ?_, ?_, ?_, ?_, ?_, ?_⟩, fun hleft => ?_⟩
  · rw [hstore]
    exact hfine.shared
  · rw [hstore]
    exact List.length_set.trans hfine.length
  · intro k ns₀ ns' h₀ h'
    rw [hstore] at h'
    rw [htaken]
    exact took_turn hfine hns htook (fun e he => (hes e he).1) h₀ h'
  · intro x hx
    rw [htaken] at hx
    rcases List.mem_append.mp hx with hx | hx
    · exact hfine.places x hx
    · rw [(hnew x hx).1, ← hfine.length]
      exact hlen
  · rw [htaken]
    refine List.pairwise_append.mpr ⟨hfine.sorted, ?_, fun x hx y hy => ?_⟩
    · refine List.pairwise_of_forall_mem_list (fun x hx y hy => ?_)
      rw [(hnew x hx).2, (hnew y hy).2]
    · rw [(hnew y hy).2]
      exact hfine.ahead x hx first hmem
  · intro x hx d hd
    rw [htaken] at hx
    refine le_trans ?_ (hlater d hd)
    rcases List.mem_append.mp hx with hx | hx
    · exact hfine.ahead x hx first hmem
    · exact le_of_eq (hnew x hx).2
  · rw [hexpired]
    exact hfine.expired
  · have hne := Shard.batch_ne_nil (n := 63) (hfine.sound_at hns (placeOf first).2)
      st.store.shared.expiry_events hfirst (le_refl _) hleft
    have hpos : 0 < (st.batchOf ns first).1.length := List.length_pos_iff.mpr hne
    rw [htaken]
    simp only [takenOut, List.length_append, List.length_map]
    omega

/-! ## The whole of the batches -/

theorem length_taken (taken : List (Nat × Entry)) {l : Nat} (h : ∀ x ∈ taken, x.1 < l) :
    taken.length = ∑ n : Fin l, Multiset.card (takenOf taken n) := by
  induction taken with
  | nil => simp [takenOf]
  | cons x rest ih =>
    have hrest := ih (fun y hy => h y (List.mem_cons_of_mem _ hy))
    have hcons : ∀ n : Fin l, Multiset.card (takenOf (x :: rest) n) =
        Multiset.card (takenOf rest n) + if n = ⟨x.1, h x List.mem_cons_self⟩ then 1 else 0 := by
      intro n
      have hiff : n = ⟨x.1, h x List.mem_cons_self⟩ ↔ x.1 = n.1 :=
        ⟨fun heq => by rw [heq], fun heq => Fin.ext heq.symm⟩
      unfold takenOf
      by_cases hn : x.1 = n.1
      · simp [hn]
      · simp [hn, hiff]
    rw [Finset.sum_congr rfl (fun n _ => hcons n), Finset.sum_add_distrib, ← hrest]
    simp

theorem Fine.taken_le (hfine : Fine now_ms s st)
    (hkeys : ∀ {n : Nat} {ns : Namespace}, s.namespaces[n]? = some ns →
      ns.keys = Multiset.card (View.present ⟨s.shared, ns⟩)) :
    st.taken.length ≤ s.keys := by
  rw [length_taken st.taken hfine.places]
  unfold Store.keys
  rw [← Fin.sum_univ_getElem (s.namespaces.map (·.keys))]
  have hlen : (s.namespaces.map (·.keys)).length = s.namespaces.length := List.length_map _
  rw [← Fin.sum_congr' _ hlen]
  refine Finset.sum_le_sum (fun n _ => ?_)
  have hn : n.1 < s.namespaces.length := hlen ▸ n.2
  have h₀ : s.namespaces[n.1]? = some s.namespaces[n.1] := List.getElem?_eq_getElem hn
  obtain ⟨ns', h'⟩ : ∃ ns', st.store.namespaces[n.1]? = some ns' :=
    ⟨_, List.getElem?_eq_getElem (hfine.length ▸ hn)⟩
  have hcard := congrArg Multiset.card (hfine.took h₀ h').present_eq
  rw [Multiset.card_add, ← hkeys h₀] at hcard
  simp only [List.getElem_map, Fin.val_cast]
  omega

theorem fine_loop {fuel : Nat} (hfine : Fine now_ms s st)
    (hkeys : ∀ {n : Nat} {ns : Namespace}, s.namespaces[n]? = some ns →
      ns.keys = Multiset.card (View.present ⟨s.shared, ns⟩))
    (hfuel : s.keys < fuel + st.taken.length) :
    Fine now_ms s (loop now_ms fuel st) ∧
      ((loop now_ms fuel st).due = [] ∨ (loop now_ms fuel st).swept.more = true) := by
  induction fuel generalizing st with
  | zero =>
    have := hfine.taken_le hkeys
    omega
  | succ fuel ih =>
    unfold loop
    rcases hmin : st.due.min? with _ | first
    · exact ⟨hfine, .inl (List.min?_eq_none_iff.mp hmin)⟩
    · dsimp only
      by_cases hleft : st.left = 0
      · rw [if_pos hleft]
        exact ⟨⟨⟨hfine.due_of, hfine.of_due, hfine.nodup⟩, hfine.shared, hfine.length, hfine.took,
          hfine.places, hfine.sorted, hfine.ahead, hfine.expired⟩, .inr rfl⟩
      · rw [if_neg hleft]
        obtain ⟨hfine', hmore⟩ := fine_turn hfine hmin
        have := hmore hleft
        exact ih hfine' (by omega)

/-! ## The first look -/

abbrev Place := (Namespace × Nat) × Fin SHARDS

/-- The shards that a sweep looks at, in their order. -/
def places (namespaces : List Namespace) : List Place :=
  namespaces.zipIdx.flatMap (fun x =>
    if x.1.keys = 0 then [] else (List.finRange SHARDS).map (fun i => (x, i)))

def sortAt (now_ms : Nat) (st : Sweeping) (p : Place) : Sweeping :=
  st.sort now_ms (p.1.1.shards p.2).first_expiry p.1.2 p.2

theorem look_all (st : Sweeping) (namespaces : List Namespace) :
    namespaces.zipIdx.foldl (fun st x => st.look now_ms x.2 x.1) st =
      (places namespaces).foldl (sortAt now_ms) st := by
  unfold places
  rw [List.foldl_flatMap]
  congr 1
  funext st x
  unfold look
  split
  · rfl
  · rw [List.foldl_map]
    rfl

theorem rest_looked (now_ms : Nat) (ps : List Place) (st : Sweeping) :
    (ps.foldl (sortAt now_ms) st).store = st.store ∧
      (ps.foldl (sortAt now_ms) st).taken = st.taken ∧
      (ps.foldl (sortAt now_ms) st).swept.expired = st.swept.expired ∧
      (ps.foldl (sortAt now_ms) st).swept.more = st.swept.more := by
  induction ps generalizing st with
  | nil => exact ⟨rfl, rfl, rfl, rfl⟩
  | cons p ps ih =>
    obtain ⟨hstore, -, htaken, hexpired, hmore⟩ := sort_rest st now_ms
      (p.1.1.shards p.2).first_expiry p.1.2 p.2
    obtain ⟨hstore', htaken', hexpired', hmore'⟩ := ih (sortAt now_ms st p)
    exact ⟨hstore'.trans hstore, htaken'.trans htaken, hexpired'.trans hexpired,
      hmore'.trans hmore⟩

theorem mem_looked (now_ms : Nat) (ps : List Place) (st : Sweeping) (d : Due) :
    d ∈ (ps.foldl (sortAt now_ms) st).due ↔ d ∈ st.due ∨
      ∃ p ∈ ps, ∃ slot, (p.1.1.shards p.2).first_expiry = some slot ∧
        mul_saturating slot 1000 ≤ now_ms ∧ d = toLex (slot, toLex (p.1.2, p.2)) := by
  induction ps generalizing st with
  | nil => simp
  | cons p ps ih =>
    rw [List.foldl_cons, ih, sortAt, mem_due_sort, List.exists_mem_cons_iff, or_assoc]

theorem nodup_looked (now_ms : Nat) (ps : List Place) (st : Sweeping) (hst : st.due.Nodup)
    (hps : (ps.map (fun p => (p.1.2, p.2))).Nodup)
    (hnew : ∀ d ∈ st.due, placeOf d ∉ ps.map (fun p => (p.1.2, p.2))) :
    (ps.foldl (sortAt now_ms) st).due.Nodup := by
  induction ps generalizing st with
  | nil => exact hst
  | cons p ps ih =>
    rw [List.map_cons, List.nodup_cons] at hps
    have hadded : ∀ d ∈ (sortAt now_ms st p).due, d ∈ st.due ∨ placeOf d = (p.1.2, p.2) := by
      intro d hd
      rw [sortAt, mem_due_sort] at hd
      rcases hd with hd | ⟨slot, -, -, rfl⟩
      · exact .inl hd
      · exact .inr rfl
    refine ih _ ?_ hps.2 (fun d hd => ?_)
    · rw [sortAt, due_sort]
      cases (p.1.1.shards p.2).first_expiry with
      | none => exact hst
      | some slot =>
        dsimp only
        split
        · exact List.nodup_cons.mpr ⟨fun hd => hnew _ hd List.mem_cons_self, hst⟩
        · exact hst
    · rcases hadded d hd with hd | hplace
      · exact fun hin => hnew d hd (List.mem_cons_of_mem _ hin)
      · rw [hplace]
        exact hps.1

theorem mem_places {namespaces : List Namespace} {p : Place} :
    p ∈ places namespaces ↔ namespaces[p.1.2]? = some p.1.1 ∧ p.1.1.keys ≠ 0 := by
  obtain ⟨⟨ns, n⟩, i⟩ := p
  unfold places
  rw [List.mem_flatMap]
  constructor
  · rintro ⟨⟨ns', n'⟩, hx, hin⟩
    split at hin
    · cases hin
    · next hkeys =>
      obtain ⟨j, -, heq⟩ := List.mem_map.mp hin
      cases heq
      exact ⟨List.mem_zipIdx_iff_getElem?.mp hx, hkeys⟩
  · rintro ⟨hget, hkeys⟩
    refine ⟨(ns, n), List.mem_zipIdx_iff_getElem?.mpr hget, ?_⟩
    rw [if_neg hkeys]
    exact List.mem_map.mpr ⟨i, List.mem_finRange i, rfl⟩

theorem nodup_places (namespaces : List Namespace) :
    ((places namespaces).map (fun p => (p.1.2, p.2))).Nodup := by
  unfold places
  rw [List.map_flatMap, List.nodup_flatMap]
  constructor
  · intro x _
    split
    · exact List.nodup_nil
    · rw [List.map_map]
      refine List.Nodup.map ?_ (List.nodup_finRange SHARDS)
      intro i j heq
      exact congrArg Prod.snd heq
  · have hidx : namespaces.zipIdx.Pairwise (fun x y => x.2 ≠ y.2) := by
      have hsnd : (namespaces.zipIdx.map Prod.snd).Nodup := by
        rw [List.zipIdx_map_snd]
        exact List.nodup_range'
      exact List.pairwise_map.mp hsnd
    refine hidx.imp (fun {x y} hne => ?_)
    intro p hx hy
    have hof : ∀ {x : Namespace × Nat}, p ∈ List.map (fun p : Place => (p.1.2, p.2))
        (if x.1.keys = 0 then [] else (List.finRange SHARDS).map (fun i => (x, i))) → p.1 = x.2 := by
      intro x hin
      split at hin
      · cases hin
      · rw [List.map_map] at hin
        obtain ⟨i, -, rfl⟩ := List.mem_map.mp hin
        rfl
    exact hne ((hof hx).symm.trans (hof hy))

theorem fine_look (max : Nat)
    (hsound : ∀ {n : Nat} {ns : Namespace}, s.namespaces[n]? = some ns →
      ∀ i, Shard.Sound ns.shard_of i ns.tick (ns.shards i))
    (hkeys : ∀ {n : Nat} {ns : Namespace}, s.namespaces[n]? = some ns →
      ns.keys = Multiset.card (View.present ⟨s.shared, ns⟩)) :
    Fine now_ms s (s.namespaces.zipIdx.foldl (fun st x => st.look now_ms x.2 x.1)
      { store := s, left := max }) := by
  rw [look_all]
  obtain ⟨hstore, htaken, hexpired, -⟩ := rest_looked now_ms (places s.namespaces)
    { store := s, left := max }
  have hmem := fun d => mem_looked now_ms (places s.namespaces)
    { store := s, left := max } d
  have hnodup := nodup_looked now_ms (places s.namespaces)
    { store := s, left := max } List.nodup_nil (nodup_places s.namespaces)
    (fun d hd => by cases hd)
  generalize (places s.namespaces).foldl (sortAt now_ms) { store := s, left := max } = st
    at hstore htaken hexpired hmem hnodup
  refine ⟨⟨?_, ?_, hnodup⟩, ?_, ?_, ?_, ?_, ?_, ?_, hexpired⟩
  · intro n ns i a hns hfirst hdue
    rw [hstore] at hns
    refine (hmem _).mpr (.inr ⟨((ns, n), i), mem_places.mpr ⟨hns, fun hzero => ?_⟩, a, hfirst, hdue,
      rfl⟩)
    -- A namespace with no key has none that expires.
    have hcard := hkeys hns
    rw [hzero] at hcard
    have hempty := Multiset.card_eq_zero.mp hcard.symm
    obtain ⟨e, he, -⟩ := Shard.first_expiry_mem (hsound hns i) hfirst
    have hin : e ∈ View.present ⟨s.shared, ns⟩ := View.mem_present.mpr ⟨i, he⟩
    rw [hempty] at hin
    cases hin
  · intro d hd
    rcases (hmem d).mp hd with hd | ⟨⟨⟨ns, n⟩, i⟩, hp, slot, hfirst, hdue, rfl⟩
    · cases hd
    · rw [hstore]
      exact ⟨ns, (mem_places.mp hp).1, hfirst, hdue⟩
  · rw [hstore]
  · rw [hstore]
  · intro n ns₀ ns h₀ h'
    rw [hstore, h₀] at h'
    cases h'
    rw [htaken]
    exact View.Took.refl (hsound h₀)
  · intro x hx
    rw [htaken] at hx
    cases hx
  · rw [htaken]
    exact List.Pairwise.nil
  · intro x hx
    rw [htaken] at hx
    cases hx

end Sweeping

end mqttd.rule_state.local_store
