-- Readers and writers that fit together. A reader takes bytes from the front; a
-- writer gives bytes or an error. The two are lawful when the reader takes back
-- what the writer gave, and takes only values that the writer can give.
import MqttBroker.Lib.Bytes

namespace Wire

abbrev Bytes := List UInt8

/-- A reader over the bytes that are left. -/
abbrev Reader (ε : Type) := StateT (List UInt8) (Except ε)

variable {ε α β : Type}

/-- The reader gives `a` on the bytes, and leaves `rest`. -/
def Gives (m : Reader ε α) (bytes : Bytes) (a : α) (rest : Bytes) : Prop :=
  m.run bytes = .ok (a, rest)

/-! ## The rules of `do` -/

variable {a : α} {bytes rest : Bytes}

@[simp] theorem gives_pure {b : α} :
    Gives (pure a : Reader ε α) bytes b rest ↔ a = b ∧ bytes = rest := by
  show Except.ok (a, bytes) = Except.ok (b, rest) ↔ _
  simp

variable {e : ε}

@[simp] theorem gives_throw : ¬ Gives (throw e : Reader ε α) bytes a rest := by
  intro h
  cases h

variable {m : Reader ε α} {f : α → Reader ε β} {b : β}

theorem gives_bind :
    Gives (m >>= f) bytes b rest ↔ ∃ a left, Gives m bytes a left ∧ Gives (f a) left b rest := by
  unfold Gives
  rw [StateT.run_bind]
  rcases h : m.run bytes with e | ⟨a, left⟩
  · simp [bind, Except.bind]
  · simp [bind, Except.bind]

theorem Gives.bind {left : Bytes} (hm : Gives m bytes a left) (hf : Gives (f a) left b rest) :
    Gives (m >>= f) bytes b rest := gives_bind.mpr ⟨a, left, hm, hf⟩

/-- What the reader gives does not depend on what follows the bytes that it takes. -/
def Onward (m : Reader ε α) : Prop :=
  ∀ bytes a rest, Gives m bytes a rest → ∀ more, Gives m (bytes ++ more) a (rest ++ more)

theorem onward_pure (a : α) : Onward (pure a : Reader ε α) := by
  intro bytes b rest h more
  obtain ⟨rfl, rfl⟩ := gives_pure.mp h
  exact gives_pure.mpr ⟨rfl, rfl⟩

theorem Onward.bind (hm : Onward m) (hf : ∀ a, Onward (f a)) : Onward (m >>= f) := by
  intro bytes b rest h more
  obtain ⟨a, left, hgives, hleft⟩ := gives_bind.mp h
  exact (hm bytes a left hgives more).bind (hf a left b rest hleft more)

/-- Where such a reader takes all of some bytes, it takes no part of them. -/
theorem Onward.whole (hm : Onward m) {front more : Bytes} {a b : α} {rest : Bytes}
    (hall : Gives m (front ++ more) a []) (h : Gives m front b rest) : more = [] := by
  have hrest := (Except.ok.inj ((hm front b rest h more).symm.trans hall))
  exact (List.append_eq_nil_iff.mp (Prod.mk.inj hrest).2).2

variable {c : Prop}

theorem gives_ite [Decidable c] {n : Reader ε α} :
    Gives (if c then m else n) bytes a rest ↔
      (c ∧ Gives m bytes a rest) ∨ (¬ c ∧ Gives n bytes a rest) := by
  split <;> simp_all

/-- A check that fails with an error. -/
def check (c : Prop) [Decidable c] (e : ε) : Reader ε Unit := if c then pure () else throw e

@[simp] theorem gives_check [Decidable c] {u : Unit} :
    Gives (check c e) bytes u rest ↔ c ∧ bytes = rest := by
  unfold check
  split <;> simp [*]

theorem Gives.check [Decidable c] (h : c) (bytes : Bytes) :
    Gives (check c e) bytes () bytes := gives_check.mpr ⟨h, rfl⟩

/-- A value or the error that stands in its place. -/
def orThrow (o : Option α) (e : ε) : Reader ε α :=
  match o with
  | some a => pure a
  | none => throw e

variable {o : Option α}

@[simp] theorem gives_orThrow : Gives (orThrow o e) bytes a rest ↔ o = some a ∧ bytes = rest := by
  cases o <;> simp [orThrow]

theorem Gives.orThrow (h : o = some a) (bytes : Bytes) :
    Gives (orThrow o e) bytes a bytes := gives_orThrow.mpr ⟨h, rfl⟩

/-- A result that reads nothing. -/
def lift (x : Except ε α) : Reader ε α :=
  match x with
  | .ok a => pure a
  | .error e => throw e

@[simp] theorem gives_lift {x : Except ε α} :
    Gives (lift x) bytes a rest ↔ x = .ok a ∧ bytes = rest := by
  cases x <;> simp [lift]

/-! ## Whether anything is left -/

def isEmpty : Reader ε Bool := do
  let left ← get
  return left.isEmpty

@[simp] theorem gives_isEmpty {b : Bool} :
    Gives (isEmpty : Reader ε Bool) bytes b rest ↔ bytes.isEmpty = b ∧ bytes = rest := by
  show Except.ok (bytes.isEmpty, bytes) = Except.ok (b, rest) ↔ _
  simp

/-- One value after another until nothing is left. An item takes a byte at least, so the
bytes that are left are fuel enough. -/
def manyLoop (item : Reader ε α) : Nat → Reader ε (List α)
  | 0 => pure []
  | fuel + 1 => do
    if (← isEmpty) then pure []
    else
      let a ← item
      let l ← manyLoop item fuel
      return a :: l

def many (item : Reader ε α) : Reader ε (List α) := fun bytes =>
  (manyLoop item bytes.length).run bytes

/-! ## Readers and writers -/

/-- The writer writes every valid value in as many bytes as its size, and the reader takes
it back; what the reader takes is valid, and no smaller than its size. -/
structure Lawful (read : Reader ε α) (put : α → Except ε Bytes) (size : α → Nat)
    (Valid : α → Prop) : Prop where
  back : ∀ {a}, Valid a → ∃ bytes, put a = .ok bytes ∧ bytes.length = size a ∧
    ∀ rest, Gives read (bytes ++ rest) a rest
  front : ∀ {bytes a rest}, Gives read bytes a rest →
    Valid a ∧ size a + rest.length ≤ bytes.length

/-- A field that is there only under a condition. -/
theorem Lawful.optional {read : Reader ε α} {put : α → Except ε Bytes} {size : α → Nat}
    {Valid : α → Prop} (h : Lawful read put size Valid) (c : Prop) [Decidable c] (d : α) :
    Lawful (if c then read else pure d) (fun a => if c then put a else .ok [])
      (fun a => if c then size a else 0) (fun a => if c then Valid a else a = d) := by
  by_cases hc : c
  · simpa only [if_pos hc] using h
  · simp only [if_neg hc]
    constructor
    · rintro a rfl
      exact ⟨[], rfl, rfl, fun rest => by simp⟩
    · intro bytes a rest hg
      obtain ⟨rfl, rfl⟩ := gives_pure.mp hg
      exact ⟨rfl, by simp⟩

/-- Each value of a list written after the one before it. -/
def putMany (put : α → Except ε Bytes) : List α → Except ε Bytes
  | [] => .ok []
  | a :: l => do
    let bytes ← put a
    let more ← putMany put l
    return bytes ++ more

section many

variable {read : Reader ε α} {put : α → Except ε Bytes} {size : α → Nat} {Valid : α → Prop}

theorem Lawful.manyLoop_back (h : Lawful read put size Valid) (hpos : ∀ a, 0 < size a)
    {l : List α} (hl : ∀ a ∈ l, Valid a) :
    ∃ bytes, putMany put l = .ok bytes ∧ bytes.length = (l.map size).sum ∧
      ∀ fuel, bytes.length ≤ fuel → Gives (manyLoop read fuel) bytes l [] := by
  induction l with
  | nil =>
    refine ⟨[], rfl, rfl, fun fuel _ => ?_⟩
    cases fuel with
    | zero => simp [manyLoop]
    | succ fuel => simp [manyLoop, gives_bind, gives_ite]
  | cons a l ih =>
    obtain ⟨bytes, hput, hsize, hread⟩ := h.back (hl a (by simp))
    obtain ⟨more, hmore, hsizes, hreads⟩ := ih (fun b hb => hl b (List.mem_cons_of_mem _ hb))
    refine ⟨bytes ++ more, ?_, ?_, fun fuel hfuel => ?_⟩
    · simp [putMany, hput, hmore, bind, Except.bind, pure, Except.pure]
    · simp [hsize, hsizes]
    · have ha := hpos a
      rw [List.length_append, hsize] at hfuel
      obtain ⟨fuel, rfl⟩ : ∃ n, fuel = n + 1 := ⟨fuel - 1, by omega⟩
      have hne : (bytes ++ more).isEmpty = false := by
        rw [List.isEmpty_eq_false_iff, Ne, List.append_eq_nil_iff]
        rintro ⟨rfl, -⟩
        simp at hsize
        omega
      refine Gives.bind (gives_isEmpty.mpr ⟨hne, rfl⟩) ?_
      exact (hread more).bind ((hreads fuel (by omega)).bind (by simp))

theorem Lawful.manyLoop_front (h : Lawful read put size Valid) (hpos : ∀ a, 0 < size a)
    {fuel : Nat} {bytes rest : Bytes} {l : List α} (hfuel : bytes.length ≤ fuel)
    (hg : Gives (manyLoop read fuel) bytes l rest) :
    rest = [] ∧ (∀ a ∈ l, Valid a) ∧ (l.map size).sum ≤ bytes.length := by
  induction fuel generalizing bytes l with
  | zero =>
    obtain ⟨rfl, rfl⟩ := gives_pure.mp hg
    have hnil : bytes = [] := List.length_eq_zero_iff.mp (by omega)
    exact ⟨hnil, by simp, by simp⟩
  | succ fuel ih =>
    obtain ⟨empty, left, hempty, hg⟩ := gives_bind.mp hg
    obtain ⟨hleft, rfl⟩ := gives_isEmpty.mp hempty
    rcases gives_ite.mp hg with ⟨hc, hg⟩ | ⟨hc, hg⟩
    · obtain ⟨rfl, rfl⟩ := gives_pure.mp hg
      rw [hc] at hleft
      exact ⟨List.isEmpty_iff.mp hleft, by simp, by simp⟩
    · obtain ⟨a, left, ha, hg⟩ := gives_bind.mp hg
      obtain ⟨l', left', hl', hg⟩ := gives_bind.mp hg
      obtain ⟨rfl, rfl⟩ := gives_pure.mp hg
      obtain ⟨hvalid, hsize⟩ := h.front ha
      have hp := hpos a
      obtain ⟨hrest, hvalids, hsizes⟩ := ih (by omega) hl'
      refine ⟨hrest, ?_, ?_⟩
      · intro b hb
        rcases List.mem_cons.mp hb with rfl | hb
        · exact hvalid
        · exact hvalids b hb
      · simp only [List.map_cons, List.sum_cons]
        omega

theorem Lawful.many_back (h : Lawful read put size Valid) (hpos : ∀ a, 0 < size a)
    {l : List α} (hl : ∀ a ∈ l, Valid a) :
    ∃ bytes, putMany put l = .ok bytes ∧ bytes.length = (l.map size).sum ∧
      Gives (many read) bytes l [] := by
  obtain ⟨bytes, hput, hsize, hread⟩ := h.manyLoop_back hpos hl
  exact ⟨bytes, hput, hsize, hread _ (le_refl _)⟩

theorem Lawful.many_front (h : Lawful read put size Valid) (hpos : ∀ a, 0 < size a)
    {bytes rest : Bytes} {l : List α} (hg : Gives (many read) bytes l rest) :
    rest = [] ∧ (∀ a ∈ l, Valid a) ∧ (l.map size).sum ≤ bytes.length :=
  h.manyLoop_front hpos (le_refl _) hg

end many

/-! ## Values in order -/

/-- The reader takes back every valid value that was written, and takes no other. -/
structure Faithful (read : Reader ε α) (put : α → Bytes) (Valid : α → Prop) : Prop where
  back : ∀ {a}, Valid a → ∀ rest, Gives read (put a ++ rest) a rest
  front : ∀ {bytes a rest}, Gives read bytes a rest → Valid a

/-- What the reader takes is what the writer writes, to the byte. -/
def Exact (read : Reader ε α) (put : α → Bytes) : Prop :=
  ∀ {bytes a rest}, Gives read bytes a rest → bytes = put a ++ rest

/-- Every valid value has one form, and the reader takes nothing else. -/
structure OneForm (read : Reader ε α) (put : α → Bytes) (Valid : α → Prop) : Prop extends
    Faithful read put Valid where
  exact : Exact read put

theorem OneForm.intro {read : Reader ε α} {put : α → Bytes} {Valid : α → Prop}
    (hback : ∀ {a}, Valid a → ∀ rest, Gives read (put a ++ rest) a rest)
    (hfront : ∀ {bytes a rest}, Gives read bytes a rest → Valid a ∧ bytes = put a ++ rest) :
    OneForm read put Valid :=
  ⟨⟨hback, fun h => (hfront h).1⟩, fun h => (hfront h).2⟩

/-- A number of values, each read with the one before it at hand. -/
def ascending (item : Option α → Reader ε α) : Nat → Option α → Reader ε (List α)
  | 0, _ => pure []
  | n + 1, last => do
    let a ← item last
    let l ← ascending item n (some a)
    return a :: l

section ascending

variable {item : Option α → Reader ε α} {put : α → Bytes} {Valid : α → Prop} {R : α → α → Prop}
  (h : ∀ last, OneForm (item last) put fun a => Valid a ∧ ∀ b ∈ last, R b a)

include h

theorem ascending_back {l : List α} (hl : l.Pairwise R) (hv : ∀ a ∈ l, Valid a) (last : Option α)
    (hlast : ∀ b ∈ last, ∀ a ∈ l, R b a) (rest : Bytes) :
    Gives (ascending item l.length last) (l.flatMap put ++ rest) l rest := by
  induction l generalizing last with
  | nil => simp [ascending]
  | cons a l ih =>
    obtain ⟨ha, htail⟩ := List.pairwise_cons.mp hl
    rw [List.flatMap_cons, List.append_assoc]
    apply Gives.bind ((h last).back ⟨hv a (by simp), fun b hb => hlast b hb a (by simp)⟩ _)
    apply Gives.bind (ih htail (fun b hb => hv b (List.mem_cons_of_mem _ hb)) (some a) ?_)
    · simp
    · rintro b ⟨⟩
      exact ha

theorem ascending_front (htrans : ∀ {a b c}, R a b → R b c → R a c) {n : Nat} {last : Option α}
    {bytes rest : Bytes} {l : List α} (hg : Gives (ascending item n last) bytes l rest) :
    l.length = n ∧ (∀ a ∈ l, Valid a) ∧ l.Pairwise R ∧ (∀ b ∈ last, ∀ a ∈ l, R b a) ∧
      bytes = l.flatMap put ++ rest := by
  induction n generalizing last bytes l with
  | zero =>
    obtain ⟨rfl, rfl⟩ := gives_pure.mp hg
    simp
  | succ n ih =>
    obtain ⟨a, left, ha, hg⟩ := gives_bind.mp hg
    obtain ⟨l', left', hl', hg⟩ := gives_bind.mp hg
    obtain ⟨rfl, rfl⟩ := gives_pure.mp hg
    obtain ⟨hvalid, hafter⟩ := (h last).front ha
    obtain ⟨hlen, hvalids, hpairs, hhead, hbytes⟩ := ih hl'
    have hall : ∀ x ∈ l', R a x := hhead a rfl
    refine ⟨by simp [hlen], ?_, List.pairwise_cons.mpr ⟨hall, hpairs⟩, ?_, ?_⟩
    · intro x hx
      rcases List.mem_cons.mp hx with rfl | hx
      · exact hvalid
      · exact hvalids x hx
    · intro b hb x hx
      rcases List.mem_cons.mp hx with rfl | hx
      · exact hafter b hb
      · exact htrans (hafter b hb) (hall x hx)
    · rw [(h last).exact ha, hbytes]
      simp

end ascending

end Wire
